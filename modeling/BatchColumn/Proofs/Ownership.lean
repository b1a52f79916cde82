import BatchColumn.Proofs.Arrays
import BatchColumn.Proofs.Layers
import BatchColumn.Proofs.Parts

/-!
# Blocks that own their arrays

A layer is **tight** if it keeps nothing alive but its own positions (`Block.Tight`): its views
cover the arrays behind them, and its positions use all of what the views show, the bytes and the
elements below included. No promise is tight, since it keeps a payload alive.

A block is **owned** if every layer at every depth is tight and over arrays that did not exist
before (`Block.Owned`). A dictionary block in it refers to every entry, to some entry twice, and to
no dictionary block (`Keys.Saves`): otherwise it would be no better than the entries. Blocks that
are gathered are owned, which is one of the facts that go through the induction of
`Block.gather_owns`; the rules for it are here, one for each kind of layer.
-/

namespace BatchColumn

variable {loads : Loads} {old : Set Nat}

/-! ### Tight layers -/

/-- The leaf keeps no bytes alive but those of its byte strings. -/
def Slices.Tight (leaf : Slices) : Prop :=
  leaf.Whole ∧ leaf.Filled

/-- The layer keeps no offsets and flags alive but those of its lists, and the lists use every
element. -/
structure Lists.Tight (lists : Lists) (size : Nat) : Prop where
  /-- The offsets cover their array. -/
  offsets : lists.offsets.isWhole = true
  /-- The flags cover theirs. -/
  nulls : lists.nulls.Whole
  /-- The first list has the first offset. -/
  base : lists.base = 0
  /-- The last list has the last offset. -/
  count : lists.offsets.length = lists.count + 1
  /-- The first list starts with the first element. -/
  first : lists.start 0 = 0
  /-- The last list ends with the last element. -/
  last : lists.start lists.count = size

/-- Lists that are laid out anew are tight if they end with the last element. -/
theorem Lists.tight_ofEnds {storage handle memory size : Nat} {ends : List Nat} {nulls : Nulls}
    (whole : nulls.Whole)
    (last : (ofEnds storage handle memory 0 ends nulls).start ends.length = size) :
    (ofEnds storage handle memory 0 ends nulls).Tight size where
  offsets := View.isWhole_ofList _ _
  nulls := whole
  base := rfl
  count := rfl
  first := start_ofEnds storage handle memory 0 ends nulls 0
  last := last

/-- The layer keeps no ids alive but its own. -/
structure Keys.Tight (keys : Keys) : Prop where
  /-- The ids cover their array. -/
  ids : keys.ids.isWhole = true
  /-- The first key is the first id. -/
  offset : keys.offset = 0
  /-- The last key is the last id. -/
  count : keys.count = keys.ids.length

/-- Keys that are worth having: to all of the entries, which are fewer than the keys and no
dictionary block. -/
structure Keys.Saves (loads : Loads) (keys : Keys) (entries : Block) : Prop where
  /-- The entries are no dictionary block. -/
  flat : entries.isNested loads = false
  /-- Every entry is referred to. -/
  covers : ∀ position < entries.positionCount, position ∈ keys.toList
  /-- Some entry is referred to twice. -/
  fewer : entries.positionCount < keys.count

namespace Block

/-- A layer keeps nothing alive but its own positions. -/
def Tight : Block → Prop
  | ints leaf => leaf.Whole
  | slices leaf => leaf.Tight
  | array lists elements => lists.Tight elements.positionCount
  | dictionary keys _ => keys.Tight
  | «lazy» _ _ => False

/-! ### Owned blocks -/

/-- A layer that was laid out anew, when there were the old arrays. -/
structure Laid (old : Set Nat) (loads : Loads) (b : Block) : Prop where
  /-- It keeps nothing else alive. -/
  tight : b.Tight
  /-- Its arrays are none of the old ones. -/
  new : ∀ n ∈ b.arrays, n ∉ old
  /-- If it is a layer of keys, they are worth having. -/
  saves : ∀ keys entries, b = dictionary keys entries → keys.Saves loads entries

/-- All layers of a block were laid out anew. -/
def Owned (old : Set Nat) (loads : Loads) (b : Block) : Prop :=
  ∀ later x, Part later x b → x.Laid old loads

theorem Owned.mono {less : Set Nat} {b : Block} (le : less ⊆ old) (owned : b.Owned old loads) :
    b.Owned less loads := by
  intro later x part
  have laid := owned later x part
  exact { laid with new := fun n mem within ↦ laid.new n mem (le within) }

theorem owned_ints {leaf : Ints} (whole : leaf.Whole) (new : ∀ n ∈ leaf.arrays, n ∉ old) :
    (ints leaf).Owned old loads := by
  intro later x part
  cases part with
  | refl => exact ⟨whole, new, fun _ _ same ↦ nomatch same⟩

theorem owned_slices {leaf : Slices} (tight : leaf.Tight) (new : ∀ n ∈ leaf.arrays, n ∉ old) :
    (slices leaf).Owned old loads := by
  intro later x part
  cases part with
  | refl => exact ⟨tight, new, fun _ _ same ↦ nomatch same⟩

theorem owned_array {lists : Lists} {elements : Block} (tight : lists.Tight elements.positionCount)
    (new : ∀ n ∈ lists.arrays, n ∉ old) (owned : elements.Owned old loads) :
    (array lists elements).Owned old loads := by
  intro later x part
  cases part with
  | refl => exact ⟨tight, new, fun _ _ same ↦ nomatch same⟩
  | elements part => exact owned later x part

theorem owned_dictionary {keys : Keys} {entries : Block} (tight : keys.Tight)
    (new : keys.ids.storage ∉ old) (saves : keys.Saves loads entries)
    (owned : entries.Owned old loads) : (dictionary keys entries).Owned old loads := by
  intro later x part
  cases part with
  | refl =>
    refine ⟨tight, by simpa [arrays] using new, fun others found same ↦ ?_⟩
    obtain ⟨rfl, rfl⟩ := Block.dictionary.inj same
    exact saves
  | entries part => exact owned later x part

end Block

end BatchColumn
