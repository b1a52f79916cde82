import BatchColumn.Block.Select
import BatchColumn.Proofs.Parts
import Mathlib.Data.List.Forall2
import Mathlib.Data.Option.Basic

/-!
# Blocks that differ in what is not loaded

Two blocks, each over loads of its own, are **alike** if they differ in nothing but what is not
loaded: a lazy block that is not loaded may promise another payload, deeper or shallower, with
another loader under another identity, as long as it promises as many positions (`Block.Alike`).
What lazy blocks have loaded must be alike, and so on down; which loaders were called does not
matter.

Whatever can be told of one block without loading can be told of the other, and is the same. Here
this is shown for the facts and sizes that are functions of the loads. The walks behind them all go
from a block to its face and to the block below, and there is one induction that goes down two alike
blocks in step (`Block.Alike.walk`).
-/

namespace BatchColumn

variable {loads others : Loads}

/-! ### Results side by side -/

/-- Both end with answers in the relation, or both with the same error. -/
inductive Matched {ε α β : Type} (R : α → β → Prop) : Except ε α → Except ε β → Prop
  /-- Answers in the relation. -/
  | ok {a : α} {b : β} : R a b → Matched R (.ok a) (.ok b)
  /-- The same error. -/
  | error (cause : ε) : Matched R (.error cause) (.error cause)

namespace Matched

variable {ε α β γ δ : Type}

protected theorem refl (result : Except ε α) : Matched Eq result result := by
  rcases result with cause | a
  · exact .error cause
  · exact .ok rfl

protected theorem bind {R : α → β → Prop} {S : γ → δ → Prop} {first : Except ε α}
    {second : Except ε β} {rest : α → Except ε γ} {other : β → Except ε δ}
    (matched : Matched R first second) (next : ∀ a b, R a b → Matched S (rest a) (other b)) :
    Matched S (first >>= rest) (second >>= other) := by
  cases matched with
  | ok related => exact next _ _ related
  | error cause => exact .error cause

end Matched

/-! ### Blocks side by side -/

/-- The blocks differ in nothing but what is not loaded, where `loads` is loaded behind the first
and `others` behind the second. -/
inductive Block.Alike (loads others : Loads) : Block → Block → Prop
  /-- The same integers. -/
  | ints (leaf : Ints) : Alike loads others (.ints leaf) (.ints leaf)
  /-- The same byte strings. -/
  | slices (leaf : Slices) : Alike loads others (.slices leaf) (.slices leaf)
  /-- The same lists of elements that are alike. -/
  | array (lists : Lists) {elements items : Block} : Alike loads others elements items →
      Alike loads others (.array lists elements) (.array lists items)
  /-- The same references to entries that are alike. -/
  | dictionary (keys : Keys) {entries items : Block} : Alike loads others entries items →
      Alike loads others (.dictionary keys entries) (.dictionary keys items)
  /-- Promises of as many positions, neither of them loaded. -/
  | unloaded {promise twin : Promise} {payload double : Block} : promise.count = twin.count →
      loads.content? promise.cell payload.depth = none →
      others.content? twin.cell double.depth = none →
      Alike loads others (.lazy promise payload) (.lazy twin double)
  /-- Promises of as many positions that have loaded what is alike. -/
  | loaded {promise twin : Promise} {payload double : Block} {content : Within payload.depth}
      {image : Within double.depth} : promise.count = twin.count →
      loads.content? promise.cell payload.depth = some content →
      others.content? twin.cell double.depth = some image →
      Alike loads others content.1 image.1 →
      Alike loads others (.lazy promise payload) (.lazy twin double)

/-- The faces are of one kind, over blocks that are alike. -/
inductive Face.Alike (loads others : Loads) {bound limit : Nat} : Face bound → Face limit → Prop
  /-- The same integers. -/
  | ints (leaf : Ints) : Alike loads others (.ints leaf) (.ints leaf)
  /-- The same byte strings. -/
  | slices (leaf : Slices) : Alike loads others (.slices leaf) (.slices leaf)
  /-- The same lists of elements that are alike. -/
  | array (lists : Lists) {elements items : Block} (below : elements.depth < bound)
      (under : items.depth < limit) : elements.Alike loads others items →
      Alike loads others (.array lists elements below) (.array lists items under)
  /-- The same references to entries that are alike. -/
  | dictionary (keys : Keys) {entries items : Block} (below : entries.depth < bound)
      (under : items.depth < limit) : entries.Alike loads others items →
      Alike loads others (.dictionary keys entries below) (.dictionary keys items under)

theorem Face.Alike.widen {bound limit wider larger : Nat} {face : Face bound} {twin : Face limit}
    (alike : face.Alike loads others twin) (le : bound ≤ wider) (le' : limit ≤ larger) :
    (face.widen le).Alike loads others (twin.widen le') := by
  cases alike with
  | ints leaf => exact .ints leaf
  | slices leaf => exact .slices leaf
  | array lists below under alike => exact .array lists _ _ alike
  | dictionary keys below under alike => exact .dictionary keys _ _ alike

theorem Face.alike_map_widen {bound limit wider larger : Nat} {face : Option (Face bound)}
    {twin : Option (Face limit)} (alike : Option.Rel (Face.Alike loads others) face twin)
    (le : bound ≤ wider) (le' : limit ≤ larger) :
    Option.Rel (Face.Alike loads others) (face.map (.widen le)) (twin.map (.widen le')) := by
  cases alike with
  | none => exact .none
  | some alike => exact .some (alike.widen le le')

namespace Block.Alike

variable {b c : Block}

/-! ### Layers -/

theorem positionCount_eq (alike : b.Alike loads others c) : b.positionCount = c.positionCount := by
  cases alike with
  | unloaded count | loaded count => exact count
  | _ => rfl

theorem unsupported_eq (alike : b.Alike loads others c) (operation : String) :
    b.unsupported operation = c.unsupported operation := by
  cases alike <;> rfl

/-- What stands behind the loaded lazy blocks in front of alike blocks is alike. -/
theorem face (alike : b.Alike loads others c) :
    Option.Rel (Face.Alike loads others) (b.face? loads) (c.face? others) := by
  induction alike with
  | ints leaf =>
    rw [face?, face?]
    exact .some (.ints leaf)
  | slices leaf =>
    rw [face?, face?]
    exact .some (.slices leaf)
  | array lists alike =>
    rw [face?, face?]
    exact .some (.array lists _ _ alike)
  | dictionary keys alike =>
    rw [face?, face?]
    exact .some (.dictionary keys _ _ alike)
  | unloaded _ held held' =>
    rw [face?, face?, held, held']
    exact .none
  | loaded _ held held' _ ih =>
    rw [face?, face?, held, held']
    exact Face.alike_map_widen ih _ _

theorem isNone_face_eq (alike : b.Alike loads others c) :
    (b.face? loads).isNone = (c.face? others).isNone := by
  have faces := alike.face
  generalize b.face? loads = one, c.face? others = two at faces ⊢
  cases faces <;> rfl

/-- **Alike blocks are walked down in step**: a fact about them may use itself for the blocks below
their faces. -/
@[elab_as_elim]
theorem walk {motive : ∀ b c, b.Alike loads others c → Prop}
    (unloaded : ∀ b c alike, b.face? loads = none → c.face? others = none → motive b c alike)
    (ints : ∀ b c alike leaf, b.face? loads = some (.ints leaf) →
      c.face? others = some (.ints leaf) → motive b c alike)
    (slices : ∀ b c alike leaf, b.face? loads = some (.slices leaf) →
      c.face? others = some (.slices leaf) → motive b c alike)
    (array : ∀ b c alike lists elements items below under,
      b.face? loads = some (.array lists elements below) →
      c.face? others = some (.array lists items under) →
      ∀ inner : elements.Alike loads others items, motive elements items inner → motive b c alike)
    (dictionary : ∀ b c alike keys entries items below under,
      b.face? loads = some (.dictionary keys entries below) →
      c.face? others = some (.dictionary keys items under) →
      ∀ inner : entries.Alike loads others items, motive entries items inner → motive b c alike)
    {b c : Block} (alike : b.Alike loads others c) : motive b c alike := by
  induction b using Block.walk generalizing c with
  | step b ih =>
    have faces := alike.face
    rcases shown : b.face? loads with - | face
    all_goals rcases seen : c.face? others with - | twin
    all_goals rw [shown, seen] at faces
    case none.none => exact unloaded b c alike shown seen
    case some.some =>
      cases faces with
      | some same =>
        cases same with
        | ints leaf => exact ints b c alike leaf shown seen
        | slices leaf => exact slices b c alike leaf shown seen
        | array lists below under inner =>
          exact array b c alike lists _ _ below under shown seen inner (ih _ below inner)
        | dictionary keys below under inner =>
          exact dictionary b c alike keys _ _ below under shown seen inner (ih _ below inner)
    all_goals cases faces

/-! ### Facts -/

theorem mayHaveNull_eq (alike : b.Alike loads others c) :
    b.mayHaveNull loads = c.mayHaveNull others := by
  induction alike using walk with
  | unloaded b c _ shown seen | ints b c _ _ shown seen | slices b c _ _ shown seen
  | array b c _ _ _ _ _ _ shown seen => rw [mayHaveNull, mayHaveNull, shown, seen]
  | dictionary b c _ _ _ _ _ _ shown seen _ ih =>
    rw [mayHaveNull, mayHaveNull, shown, seen]
    dsimp only
    rw [ih]

theorem isLoaded_eq (alike : b.Alike loads others c) : b.isLoaded loads = c.isLoaded others := by
  induction alike using walk with
  | unloaded b c _ shown seen | ints b c _ _ shown seen | slices b c _ _ shown seen =>
    rw [isLoaded, isLoaded, shown, seen]
  | array b c _ _ _ _ _ _ shown seen _ ih | dictionary b c _ _ _ _ _ _ shown seen _ ih =>
    rw [isLoaded, isLoaded, shown, seen]
    exact ih

theorem supportsGather_eq (alike : b.Alike loads others c) :
    b.supportsGather loads = c.supportsGather others := by
  induction alike using walk with
  | unloaded b c _ shown seen | ints b c _ _ shown seen | slices b c _ _ shown seen =>
    rw [supportsGather, supportsGather, shown, seen]
  | array b c _ _ _ _ _ _ shown seen _ ih | dictionary b c _ _ _ _ _ _ shown seen _ ih =>
    rw [supportsGather, supportsGather, shown, seen]
    exact ih

theorem retainedSize_eq (alike : b.Alike loads others c) :
    b.retainedSize loads = c.retainedSize others := by
  induction alike with
  | ints | slices => rw [retainedSize, retainedSize]
  | array _ _ ih | dictionary _ _ ih => rw [retainedSize, retainedSize, ih]
  | unloaded _ held held' => rw [retainedSize, retainedSize, held, held']
  | loaded _ held held' _ ih =>
    rw [retainedSize, retainedSize, held, held']
    dsimp only
    rw [ih]

/-- The blocks one layer below alike blocks are alike. A promise that is not loaded shows none. -/
theorem children (alike : b.Alike loads others c) :
    List.Forall₂ (Alike loads others) (b.children loads) (c.children others) := by
  cases alike with
  | ints | slices => exact .nil
  | array _ alike | dictionary _ alike => exact .cons alike .nil
  | unloaded _ held held' =>
    rw [Block.children, Block.children, content?, content?, held, held']
    exact .nil
  | loaded _ held held' alike =>
    rw [Block.children, Block.children, content?, content?, held, held']
    exact .cons alike .nil

/-! ### Dictionaries in front -/

/-- Alike blocks come to dictionary blocks that are alike, or both to none. -/
theorem resolved (alike : b.Alike loads others c) :
    Option.Rel (fun found twin ↦ found.1 = twin.1 ∧ found.2.Alike loads others twin.2)
      (b.resolved? loads) (c.resolved? others) := by
  induction alike using walk with
  | unloaded b c _ shown seen | ints b c _ _ shown seen | slices b c _ _ shown seen
  | array b c _ _ _ _ _ _ shown seen =>
    rw [resolved?, resolved?, shown, seen]
    exact .none
  | dictionary b c _ _ _ _ _ _ shown seen inner =>
    rw [resolved?, resolved?, shown, seen]
    exact .some ⟨rfl, inner⟩

theorem isNested_eq (alike : b.Alike loads others c) : b.isNested loads = c.isNested others := by
  rw [isNested, isNested]
  have found := alike.resolved
  generalize b.resolved? loads = one, c.resolved? others = two at found ⊢
  cases found <;> rfl

/-- Ids are looked up through alike entries to blocks that are alike. -/
theorem flattenIds (alike : b.Alike loads others c) (handle : Nat) (ids : List Nat) :
    Matched (fun flat twin ↦ flat.1 = twin.1 ∧ flat.2.1.Alike loads others twin.2.1 ∧
        flat.2.2 = twin.2.2)
      (b.flattenIds loads handle ids) (c.flattenIds others handle ids) := by
  induction alike using walk generalizing handle ids with
  | unloaded b c alike shown seen | ints b c alike _ shown seen | slices b c alike _ shown seen
  | array b c alike _ _ _ _ _ shown seen =>
    rw [Block.flattenIds, Block.flattenIds, shown, seen]
    exact .ok ⟨rfl, alike, rfl⟩
  | dictionary b c _ keys _ _ _ _ shown seen _ ih =>
    rw [Block.flattenIds, Block.flattenIds, shown, seen]
    refine .bind (.refl _) fun _ _ _ ↦ .bind (.refl _) ?_
    rintro ids _ rfl
    exact ih keys.handle ids

/-! ### Sizes -/

theorem maskSize_eq (alike : b.Alike loads others c) (mask : Mask) :
    b.maskSize loads mask = c.maskSize others mask := by
  induction alike using walk generalizing mask with
  | unloaded b c _ shown seen | ints b c _ _ shown seen | slices b c _ _ shown seen =>
    rw [maskSize, maskSize, shown, seen]
  | array b c _ _ _ _ _ _ shown seen inner ih =>
    rw [maskSize, maskSize, shown, seen]
    simp only [inner.positionCount_eq, ih]
  | dictionary b c _ _ _ _ _ _ shown seen inner ih =>
    rw [maskSize, maskSize, shown, seen]
    simp only [inner.positionCount_eq, ih]

theorem positionsSize_eq (alike : b.Alike loads others c) (flags : List Bool) :
    b.positionsSize loads flags = c.positionsSize others flags := by
  rw [positionsSize, positionsSize, alike.positionCount_eq, alike.maskSize_eq]

theorem flatMaskSize_eq (alike : b.Alike loads others c) (mask : Mask) :
    b.flatMaskSize loads mask = c.flatMaskSize others mask := by
  induction alike using walk generalizing mask with
  | unloaded b c alike shown seen | ints b c alike _ shown seen | slices b c alike _ shown seen
  | array b c alike _ _ _ _ _ shown seen =>
    rw [flatMaskSize, flatMaskSize, shown, seen]
    exact alike.maskSize_eq mask
  | dictionary b c _ _ _ _ _ _ shown seen inner ih =>
    rw [flatMaskSize, flatMaskSize, shown, seen]
    simp only [inner.positionCount_eq, ih]

end Block.Alike

end BatchColumn
