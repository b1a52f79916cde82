import BatchColumn.Proofs.Chains
import BatchColumn.Proofs.Regions

/-!
# Selections of selections

A selection refers to positions of a block and copies nothing. A block that is no dictionary block
becomes the entries of the selection, up to what it remembers; a dictionary block hands on its own
entries, and the selection picks among its keys (`Block.Refers`). So a selection of a selection is
over the same entries, under the same handle and identity, and layers never pile up, however often
positions are selected.

The result is about every reachable world and every block that it holds: positions that are there
can be selected, and nothing is loaded for it. Whatever is loaded later, the selection reads as the
block does at the positions, and as a gather of them does that answers; and positions of it may be
selected at once or at any later time (`Reachable.selections_compose`).
-/

namespace BatchColumn

variable {K : Census} {loads : Loads} {ledger after : Ledger} {b r : Block}
  {positions : List Nat} {offset length : Nat}

namespace Block

/-! ### What a selection refers to -/

/-- How a selection of some positions refers to its block. -/
structure Refers (b : Block) (keys : Keys) (entries : Block) (positions : List Nat) : Prop where
  /-- A dictionary block hands on its entries, and its keys are picked. -/
  picks : ∀ own below, b = dictionary own below → entries = below ∧ keys.Picks own positions
  /-- Any other block becomes the entries, and its positions are the ids. -/
  wraps : (∀ own below, b ≠ dictionary own below) →
    (∃ memory, entries = b.withMemory memory) ∧ keys.toList = positions

/-- The entries of a selection are small if the block is. -/
theorem Refers.small {keys : Keys} {entries : Block} (refers : b.Refers keys entries positions)
    (small : b.Small loads) : entries.Small loads := by
  by_cases keyed : ∃ own below, b = dictionary own below
  · obtain ⟨own, below, rfl⟩ := keyed
    exact (refers.picks own below rfl).1 ▸ small.entries
  · obtain ⟨⟨memory, rfl⟩, -⟩ := refers.wraps fun own below same ↦ keyed ⟨own, below, same⟩
    exact small.withMemory

/-- A dictionary block that is made refers to the block itself. -/
theorem exists_of_mkDictionary {ids : List Nat} {source : SourceId}
    (run : (b.mkDictionary ids source).outcome loads ledger = (.ok r, after)) :
    ∃ keys memory, r = dictionary keys (b.withMemory memory) ∧ keys.toList = ids := by
  obtain ⟨_, _, -, run⟩ := Query.exists_of_outcome_bind run
  obtain ⟨copy, _, duplicated, run⟩ := Query.exists_of_outcome_bind run
  obtain ⟨handle, middle, -, run⟩ := Query.exists_of_outcome_bind run
  obtain ⟨keys, _, made, ⟨⟩⟩ := Query.exists_of_outcome_bind run
  obtain ⟨memory, _, answered⟩ := b.exists_outcome_duplicate _ _
  obtain ⟨⟩ := answered.symm.trans duplicated
  obtain ⟨same, answered, -, listed⟩ := Keys.exists_of_ofIds_none handle (b.withMemory memory) ids
    source loads middle
  obtain ⟨⟩ := answered.symm.trans made
  exact ⟨keys, memory, rfl, listed⟩

/-- **What is selected refers to the block**, through its keys if it has keys. -/
theorem Selected.exists_refers (selected : Selected K b r (stretch positions offset length))
    (run : (b.select positions offset length).outcome loads ledger = (.ok r, after)) :
    ∃ keys entries, r = dictionary keys entries ∧
      b.Refers keys entries (stretch positions offset length) := by
  by_cases keyed : ∃ own below, b = dictionary own below
  · obtain ⟨own, below, rfl⟩ := keyed
    obtain ⟨keys, rfl, picks⟩ := selected.picks own below rfl
    refine ⟨keys, below, rfl, ?_, fun other ↦ absurd rfl (other own below)⟩
    rintro _ _ ⟨⟩
    exact ⟨rfl, picks⟩
  · obtain ⟨_, _, -, run⟩ := Query.exists_of_outcome_bind run
    have made : ∃ keys memory, r = dictionary keys (b.withMemory memory) ∧
        keys.toList = stretch positions offset length := by
      rcases b with leaf | leaf | ⟨lists, elements⟩ | ⟨own, below⟩ | ⟨promise, payload⟩
      case dictionary => exact absurd ⟨own, below, rfl⟩ keyed
      all_goals
        obtain ⟨_, _, -, run⟩ := Query.exists_of_outcome_bind run
        obtain ⟨_, _, -, run⟩ := Query.exists_of_outcome_bind run
        exact exists_of_mkDictionary run
    obtain ⟨keys, memory, rfl, listed⟩ := made
    exact ⟨keys, _, rfl, fun own below same ↦ absurd ⟨own, below, same⟩ keyed,
      fun _ ↦ ⟨⟨memory, rfl⟩, listed⟩⟩

end Block

/-! ### In reachable worlds -/

/-- A selection is made, and held from then on. All that is loaded stays as it was, and no loader is
called. -/
def World.Selects (w : World) (b : Block) (positions : List Nat) (offset length : Nat)
    (keys : Keys) (entries : Block) : Prop :=
  ∃ ledger, w.after (.select b positions offset length) =
    ⟨{ w.store with ledger := ledger }, .dictionary keys entries :: w.blocks⟩

/-- Whatever is selected, nothing is loaded and no loader is called. -/
theorem World.loads_after_select (w : World) (b : Block) (positions : List Nat)
    (offset length : Nat) :
    (w.after (.select b positions offset length)).store.loads = w.store.loads := by
  rcases run : (b.select positions offset length).outcome w.store.loads w.store.ledger with
    ⟨fault | r, ledger⟩
  · have failed : (Call.select b positions offset length).run.outcome w.store =
        (.error fault, { w.store with ledger := ledger }) :=
      Session.outcome_bind_of_error (Session.outcome_query run)
    rw [World.after, failed]
  · have made : (Call.select b positions offset length).run.outcome w.store =
        (.ok [r], { w.store with ledger := ledger }) :=
      Session.outcome_one (Session.outcome_query run)
    rw [World.after_of_outcome made]

/-- Positions that are there can be selected, whatever is loaded or remembered. -/
theorem Reachable.exists_selects {w : World} (reachable : Reachable w) (held : b ∈ w.blocks)
    (small : ∀ keys entries, b = .dictionary keys entries → entries.Small w.store.loads)
    (fits : offset + length ≤ positions.length)
    (inside : ∀ position ∈ stretch positions offset length, position < b.positionCount) :
    ∃ keys entries, w.Selects b positions offset length keys entries ∧
      (Block.dictionary keys entries).Shows b (stretch positions offset length) ∧
        b.Refers keys entries (stretch positions offset length) := by
  obtain ⟨K, sound, known⟩ := reachable.sound
  obtain ⟨_, L, _, _, ends⟩ := Block.select_meets (K := K.selecting) trivial (known b held)
    positions offset length w.store.ledger sound.selecting
  rcases run : (b.select positions offset length).outcome w.store.loads w.store.ledger with
    ⟨fault | r, ledger⟩
  all_goals rw [run] at ends
  · exact absurd ⟨fits, inside⟩ (ends small).2
  · obtain ⟨selected, -⟩ := ends
    obtain ⟨keys, entries, rfl, refers⟩ := selected.exists_refers run
    have made : (Call.select b positions offset length).run.outcome w.store =
        (.ok [.dictionary keys entries], { w.store with ledger := ledger }) :=
      Session.outcome_one (Session.outcome_query run)
    exact ⟨keys, entries, ⟨ledger, World.after_of_outcome made⟩, selected.shows, refers⟩

/-- Each position of the one block reads as the position of the other one that is listed there,
there and then or anywhere else. -/
structure Block.ReadsListed (r b : Block) (positions : List Nat) : Prop where
  /-- Whether it is null. -/
  isNull : ∀ (i position : Nat) null other, positions[i]? = some position →
    r.MayAnswer (r.isNull i) null → b.MayAnswer (b.isNull position) other → null = other
  /-- Its value. -/
  value : ∀ (i position : Nat) value other, positions[i]? = some position →
    r.MayAnswer (r.value i) value → b.MayAnswer (b.value position) other → value = other

/-- What shows positions of a block reads as the block does there. -/
theorem Block.Shows.readsListed (shows : r.Shows b positions) : r.ReadsListed b positions := by
  have same : ∀ (i position : Nat), positions[i]? = some position →
      ∀ datum, r.datum? i = some datum → b.datum? position = some datum := by
    intro i position listed datum found
    rwa [shows.datum, listed] at found
  exact ⟨fun i position _ _ listed may may' ↦ may.eq_of_datum (same i position listed) may'
      (fun _ mem ↦ isNull_reads mem i) fun _ mem ↦ isNull_reads mem _,
    fun i position _ _ listed may may' ↦ may.eq_of_datum (same i position listed) may'
      (fun _ mem ↦ value_reads mem i) fun _ mem ↦ value_reads mem _⟩

/-- What a selection comes to that is made in a world. -/
structure World.SelectsAs (w : World) (b : Block) (positions : List Nat) (offset length : Nat)
    (shown : List Datum) (keys : Keys) (entries : Block) : Prop where
  /-- It is made, and loads nothing. -/
  selects : w.Selects b positions offset length keys entries
  /-- It has as many positions as are selected. -/
  count : keys.count = length
  /-- It refers to the block. -/
  refers : b.Refers keys entries (stretch positions offset length)
  /-- It reads as the block does at the positions. -/
  reads : (Block.dictionary keys entries).ReadsListed b (stretch positions offset length)
  /-- It presents the data there, if all promises are kept. -/
  presents : b.Loadable → (Block.dictionary keys entries).Presents shown
  /-- A gather of the positions that answers, now or later, reads as it does. -/
  gathers : ∀ later, Reachable later → b ∈ later.blocks → ∀ c ledger,
    (b.copyPositions positions offset length).outcome later.store.loads later.store.ledger =
        (.ok c, ledger) →
      c.positionCount = length ∧ c.ReadsFrom (.dictionary keys entries) 0 ∧
        (b.Loadable → c.Presents shown)
  /-- Positions of it can be selected, now or later. What is selected picks among its keys, over the
  same entries. -/
  again : ∀ later, Reachable later → .dictionary keys entries ∈ later.blocks →
    ∀ again o l, o + l ≤ again.length → (∀ position ∈ stretch again o l, position < length) →
      ∃ picked, later.Selects (.dictionary keys entries) again o l picked entries ∧
        picked.Picks keys (stretch again o l)

/-- The data at some positions of a block, if it holds any. -/
theorem Reachable.exists_shown {w : World} (reachable : Reachable w) (held : b ∈ w.blocks)
    (inside : ∀ position ∈ positions, position < b.positionCount) :
    ∃ shown : List Datum, b.Loadable → shown.length = positions.length ∧
      ∃ data : List Datum, b.positionCount = data.length ∧ (∀ i, b.datum? i = data[i]?) ∧
        ∀ i : Nat, shown[i]? = positions[i]?.bind (data[·]?) := by
  by_cases kept : b.Loadable
  · obtain ⟨data, count, datum⟩ := reachable.exists_data held kept
    obtain ⟨shown, size, each⟩ := exists_getElem?_eq_bind fun position mem ↦
      (⟨_, List.getElem?_eq_getElem (count ▸ inside position mem)⟩ :
        ∃ d, data[position]? = some d)
    exact ⟨shown, fun _ ↦ ⟨size, data, count, datum, each⟩⟩
  · exact ⟨[], fun other ↦ absurd other kept⟩

/-- **Selections compose.** In every reachable world, positions of a block that it holds can be
selected. The selection reads as the block does there, as a gather does that answers; and a
selection of the selection picks among its keys, over the same entries. No selection loads. -/
theorem Reachable.selections_compose {w : World} (reachable : Reachable w)
    (held : b ∈ w.blocks) (small : b.Small w.store.loads)
    (fits : offset + length ≤ positions.length)
    (inside : ∀ position ∈ stretch positions offset length, position < b.positionCount) :
    ∃ shown : List Datum,
      (b.Loadable → shown.length = length ∧ ∃ data, b.Presents data ∧
        ∀ i < length, shown[i]? = positions[offset + i]?.bind (data[·]?)) ∧
      (∃ keys entries, w.SelectsAs b positions offset length shown keys entries) ∧
      ∀ other o l, (w.after (.select b other o l)).store.loads = w.store.loads := by
  have all := length_stretch fits
  obtain ⟨shown, known⟩ := reachable.exists_shown held inside
  obtain ⟨keys, entries, selects, shows, refers⟩ := reachable.exists_selects held
    (fun _ _ same ↦ (same ▸ small).entries) fits inside
  have presents : ∀ c : Block, c.Shows b (stretch positions offset length) → b.Loadable →
      c.Presents shown := by
    intro c shows kept
    obtain ⟨size, data, -, datum, each⟩ := known kept
    exact shows.presents kept datum size each
  refine ⟨shown, fun kept ↦ ?_, ⟨keys, entries, selects, shows.count.trans all, refers,
    shows.readsListed, presents _ shows, fun later reached there c ledger run ↦ ?_,
    fun later reached there again o l room low ↦ ?_⟩, w.loads_after_select b⟩
  · obtain ⟨size, data, count, datum, each⟩ := known kept
    refine ⟨size.trans all, data, Block.presents_of_datum kept count datum, fun i room ↦ ?_⟩
    rw [each, getElem?_stretch, if_pos room]
  · obtain ⟨K, sound, known⟩ := reached.sound
    obtain ⟨_, L, _, _, ends⟩ :=
      Block.copyPositions_meets (known b there) positions offset length later.store.ledger sound
    rw [run] at ends
    refine ⟨ends.shows.count.trans all, Block.readsFrom_of_datum fun i datum found ↦ ?_,
      presents c ends.shows⟩
    rwa [Nat.zero_add, shows.datum, ← ends.shows.datum]
  · have few : entries.Small later.store.loads := by
      obtain ⟨K, sound, known⟩ := reached.sound
      exact sound.small (sound.entries_mem (known _ there)) (refers.small small.of_loads)
    have below : ∀ position ∈ stretch again o l, position < keys.count :=
      fun position listed ↦ (low position listed).trans_eq (shows.count.trans all).symm
    obtain ⟨picked, others, selects, -, referred⟩ :=
      reached.exists_selects there (by rintro _ _ ⟨⟩; exact few) room below
    obtain ⟨rfl, picks⟩ := referred.picks keys entries rfl
    exact ⟨picked, selects, picks⟩

/-- Positions of the promise are selected, and then positions of the selection. The promise is not
loaded, and is referred to as it is. -/
theorem World.selections_compose_deferred : ∃ keys picked later,
    deferred.Selects deferredBlock [2, 0, 2] 0 3 keys deferredBlock ∧ Reachable later ∧
      later.Selects (.dictionary keys deferredBlock) [1, 2, 1, 0] 1 2 picked deferredBlock ∧
      picked.handle = keys.handle ∧ picked.source = keys.source ∧ picked.toList = [2, 0] := by
  have held : deferredBlock ∈ deferred.blocks := by simp [blocks_deferred]
  obtain ⟨shown, -, ⟨keys, entries, selected⟩, -⟩ := reachable_deferred.selections_compose held
    (small_deferredBlock rfl) (show 0 + 3 ≤ [2, 0, 2].length by decide) (by decide)
  obtain ⟨⟨memory, rfl⟩, listed⟩ := selected.refers.wraps nofun
  have ⟨ledger, made⟩ := selected.selects
  have reached : Reachable (deferred.after (.select deferredBlock [2, 0, 2] 0 3)) :=
    reachable_deferred.after (fun _ mem ↦ List.mem_singleton.1 mem ▸ held) trivial
  have there : .dictionary keys (deferredBlock.withMemory memory) ∈
      (deferred.after (.select deferredBlock [2, 0, 2] 0 3)).blocks := by
    rw [made]
    exact List.mem_cons_self
  obtain ⟨picked, second, picks⟩ := selected.again _ reached there [1, 2, 1, 0] 1 2 (by decide)
    (by decide)
  refine ⟨keys, picked, _, selected.selects, reached, second, picks.handle, picks.source, ?_⟩
  refine List.ext_getElem? fun i ↦ ?_
  rw [picks.ids, listed]
  rcases i with - | - | - | i <;> rfl

end BatchColumn
