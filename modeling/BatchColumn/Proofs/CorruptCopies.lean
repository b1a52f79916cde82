import BatchColumn.Proofs.Availability
import BatchColumn.Proofs.Corruption
import BatchColumn.Proofs.Retention

/-!
# Copies through ids that lead nowhere

Unchecked keys over a block that is held may have ids that are none of its positions. A copy that
covers such a key fails, and names the first of these ids. What it is refused for is the affair of
whoever notices the id, and that depends on the way that the copy takes
(`Reachable.corrupt_copies`):

* a copy of one position asks the entries for the region of one at the id, which leaves them;
* a copy of more that is compacted marks the ids, and reports that the keys are corrupted;
* a gather, whichever way it goes, hands ids on to the entries as positions, and so does a copy of
  more over entries that are a dictionary block.

So only the second reports what is wrong. By the others the caller is told of a region, or of a
position, that it has not passed (`World.not_internal_lone`).
-/

namespace BatchColumn

variable {K : Census} {loads : Loads} {ledger : Ledger} {keys : Keys} {entries : Block}

/-! ### What a block says of what lies outside it -/

namespace Sound

/-- A copy of a region that leaves a block is refused for the region. -/
theorem outcome_copy_of_not_le {store : Store} (sound : Sound K store.loads store.ledger)
    {b : Block} (mem : b ∈ K) (loaded : (b.face? store.loads).isSome) {offset length : Nat}
    (beyond : ¬ offset + length ≤ b.positionCount) :
    (b.copy offset length).outcome store =
      (.error (.error (.invalidRegion offset length b.positionCount)), store) := by
  obtain ⟨face, shown⟩ := Option.isSome_iff_exists.1 loaded
  obtain ⟨-, mirrors⟩ := sound.face mem shown
  rw [Block.copy_eq_bind, Session.outcome_bind_of_ok (Block.outcome_reveal shown)]
  rw [← mirrors.count] at beyond ⊢
  rcases face with leaf | leaf | ⟨lists, elements, below⟩ | ⟨keys, entries, below⟩
  all_goals rw [Face.toBlock, Block.copy, Block.reveal, pure_bind]
  case array =>
    have refused : lists.cut offset length = .error (.invalidRegion offset length lists.count) :=
      dif_neg beyond
    dsimp only
    rw [refused]
    rfl
  case dictionary =>
    have refused : checkRegion keys.count offset length =
      .error (.invalidRegion offset length keys.count) := if_neg beyond
    dsimp only
    rw [refused]
    rfl
  all_goals
    have refused : checkRegion leaf.count offset length =
      .error (.invalidRegion offset length leaf.count) := if_neg beyond
    dsimp only
    rw [refused]
    rfl

/-- A gather of positions that are not all in a block is refused for the first that is not. -/
theorem outcome_gather_of_find? (sound : Sound K loads ledger) {b : Block} (mem : b ∈ K)
    {positions : List Nat} {position : Nat}
    (first : positions.find? (b.positionCount ≤ ·) = some position) :
    (b.gather positions).outcome loads ledger =
      (.error (.error (.positionOutOfBounds position b.positionCount)), ledger) := by
  rw [Block.gather, Query.outcome_read_bind]
  rcases shown : b.face? loads with - | face
  · dsimp only
    rw [checkPositions_eq_error_of_find? first]
    rfl
  · obtain ⟨present, mirrors⟩ := sound.face mem shown
    rw [← mirrors.count] at first ⊢
    rcases face with leaf | leaf | ⟨lists, elements, below⟩ | ⟨keys, entries, below⟩
    all_goals dsimp only
    case array =>
      have intact : lists.Intact elements.positionCount := sound.formed _ present
      rw [Lists.filledSpans_eq_error_of_find? intact first]
      rfl
    case dictionary =>
      rw [Keys.idsAt_eq_error_of_find? first]
      rfl
    all_goals
      have refused : checkPositions positions leaf.count = _ :=
        checkPositions_eq_error_of_find? first
      rw [refused]
      rfl

end Sound

/-! ### The ways of a copy -/

namespace Keys

section Copies

variable {store : Store} {offset length id : Nat}

/-- A copy of one position through keys is a copy of one entry. -/
theorem outcome_copy_one (found : keys.toList[offset]? = some id) :
    ((Block.dictionary keys entries).copy offset 1).outcome store =
      (entries.copy id 1).outcome store := by
  have inside : offset + 1 ≤ keys.count :=
    (List.getElem?_eq_some_iff.1 found).1.trans_eq keys.length_toList
  rw [Block.copy, Block.reveal, pure_bind, Session.outcome_check_bind
    (checkRegion_eq_ok_iff.2 inside), Session.outcome_get_bind]
  dsimp only
  rw [if_neg (show ¬ 1 = 0 by decide), if_pos (show (decide (1 = 1) || _) = true by simp),
    Session.outcome_check_bind (id_eq_ok found)]

/-- Compacting copied ids reports the first that points past the entries. -/
theorem outcome_compactCopy_of_find? (sound : Sound K loads ledger)
    (flat : entries.isNested loads = false) (room : entries.positionCount < 2 ^ 63)
    (first : (stretch keys.toList offset length).find? (entries.positionCount ≤ ·) = some id) :
    ((Block.compactCopy keys entries offset length).outcome loads ledger).1 =
      .error (.error (.missingKey id)) := by
  let minted : Ledger := { ledger with minted := ledger.minted + 1 }
  let made : Ledger := { minted with next := minted.next + 2 }
  obtain ⟨copied, run, memory, ids⟩ := exists_of_ofIds_none keys.handle entries
    (stretch keys.toList offset length) ⟨.own, ledger.minted⟩ loads minted
  have blank : made.memo copied.memory = .blank := by
    rw [memory]
    exact (sound.blank (ledger.next + 1) (Nat.le_succ _)).1
  have refused : (copied.compact entries).outcome loads made =
      (.error (.error (.missingKey id)), made) := by
    rw [compact, Query.outcome_read_bind, if_neg (by simp [flat])]
    exact shrink_of_find? blank room (ids ▸ first)
  have mint : (liftM Ledger.mint : Query SourceId).outcome loads ledger =
    (.ok ⟨.own, ledger.minted⟩, minted) := rfl
  rw [Block.compactCopy, Query.outcome_bind_of_ok mint, Query.outcome_bind_of_ok run,
    Query.outcome_bind_of_error refused]

/-- **A copy through keys that covers an id that points past the entries** is refused by the first
that notices it. -/
theorem outcome_copy_of_find? (sound : Sound K store.loads store.ledger) (mem : entries ∈ K)
    (loaded : (entries.face? store.loads).isSome) (room : entries.positionCount < 2 ^ 63)
    (unknown : store.ledger.stats.get? keys.memory = none) (fits : offset + length ≤ keys.count)
    (first : (stretch keys.toList offset length).find? (entries.positionCount ≤ ·) = some id) :
    (((Block.dictionary keys entries).copy offset length).outcome store).1 =
      .error (.error (if length = 1 then .invalidRegion id 1 entries.positionCount
        else if entries.isNested store.loads then .positionOutOfBounds id entries.positionCount
        else .missingKey id)) := by
  have outside : entries.positionCount ≤ id := by simpa using List.find?_some first
  by_cases one : length = 1
  · subst one
    obtain ⟨only, there⟩ := keys.exists_getElem?_toList (show offset < keys.count from fits)
    have alone : stretch keys.toList offset 1 = [only] := stretch_succ there 0
    have listed := List.mem_of_find?_eq_some first
    rw [alone, List.mem_singleton] at listed
    subst listed
    rw [if_pos rfl, outcome_copy_one there, sound.outcome_copy_of_not_le mem loaded (by omega)]
  · have many : 2 ≤ length := by
      have filled : length ≠ 0 := by
        rintro rfl
        simp [stretch] at first
      omega
    have uncounted : ¬ keys.Counts store entries := by
      rintro ⟨_, found, -⟩
      rw [unknown] at found
      cases found
    rw [if_neg one]
    split
    next nested =>
      rw [outcome_copy_of_gathers fits many uncounted (.inl nested),
        Session.outcome_query (sound.outcome_gather_of_find? mem first)]
    next flat =>
      have compacts : ¬ keys.Gathers store entries := by
        rintro (nested | ⟨_, found, -⟩)
        · exact flat nested
        · rw [unknown] at found
          cases found
      rw [outcome_copy_of_not_gathers fits many uncounted compacts, Session.outcome_query rfl]
      exact outcome_compactCopy_of_find? sound (Bool.eq_false_iff.2 flat) room first

end Copies

/-- **A gather through keys that covers an id that points past the entries** is refused for the
first of these ids, whichever way it goes. -/
theorem outcome_copyPositions_of_find? (sound : Sound K loads ledger) (mem : entries ∈ K)
    {positions : List Nat} {offset length id : Nat} (fits : offset + length ≤ positions.length)
    (inside : ∀ position ∈ stretch positions offset length, position < keys.count)
    (first : ((stretch positions offset length).filterMap (keys.toList[·]?)).find?
      (entries.positionCount ≤ ·) = some id) :
    ((Block.dictionary keys entries).copyPositions positions offset length).outcome loads ledger =
      (.error (.error (.positionOutOfBounds id entries.positionCount)), ledger) := by
  rw [Block.copyPositions, Query.outcome_check_bind (checkStretch_eq_ok_iff.2 fits), Block.gather,
    Query.outcome_read_bind, Block.face?]
  dsimp only
  rw [Query.outcome_check_bind (idsAt_eq_filterMap inside), Query.outcome_ledger_bind,
    Query.outcome_read_bind]
  split
  next => exact sound.outcome_gather_of_find? mem first
  next =>
    -- The first of the distinct ids that points past the entries is the first of all.
    exact Query.outcome_bind_of_error
      (sound.outcome_gather_of_find? mem ((find?_eraseDups _ _).trans first))

end Keys

/-! ### In reachable worlds -/

/-- **Which error a corrupted copy ends with.** Unchecked keys to a block that is held and loaded
are copied, and positions of them gathered. If an id that points past the entries is covered, the
call fails, and the error names the first such id. A copy of one position complains of a region, a
gather of a position. Only a copy of more than one position over entries that are no dictionary
block reports the corruption. -/
theorem Reachable.corrupt_copies {w : World} (reachable : Reachable w)
    (piles : w.Piles ledger (.dictionary keys entries)) (held : entries ∈ w.blocks)
    (loaded : (entries.face? w.store.loads).isSome) (room : entries.positionCount < 2 ^ 63) :
    (∀ offset length id, offset + length ≤ keys.count →
      (stretch keys.toList offset length).find? (entries.positionCount ≤ ·) = some id →
        (((Block.dictionary keys entries).copy offset length).outcome
            { w.store with ledger := ledger }).1 =
          .error (.error (if length = 1 then .invalidRegion id 1 entries.positionCount
            else if entries.isNested w.store.loads then
              .positionOutOfBounds id entries.positionCount
            else .missingKey id))) ∧
      ∀ positions offset length id, offset + length ≤ positions.length →
        (∀ position ∈ stretch positions offset length, position < keys.count) →
        ((stretch positions offset length).filterMap (keys.toList[·]?)).find?
          (entries.positionCount ≤ ·) = some id →
        (((Block.dictionary keys entries).copyPositions positions offset length).outcome
            w.store.loads ledger).1 =
          .error (.error (.positionOutOfBounds id entries.positionCount)) := by
  obtain ⟨K, -, known, sound, raw⟩ := reachable.raw_of_piles piles
  have mem := known entries held
  constructor
  · intro offset length id fits first
    have unknown : ledger.stats.get? keys.memory = none := by
      cases raw with
      | held whole =>
        -- Keys that are held have no such id.
        have listed := mem_of_mem_stretch (List.mem_of_find?_eq_some first)
        have outside : entries.positionCount ≤ id := by simpa using List.find?_some first
        exact absurd (sound.formed _ whole id listed) outside.not_gt
      | keys unseen _ => exact Ledger.blank_stats unseen.blank
    exact Keys.outcome_copy_of_find? sound mem loaded room unknown fits first
  · intro positions offset length id fits inside first
    rw [Keys.outcome_copyPositions_of_find? sound mem fits inside first]

namespace World

/-- A single integer. -/
def loneEntries : Block := .ints ⟨.long, .ofList 0 [7], .none⟩

/-- The world that holds the integer. -/
def lone : World := empty.after (.ints .long [7] none)

theorem blocks_lone : lone.blocks = [loneEntries] := rfl

theorem reachable_lone : Reachable lone :=
  .after .empty (by rintro _ ⟨⟩) trivial

/-- Two keys to the integer, the first of them to none. -/
def loneKeys : Keys := ⟨0, 2, .ofList 3 [1, 0], ⟨.own, 0⟩, 2, 4, by decide⟩

/-- The ledger that the keys were made on. -/
def loneLedger : Ledger := { lone.store.ledger with next := 5, minted := 1 }

theorem piles_loneKeys : lone.Piles loneLedger (.dictionary loneKeys loneEntries) := by
  have entries : lone.Piles lone.store.ledger loneEntries := .held (by simp [blocks_lone])
  exact entries.mint.fresh.fresh.make (show 3 < 4 by decide)
    (Keys.outcome_make_none loneKeys.fits 2 _ ⟨.own, 0⟩ _ _)

/-- The two keys are copied, each way that there is. -/
theorem corrupt_copies_lone :
    (((Block.dictionary loneKeys loneEntries).copy 0 1).outcome
        { lone.store with ledger := loneLedger }).1 = .error (.error (.invalidRegion 1 1 1)) ∧
      (((Block.dictionary loneKeys loneEntries).copy 0 2).outcome
        { lone.store with ledger := loneLedger }).1 = .error (.error (.missingKey 1)) ∧
      (((Block.dictionary loneKeys loneEntries).copyPositions [0, 1] 0 2).outcome
        lone.store.loads loneLedger).1 = .error (.error (.positionOutOfBounds 1 1)) := by
  have loaded : (loneEntries.face? lone.store.loads).isSome := by
    rw [loneEntries, Block.face?]
    rfl
  have flat : loneEntries.isNested lone.store.loads = false := Block.isNested_ints _ _
  obtain ⟨copies, gathers⟩ := reachable_lone.corrupt_copies piles_loneKeys
    (by simp [blocks_lone]) loaded (by decide)
  refine ⟨copies 0 1 1 (by decide) rfl, ?_, gathers [0, 1] 0 2 1 (by decide) (by decide) rfl⟩
  have many := copies 0 2 1 (by decide) rfl
  rw [if_neg (by decide), if_neg (by simp [flat])] at many
  exact many

/-- **Corruption is told as a mistake of the caller.** A valid region of one key and a valid
selection of keys cover an id that is no position of the integer, and both calls are refused for
bounds. -/
theorem not_internal_lone : Reachable lone ∧ loneEntries ∈ lone.blocks ∧
    lone.Piles loneLedger (.dictionary loneKeys loneEntries) ∧
    loneEntries.isNested lone.store.loads = false ∧ loneEntries.isLoaded lone.store.loads = true ∧
    loneKeys.toList = [1, 0] ∧ loneEntries.positionCount = 1 ∧
    (∃ fault, (((Block.dictionary loneKeys loneEntries).copy 0 1).outcome
      { lone.store with ledger := loneLedger }).1 = .error fault ∧
        fault.isInternal = false ∧ fault.isBounds = true) ∧
    ∃ fault, (((Block.dictionary loneKeys loneEntries).copyPositions [0, 1] 0 2).outcome
      lone.store.loads loneLedger).1 = .error fault ∧
        fault.isInternal = false ∧ fault.isBounds = true := by
  refine ⟨reachable_lone, by simp [blocks_lone], piles_loneKeys, Block.isNested_ints _ _, ?_, rfl,
    rfl, ⟨.error (.invalidRegion 1 1 1), ?_, rfl, rfl⟩,
    ⟨.error (.positionOutOfBounds 1 1), ?_, rfl, rfl⟩⟩
  · simp [loneEntries, Block.isLoaded, Block.face?]
  · cbv
  · cbv

end World

end BatchColumn
