import BatchColumn.Proofs.Availability
import BatchColumn.Proofs.Chains
import BatchColumn.Proofs.Runs

/-!
# Unnesting, turn by turn

A chain of directly nested dictionaries is unnested in turns: each looks the ids up in the next
dictionary block and goes on with the entries of that one. `Unnesting.turn` is one of them, and
`Block.layers` lists the dictionaries that the turns come to. There are no more turns than layers
(`Unnesting.turns_eq_flattenIds`, by induction along the chain), so the loop computes what
`Block.flattenIds` does, which recurses on the depth of the block.

Compacting calls itself where it meets nested dictionaries. `Keys.compactOnce` is one activation
with all of its guards, in order, and tells how it ended. The entries of an unnested block are no
dictionary block, so the activation on it ends with an answer
(`Keys.outcome_compactOnce_of_isNested_eq_false`): one more activation is all that a chain of any
depth takes. Entries that are found to be nested only when they are about to be gathered would take
another, but a query sees the same loads throughout.
-/

namespace BatchColumn

variable {K : Census} {loads : Loads} {ledger : Ledger}

/-! ### Layers -/

namespace Block

/-- The dictionaries that lie directly over one another from a block on, the uppermost first, each
with its entries. -/
def layers (loads : Loads) (b : Block) : List (Keys × Block) :=
  match b.face? loads with
  | some (.dictionary keys entries _) => (keys, entries) :: entries.layers loads
  | _ => []
termination_by b.depth

theorem layers_of_isNested_eq_false {b : Block} (flat : b.isNested loads = false) :
    b.layers loads = [] := by
  rw [layers]
  split
  next shown => exact absurd shown (isNested_eq_false_iff.1 flat _ _ _)
  next => rfl

theorem layers_of_dictionary {b inner : Block} {keys : Keys} {below : inner.depth < b.depth}
    (shown : b.face? loads = some (.dictionary keys inner below)) :
    b.layers loads = (keys, inner) :: inner.layers loads := by
  rw [layers, shown]

/-- The last layer has the bottom of the chain for its entries. -/
theorem bottom_eq_getLast (b : Block) (keys : Keys) :
    b.bottom loads keys.handle =
      ((((keys, b) :: b.layers loads).getLast (List.cons_ne_nil _ _)).1.handle,
        (((keys, b) :: b.layers loads).getLast (List.cons_ne_nil _ _)).2) := by
  induction b using chain_induction loads generalizing keys with
  | flat b flat => simp [bottom_of_isNested_eq_false flat, layers_of_isNested_eq_false flat]
  | step b next inner below shown ih =>
    rw [bottom_of_dictionary shown, ih next]
    simp only [layers_of_dictionary shown, List.getLast_cons_cons]

end Block

/-- Where the ids of all layers lead, one after another. -/
def Keys.resolve (layers : List (Keys × Block)) (position : Nat) : Except Error Nat :=
  layers.foldlM (fun position layer => layer.1.id position) position

theorem Keys.resolve_cons (keys : Keys) (entries : Block) (layers : List (Keys × Block))
    (position : Nat) :
    resolve ((keys, entries) :: layers) position = keys.id position >>= resolve layers :=
  List.foldlM_cons

/-- A position that lands is led there by the ids of all layers. -/
theorem Block.resolve_eq_ok {b : Block} {p q : Nat} (lands : b.landing loads p = some q) :
    Keys.resolve (b.layers loads) p = .ok q := by
  induction b using chain_induction loads generalizing p with
  | flat b flat =>
    rw [landing_of_isNested_eq_false flat] at lands
    rw [layers_of_isNested_eq_false flat, Option.some.inj lands]
    rfl
  | step b keys inner below shown ih =>
    rw [landing_of_dictionary shown, Option.bind_eq_some_iff] at lands
    obtain ⟨id, found, lands⟩ := lands
    rw [layers_of_dictionary shown, Keys.resolve_cons, Keys.id_eq_ok found]
    exact ih lands

/-! ### Turns -/

/-- How far unnesting has come. -/
structure Unnesting where
  /-- The identity of the entries. -/
  handle : Nat
  /-- The entries that are referred to. -/
  entries : Block
  /-- The ids, one for each position. -/
  ids : List Nat

namespace Unnesting

/-- One turn: the ids are looked up in the dictionary block that the entries are or come to. There
is none if they are no dictionary block. -/
def turn (loads : Loads) (state : Unnesting) : Except Error (Option Unnesting) :=
  match state.entries.resolved? loads with
  | some (keys, inner) => do
    verifyState (state.ids.all (· < keys.count)) "nested_id" "index < nested.position_count"
    return some ⟨keys.handle, inner, ← keys.idsAt state.ids⟩
  | none => return none

/-- Turns until there is none, but no more than `limit`. -/
def turns (loads : Loads) : (limit : Nat) → Unnesting → Except Error Unnesting
  | 0, state => return state
  | limit + 1, state => do
    match ← state.turn loads with
    | some next => next.turns loads limit
    | none => return state

theorem turn_of_isNested_eq_false {state : Unnesting}
    (flat : state.entries.isNested loads = false) : state.turn loads = .ok none := by
  rw [Block.isNested, Option.isSome_eq_false_iff, Option.isNone_iff_eq_none] at flat
  rw [turn, flat]
  rfl

theorem turns_of_isNested_eq_false {state : Unnesting}
    (flat : state.entries.isNested loads = false) (limit : Nat) :
    state.turns loads limit = .ok state := by
  cases limit with
  | zero => rfl
  | succ limit =>
    rw [turns, turn_of_isNested_eq_false flat]
    rfl

theorem turn_of_dictionary {state : Unnesting} {keys : Keys} {inner : Block}
    {below : inner.depth < state.entries.depth}
    (shown : state.entries.face? loads = some (.dictionary keys inner below)) :
    state.turn loads = (do
      verifyState (state.ids.all (· < keys.count)) "nested_id" "index < nested.position_count"
      return some ⟨keys.handle, inner, ← keys.idsAt state.ids⟩) := by
  rw [turn, Block.resolved?, shown]

/-- **There are no more turns than layers**, and the turns do what flattening does. -/
theorem turns_eq_flattenIds {entries : Block} {limit : Nat}
    (enough : (entries.layers loads).length ≤ limit) (handle : Nat) (ids : List Nat) :
    turns loads limit ⟨handle, entries, ids⟩ =
      (fun (handle, entries, ids) ↦ ⟨handle, entries, ids⟩) <$>
        entries.flattenIds loads handle ids := by
  induction entries using Block.chain_induction loads generalizing limit handle ids with
  | flat entries flat =>
    rw [turns_of_isNested_eq_false flat, Block.flattenIds_of_isNested_eq_false flat]
    rfl
  | step entries keys inner below shown ih =>
    rw [Block.layers_of_dictionary shown, List.length_cons] at enough
    obtain ⟨limit, rfl⟩ := Nat.exists_eq_add_one_of_ne_zero (Nat.ne_zero_of_lt enough)
    have state : (⟨handle, entries, ids⟩ : Unnesting).entries.face? loads =
      some (.dictionary keys inner below) := shown
    rw [turns, turn_of_dictionary state, Block.flattenIds, shown]
    simp only [bind_assoc, map_bind, pure_bind, ih (Nat.le_of_succ_le_succ enough)]

end Unnesting

/-! ### Activations -/

namespace Query

variable {α : Type}

/-- The answer of a query, or nothing if the operation is not supported. -/
def supported? (query : Query α) : Query (Option α) := fun loads ledger =>
  match query.outcome loads ledger with
  | (Except.ok a, after) => (Except.ok (some a), after)
  | (Except.error fault, after) =>
    (if fault.isUnsupported then Except.ok none else Except.error fault, after)

theorem outcome_supported? {query : Query α} {middle : Ledger} {a : α}
    (run : query.outcome loads ledger = (.ok a, middle)) :
    query.supported?.outcome loads ledger = (.ok (some a), middle) := by
  show query.supported? loads ledger = _
  rw [supported?, run]

/-- A query that panics is not taken for one that is not supported. -/
theorem outcome_supported?_of_panic {query : Query α} {after : Ledger}
    (run : query.outcome loads ledger = (.error .panic, after)) :
    query.supported?.outcome loads ledger = (.error .panic, after) := by
  show query.supported? loads ledger = _
  rw [supported?, run]
  rfl

/-- What becomes of an answer depends on how it was come by only through the outcome. -/
theorem outcome_map_congr {β : Type} (f : α → β) {one other : Query α} {before : Ledger}
    (same : one.outcome loads ledger = other.outcome loads before) :
    (f <$> one).outcome loads ledger = (f <$> other).outcome loads before := by
  rw [map_eq_pure_bind, map_eq_pure_bind]
  rcases run : one.outcome loads ledger with ⟨fault | a, after⟩
  · rw [outcome_bind_of_error run, outcome_bind_of_error (same.symm.trans run)]
  · rw [outcome_bind_of_ok run, outcome_bind_of_ok (same.symm.trans run)]

end Query

namespace Keys

/-- How an activation of compacting ends. -/
inductive Ending where
  /-- With an answer. -/
  | done (compacted : Keys × Block)
  /-- In another activation, on unnested keys. -/
  | again (unnested : Keys × Block)
  /-- In another activation as well, for entries that are found to be nested no sooner than they are
  to be gathered. -/
  | late (unnested : Keys × Block)

/-- The second half of an activation, on keys that are not compact to entries that are not nested:
the entries that are referred to are gathered. -/
def gatherOnce (keys : Keys) (entries : Block) : Query Ending := do
  match keys.toList.find? (entries.positionCount ≤ ·) with
  | some id => throw (.error (.missingKey id))
  | none =>
    let referred := keys.toList.eraseDups
    if referred.length = entries.positionCount then
      return .done (← keys.duplicate, entries)
    else
      verifyState (keys.toList.all referred.contains) "new_id" "new_id != UNMAPPED"
      if entries.supportsGather (← read) then
        if entries.isNested (← read) then
          return .late (← keys.flatten entries)
        else
          match ← (entries.gather referred).supported? with
          | none => return .done (← keys.duplicate, entries)
          | some gathered =>
            let stats ← keys.stats entries
            verifyState (!gathered.isNested (← read)) "compact_dictionary"
              "compact_dictionary.resolved_dictionary().is_none()"
            let hints : Hints := ⟨true, stats.unique == keys.count⟩
            let compacted ← Keys.ofIds (← Ledger.fresh) gathered (renumber keys.toList)
              (← Ledger.mint) hints
            return .done (compacted, gathered)
      else return .done (← keys.duplicate, entries)

/-- One activation of compacting, up to where it ends. -/
def compactOnce (keys : Keys) (entries : Block) : Query Ending := do
  if ← keys.isCompact entries then
    return .done (← keys.duplicate, entries)
  else if entries.isNested (← read) then
    return .again (← keys.flatten entries)
  else keys.gatherOnce entries

variable {keys : Keys} {entries : Block}

/-- Statistics that were asked for are remembered, and tell how many entries are referred to. -/
theorem exists_stats_again {after later : Ledger} {stats : Stats}
    (mem : .dictionary keys entries ∈ K)
    (run : (keys.stats entries).outcome loads ledger = (.ok stats, after))
    (grows : after.Grows later) (sound : Sound K loads later) :
    ∃ again, (keys.stats entries).outcome loads later = (.ok again, later) ∧
      again.unique = keys.toList.eraseDups.length := by
  obtain ⟨known, found⟩ := Option.isSome_iff_exists.1 (isSome_of_stats run)
  have still : later.stats.get? keys.memory = some known := grows.stats _ _ found
  have answers : (keys.stats entries).outcome loads later = (.ok known, later) := by
    rw [Keys.stats, statsWith, Query.remembered, Query.outcome_ledger_bind]
    simp only [show (Ledger.statsTable.slots later).get? keys.memory = some known from still]
    rfl
  obtain ⟨-, _, _, -, told⟩ := stats_meets mem later sound
  rw [answers] at told
  exact ⟨known, answers, told.unique⟩

/-! What shrinking goes on with, once it has the statistics. -/

section Shrink

variable {stats : Stats} {middle : Ledger}
  (run : (keys.stats entries).outcome loads ledger = (.ok stats, middle))

include run

theorem outcome_shrink_of_kept
    (kept : stats.unique = entries.positionCount ∨ entries.supportsGather loads = false) :
    (Ending.done <$> keys.shrink entries).outcome loads ledger =
      Query.outcome (do return .done (← keys.duplicate, entries)) loads middle := by
  have keeps : (decide (stats.unique = entries.positionCount) ||
      !entries.supportsGather loads) = true := by simpa using kept
  simp only [shrink, map_bind]
  rw [Query.outcome_bind_of_ok run, Query.outcome_read_bind, if_pos keeps]
  simp only [map_bind, map_pure]

theorem outcome_shrink_of_part (part : stats.unique ≠ entries.positionCount)
    (able : entries.supportsGather loads = true) :
    (Ending.done <$> keys.shrink entries).outcome loads ledger = Query.outcome (do
      let gathered ← entries.gather keys.toList.eraseDups
      let compacted ← Keys.ofIds (← Ledger.fresh) gathered (renumber keys.toList) (← Ledger.mint)
        ⟨true, stats.unique == keys.count⟩
      return .done (compacted, gathered)) loads middle := by
  have shrinks : ¬ (decide (stats.unique = entries.positionCount) ||
      !entries.supportsGather loads) = true := by simp [part, able]
  simp only [shrink, map_bind]
  rw [Query.outcome_bind_of_ok run, Query.outcome_read_bind, if_neg shrinks]
  simp only [map_bind, map_pure]

/-- **The second half of an activation shrinks the keys.** No guard of it fires that shrinking does
not have: every id is a position, what supports gathering is gathered or panics, and the entries,
which were not nested when the activation began, still are not. -/
theorem outcome_gatherOnce (sound : Sound K loads middle) (mem : .dictionary keys entries ∈ K)
    (flat : entries.isNested loads = false) (told : stats.unique = keys.toList.eraseDups.length)
    (part : stats.unique ≠ entries.positionCount) :
    (keys.gatherOnce entries).outcome loads middle =
      (Ending.done <$> keys.shrink entries).outcome loads ledger := by
  have formed : keys.Intact entries.positionCount := sound.formed _ mem
  have inside : ∀ id ∈ keys.toList.eraseDups, id < entries.positionCount := fun id listed ↦
    formed id (List.mem_eraseDups.1 listed)
  have keyed : keys.toList.find? (entries.positionCount ≤ ·) = none := by
    simpa [List.find?_eq_none, Keys.Intact] using formed
  have mapped : verifyState (keys.toList.all keys.toList.eraseDups.contains)
      "new_id" "new_id != UNMAPPED" = .ok () := if_pos (by simp [List.mem_eraseDups])
  rw [gatherOnce, keyed]
  simp only [if_neg (told ▸ part)]
  rw [Query.outcome_check_bind mapped, Query.outcome_read_bind]
  by_cases able : entries.supportsGather loads = true
  · rw [if_pos able, Query.outcome_read_bind, if_neg (Bool.eq_false_iff.1 flat),
      outcome_shrink_of_part run part able]
    obtain ⟨grows, L, le, later, ends⟩ :=
      Block.gather_meets (sound.entries_mem mem) keys.toList.eraseDups middle sound
    rcases gathers : (entries.gather keys.toList.eraseDups).outcome loads middle with
      ⟨fault | gathered, after⟩
    all_goals rw [gathers] at grows later ends
    · rcases ends.unable_or inside with ⟨-, unable⟩ | ⟨rfl, -⟩
      · exact absurd able (Bool.eq_false_iff.1 unable)
      · rw [Query.outcome_bind_of_error (Query.outcome_supported?_of_panic gathers),
          Query.outcome_bind_of_error gathers]
    · obtain ⟨again, asked, same⟩ := exists_stats_again (Census.mem_of_le le mem) run grows later
      have bare : verifyState (!gathered.isNested loads) "compact_dictionary"
          "compact_dictionary.resolved_dictionary().is_none()" = .ok () :=
        if_pos (by rw [ends.flat flat]; rfl)
      rw [Query.outcome_bind_of_ok (Query.outcome_supported? gathers),
        Query.outcome_bind_of_ok asked, Query.outcome_read_bind, Query.outcome_check_bind bare,
        Query.outcome_bind_of_ok gathers, same, told]
  · rw [if_neg able, outcome_shrink_of_kept run (.inr (Bool.eq_false_iff.2 able))]

end Shrink

/-- **Over entries that are not nested, an activation ends with the answer of compacting.** -/
theorem outcome_compactOnce_of_isNested_eq_false (sound : Sound K loads ledger)
    (mem : .dictionary keys entries ∈ K) (flat : entries.isNested loads = false) :
    (keys.compactOnce entries).outcome loads ledger =
      (Ending.done <$> keys.shrink entries).outcome loads ledger := by
  rw [compactOnce, isCompact]
  simp only [bind_assoc]
  rw [Query.outcome_read_bind, if_neg (Bool.eq_false_iff.1 flat)]
  simp only [bind_assoc, pure_bind]
  obtain ⟨-, L, le, later, ends⟩ := stats_meets mem ledger sound
  rcases run : (keys.stats entries).outcome loads ledger with ⟨fault | stats, middle⟩
  all_goals rw [run] at later ends
  · simp only [shrink, map_bind]
    rw [Query.outcome_bind_of_error run, Query.outcome_bind_of_error run]
  · rw [Query.outcome_bind_of_ok run]
    by_cases whole : stats.unique = entries.positionCount
    · rw [if_pos (beq_iff_eq.2 whole), outcome_shrink_of_kept run (.inl whole)]
    · rw [if_neg (whole ∘ beq_iff_eq.1), Query.outcome_read_bind,
        if_neg (Bool.eq_false_iff.1 flat)]
      exact outcome_gatherOnce run later (Census.mem_of_le le mem) flat ends.unique whole

/-- Over entries that are nested, an activation ends in one on unnested keys. -/
theorem outcome_compactOnce_of_isNested {unnested : Keys × Block} {middle : Ledger}
    (nested : entries.isNested loads = true)
    (run : (keys.flatten entries).outcome loads ledger = (.ok unnested, middle)) :
    (keys.compactOnce entries).outcome loads ledger = (.ok (.again unnested), middle) := by
  rw [compactOnce, isCompact]
  simp only [bind_assoc]
  rw [Query.outcome_read_bind, if_pos nested]
  simp only [pure_bind, Bool.false_eq_true, if_false]
  rw [Query.outcome_read_bind, if_pos nested, Query.outcome_bind_of_ok run]
  rfl

theorem outcome_compact_of_isNested_eq_false (flat : entries.isNested loads = false) :
    (keys.compact entries).outcome loads ledger = (keys.shrink entries).outcome loads ledger := by
  rw [compact, Query.outcome_read_bind, if_neg (Bool.eq_false_iff.1 flat)]

/-- What unnested keys come to is what the keys are compacted to. -/
theorem outcome_compact_of_isNested {unnested : Keys × Block} {middle : Ledger}
    (nested : entries.isNested loads = true)
    (run : (keys.flatten entries).outcome loads ledger = (.ok unnested, middle)) :
    (keys.compact entries).outcome loads ledger =
      (unnested.1.shrink unnested.2).outcome loads middle := by
  rw [compact, Query.outcome_read_bind, if_pos nested, Query.outcome_bind_of_ok run]

end Keys

/-! ### In reachable worlds -/

section Resolving

variable {keys flat : Keys} {entries inner : Block}

/-- The loop ends where flattening does. -/
theorem Keys.Flattened.turns (sound : Sound K loads ledger) (mem : .dictionary keys entries ∈ K)
    {L : Census} (flattened : Keys.Flattened L loads keys entries (flat, inner)) {limit : Nat}
    (enough : (entries.layers loads).length ≤ limit) :
    Unnesting.turns loads limit ⟨keys.handle, entries, keys.toList⟩ =
      .ok ⟨flat.handle, inner, flat.toList⟩ := by
  obtain ⟨ids, found, -, lands, -⟩ :=
    sound.flattenIds_eq_ok (sound.entries_mem mem) keys.handle (sound.formed _ mem)
  obtain rfl : flat.toList = ids := List.ext_getElem? fun p ↦
    (flattened.lands p).trans (lands p).symm
  rw [Unnesting.turns_eq_flattenIds enough, found, ← flattened.bottom]
  rfl

/-- Flattened keys lead where all layers lead. -/
theorem Keys.Flattened.id_eq (flattened : Keys.Flattened K loads keys entries (flat, inner))
    (p : Nat) : flat.id p = Keys.resolve ((keys, entries) :: entries.layers loads) p := by
  have count : flat.count = keys.count := flattened.mirrors.count
  rw [Keys.resolve_cons]
  rcases Nat.lt_or_ge p keys.count with inside | outside
  · obtain ⟨id, found⟩ := keys.exists_getElem?_toList inside
    obtain ⟨q, lands⟩ := flat.exists_getElem?_toList (count.symm ▸ inside)
    have landing : entries.landing loads id = some q := by
      rw [← lands, flattened.lands, found, Option.bind_some]
    rw [Keys.id_eq_ok lands, Keys.id_eq_ok found]
    exact (Block.resolve_eq_ok landing).symm
  · rw [Keys.id_eq_error outside, Keys.id_eq_error (count.symm ▸ outside), count]
    rfl

end Resolving

/-- **Unnesting is total and resolves the whole chain.** It takes no more turns than there are
layers below and comes to a block that is no dictionary block, under the handle that the last layer
has for it; each id is where the ids of all layers lead. So compacting calls itself at most once,
and never for entries that are found to be nested late. -/
theorem Reachable.unnests {w : World} (reachable : Reachable w) {keys : Keys} {entries : Block}
    (held : .dictionary keys entries ∈ w.blocks) :
    ∃ (flat : Keys) (inner : Block) (middle : Ledger),
      (keys.flatten entries).outcome w.store.loads w.store.ledger = (.ok (flat, inner), middle) ∧
      (∀ limit, (entries.layers w.store.loads).length ≤ limit →
        Unnesting.turns w.store.loads limit ⟨keys.handle, entries, keys.toList⟩ =
          .ok ⟨flat.handle, inner, flat.toList⟩) ∧
      Unnesting.turn w.store.loads ⟨flat.handle, inner, flat.toList⟩ = .ok none ∧
      flat.count = keys.count ∧
      (∀ p, flat.id p = Keys.resolve ((keys, entries) :: entries.layers w.store.loads) p) ∧
      (∀ p < keys.count, ∃ q < inner.positionCount, flat.id p = .ok q) ∧
      (∀ last, last ∈ ((keys, entries) :: entries.layers w.store.loads).getLast? →
        flat.handle = last.1.handle ∧ inner = last.2) ∧
      inner.resolved? w.store.loads = none ∧
      (entries.isNested w.store.loads = false →
        (keys.compactOnce entries).outcome w.store.loads w.store.ledger =
          (Keys.Ending.done <$> keys.compact entries).outcome w.store.loads w.store.ledger) ∧
      (entries.isNested w.store.loads = true →
        (keys.compactOnce entries).outcome w.store.loads w.store.ledger =
          (.ok (.again (flat, inner)), middle) ∧
        (flat.compactOnce inner).outcome w.store.loads middle =
          (Keys.Ending.done <$> keys.compact entries).outcome w.store.loads w.store.ledger) := by
  obtain ⟨K, sound, known⟩ := reachable.sound
  have mem := known _ held
  obtain ⟨-, L, le, later, ends⟩ := Keys.flatten_meets mem w.store.ledger sound
  rcases run : (keys.flatten entries).outcome w.store.loads w.store.ledger with
    ⟨fault | ⟨flat, inner⟩, middle⟩
  all_goals rw [run] at later ends
  · exact ends.elim
  obtain ⟨flattened, -⟩ := ends
  have count : flat.count = keys.count := flattened.mirrors.count
  have bottom := sound.bottom (sound.entries_mem mem) keys.handle
  rw [← flattened.bottom] at bottom
  refine ⟨flat, inner, middle, rfl, fun limit ↦ flattened.turns sound mem,
    Unnesting.turn_of_isNested_eq_false bottom.flat, count, flattened.id_eq, fun p inside ↦ ?_,
    fun last mem ↦ ?_, ?_, fun alone ↦ ?_, fun nested ↦ ?_⟩
  · obtain ⟨q, found⟩ := flat.exists_getElem?_toList (count.symm ▸ inside)
    exact ⟨q, later.formed _ flattened.mem q (List.mem_of_getElem? found), Keys.id_eq_ok found⟩
  · have below := flattened.bottom.trans (entries.bottom_eq_getLast keys)
    rw [List.getLast?_eq_some_getLast (List.cons_ne_nil _ _), Option.mem_some_iff] at mem
    rw [mem] at below
    exact Prod.mk.inj below
  · exact Option.isNone_iff_eq_none.1 (Option.isSome_eq_false_iff.1 bottom.flat)
  · rw [Keys.outcome_compactOnce_of_isNested_eq_false sound mem alone]
    exact Query.outcome_map_congr _ (Keys.outcome_compact_of_isNested_eq_false alone).symm
  · refine ⟨Keys.outcome_compactOnce_of_isNested nested run, ?_⟩
    rw [Keys.outcome_compactOnce_of_isNested_eq_false later flattened.mem bottom.flat]
    exact Query.outcome_map_congr _ (Keys.outcome_compact_of_isNested nested run).symm

/-- The promised dictionary block is the one layer below. One turn resolves it, and the first
activation of compacting ends in the second. -/
theorem World.unnests_linked : ∃ (flat : Keys) (inner : Block) (middle : Ledger),
    (linkedKeys.flatten promisedEntries).outcome linked.store.loads linked.store.ledger =
      (.ok (flat, inner), middle) ∧
    Unnesting.turns linked.store.loads 1 ⟨7, promisedEntries, [0, 2]⟩ =
      .ok ⟨flat.handle, inner, flat.toList⟩ ∧
    flat.id 0 = .ok 1 ∧ flat.id 1 = .ok 1 ∧
    (linkedKeys.compactOnce promisedEntries).outcome linked.store.loads linked.store.ledger =
      (.ok (.again (flat, inner)), middle) := by
  have held : .dictionary linkedKeys promisedEntries ∈ linked.blocks := by
    simp [blocks_linked]
  obtain ⟨flat, inner, middle, run, turns, -, -, ids, -, -, -, -, again⟩ :=
    Reachable.unnests reachable_linked held
  have layers : promisedEntries.layers linked.store.loads =
      [({ sampleKeys with memory := 5 }, sampleEntries)] := by
    cbv
  rw [layers] at turns ids
  exact ⟨flat, inner, middle, run, turns 1 (by simp), (ids 0).trans (by cbv),
    (ids 1).trans (by cbv), (again (by cbv)).1⟩

end BatchColumn
