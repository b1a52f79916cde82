import BatchColumn.Proofs.Agreement
import BatchColumn.Proofs.Refusals

/-!
# Which regions are copied, and which positions are gathered

A copy of a region loads what stands in front of a block, but a copy of keys may have to gather
entries, and gathering does not load. So there are regions that are not copied: what is in the way
is always a dictionary block over entries that cannot be gathered (`Sound.exists_unable_of_copy`).
For keys whose copy is more than a copy of entries, it is told exactly when this happens: when the
entries are to be gathered, for being nested or for keys that are known to be distinct, and cannot
be (`Sound.copy_eq_ok_iff`). All of this is about copies that do not panic, for which it is enough
that what is gathered fits together.

What is known can only grow, and asking is enough to know it. Over entries that are not loaded, the
statistics of distinct keys that do not grow take copies away (`Reachable.not_copy_of_stats`).

With gathers there are no such surprises. Good positions are gathered just if the block says that
they can be, whichever way the gather takes (`Reachable.gather_available`): none of its shortcuts
looks at less of what is loaded than the answer does.
-/

namespace BatchColumn

variable {K : Census}

/-! ### Which way a copy takes -/

namespace Keys

/-- Statistics that were asked for are remembered. -/
theorem isSome_of_stats {keys : Keys} {entries : Block} {loads : Loads} {ledger after : Ledger}
    {stats : Stats}
    (run : (keys.stats entries).outcome loads ledger = (.ok stats, after)) :
    (after.stats.get? keys.memory).isSome := by
  obtain ⟨_, _, ⟨⟩, run⟩ := Query.exists_of_outcome_bind run
  split at run
  next known found =>
    obtain ⟨⟩ := run
    exact Option.isSome_iff_exists.2 ⟨_, found⟩
  next =>
    obtain ⟨_, middle, -, run⟩ := Query.exists_of_outcome_bind run
    obtain ⟨⟩ := run
    change ((middle.stats.publish keys.memory stats).get? keys.memory).isSome
    rw [Slots.get?_publish, if_pos rfl]
    rfl

/-- It is remembered that the keys count up through all entries. -/
def Counts (store : Store) (keys : Keys) (entries : Block) : Prop :=
  ∃ stats, store.ledger.stats.get? keys.memory = some stats ∧
    stats.unique = entries.positionCount ∧ stats.sequential = true

/-- Copies of keys gather entries that are nested, and entries of keys that are remembered to be
distinct. -/
def Gathers (store : Store) (keys : Keys) (entries : Block) : Prop :=
  entries.isNested store.loads = true ∨
    ∃ stats, store.ledger.stats.get? keys.memory = some stats ∧ stats.unique = keys.count

variable {store : Store} {keys : Keys} {entries : Block} {offset length : Nat}
  (fits : offset + length ≤ keys.count) (many : 2 ≤ length) (other : ¬ keys.Counts store entries)

include fits many other

/-- A copy of more than one position, through keys that do not count, gathers or compacts. -/
theorem outcome_copy : ((Block.dictionary keys entries).copy offset length).outcome store =
    (if entries.isNested store.loads ||
        (store.ledger.stats.get? keys.memory).any (·.unique == keys.count) then
      liftM (entries.gather (stretch keys.toList offset length))
    else liftM (Block.compactCopy keys entries offset length) : Session Block).outcome store := by
  refine Block.outcome_copy_dictionary fits (by omega) ?_
  simpa [show length ≠ 1 by omega, Counts, Option.any_eq_true] using other

theorem outcome_copy_of_gathers (gathers : keys.Gathers store entries) :
    ((Block.dictionary keys entries).copy offset length).outcome store =
      (liftM (entries.gather (stretch keys.toList offset length)) :
        Session Block).outcome store := by
  rw [outcome_copy fits many other, if_pos]
  simpa [Gathers, Option.any_eq_true] using gathers

theorem outcome_copy_of_not_gathers (compacts : ¬ keys.Gathers store entries) :
    ((Block.dictionary keys entries).copy offset length).outcome store =
      (liftM (Block.compactCopy keys entries offset length) : Session Block).outcome store := by
  rw [outcome_copy fits many other, if_neg]
  simpa [Gathers, Option.any_eq_true] using compacts

end Keys

namespace Sound

variable {store : Store} (sound : Sound K store.loads store.ledger)

include sound

/-- **What is in the way of a copy** that does not panic is a dictionary block over entries that
cannot be gathered. -/
theorem exists_unable_of_copy {b : Block} (mem : b ∈ K) (kept : b.Loadable)
    (small : b.Small .empty) {offset length : Nat} (fits : offset + length ≤ b.positionCount)
    {fault : Fault} (failed : ((b.copy offset length).outcome store).1 = .error fault)
    (calm : fault ≠ .panic) :
    fault.isUnsupported = true ∧ ∃ keys entries,
      Block.Part .empty (.dictionary keys entries) b ∧
        entries.supportsGather store.loads = false := by
  have known : Sound (K.recognise {c | c.supportsGather store.loads = true}) store.loads
      store.ledger := sound.recognise fun _ ↦ id
  obtain ⟨_, _, _, ends⟩ :=
    Block.copy_meets (Census.mem_of_le (K.le_recognise _) mem) offset length store known
  rw [failed] at ends
  rcases ends kept small with rejects | ⟨-, ⟨unsupported, outside⟩ | panics⟩
  · exact absurd fits rejects.2
  · simp only [Block.EntriesIn, not_forall] at outside
    obtain ⟨keys, entries, part, unknown⟩ := outside
    exact ⟨unsupported, keys, entries, part, by simpa using fun able ↦ unknown (.inr able)⟩
  · exact absurd panics calm

section Dictionary

variable {keys : Keys} {entries : Block} (mem : .dictionary keys entries ∈ K) {offset length : Nat}
  (fits : offset + length ≤ keys.count) (many : 2 ≤ length) (other : ¬ keys.Counts store entries)

include mem fits many other

/-- A copy that gathers fails just if the entries cannot be gathered, or do not fit together. -/
theorem ends_copy_of_gathers (gathers : keys.Gathers store entries) :
    Ends (((Block.dictionary keys entries).copy offset length).outcome store).1
      (fun _ ↦ entries.supportsGather store.loads = true)
      (fun fault ↦ fault.isUnsupported = true ∧ entries.supportsGather store.loads = false ∨
        fault = .panic ∧ ¬ entries.Fits store.loads (stretch keys.toList offset length)) := by
  have good : ∀ id ∈ stretch keys.toList offset length, id < entries.positionCount :=
    fun id listed ↦ sound.formed _ mem id (mem_of_mem_stretch listed)
  obtain ⟨-, _, _, _, ends⟩ := Block.gather_meets (sound.entries_mem mem)
    (stretch keys.toList offset length) store.ledger sound
  rw [Keys.outcome_copy_of_gathers fits many other gathers]
  exact ends.mono (fun _ gathered ↦ gathered.able) fun _ refused ↦ refused.unable_or good

/-- **Keys that do not count are copied just if the entries that are to be gathered can be**, unless
the copy panics. -/
theorem copy_eq_ok_iff (small : (Block.dictionary keys entries).Small .empty)
    (calm : (((Block.dictionary keys entries).copy offset length).outcome store).1 ≠
      .error .panic) :
    (∃ c, (((Block.dictionary keys entries).copy offset length).outcome store).1 = .ok c) ↔
      (keys.Gathers store entries → entries.supportsGather store.loads = true) := by
  by_cases gathers : keys.Gathers store entries
  · have ends := sound.ends_copy_of_gathers mem fits many other gathers
    rcases run : (((Block.dictionary keys entries).copy offset length).outcome store).1 with
      fault | c
    all_goals rw [run] at ends calm
    · have unable := ends.resolve_right fun panics ↦ calm (congrArg _ panics.1)
      exact iff_of_false (by rintro ⟨_, ⟨⟩⟩) fun able ↦ absurd
        ((able gathers).symm.trans unable.2) (by decide)
    · exact iff_of_true ⟨c, rfl⟩ fun _ ↦ ends
  · have flat : entries.isNested store.loads = false :=
      Bool.eq_false_iff.2 fun nested ↦ gathers (.inl nested)
    obtain ⟨-, _, _, _, ends⟩ := Block.compactCopy_meets mem flat fits store.ledger sound
    refine iff_of_true ?_ fun wanted ↦ absurd wanted gathers
    rw [Keys.outcome_copy_of_not_gathers fits many other gathers] at calm ⊢
    rcases run : (Block.compactCopy keys entries offset length).outcome store.loads
      store.ledger with ⟨fault | c, ledger⟩
    all_goals
      rw [run] at ends
      rw [Session.outcome_query run] at calm ⊢
    · exact absurd (congrArg _ (ends small).1) calm
    · exact ⟨c, rfl⟩

end Dictionary

end Sound

/-! ### In reachable worlds -/

/-- **A region of a small block is copied unless there are entries in the way that cannot be
gathered**, if what is gathered fits together, as it is loaded in the end. For keys that do not
count, and more than one of them, it is told exactly when. -/
theorem Reachable.copy_available {w : World} (reachable : Reachable w) {b : Block}
    (held : b ∈ w.blocks) (kept : b.Loadable) (small : b.Small w.store.loads) {offset length : Nat}
    (fits : offset + length ≤ b.positionCount)
    (gathered : b.Fits ((b.copy offset length).outcome w.store).2.loads
      (List.range' offset length)) :
    ((∃ c, ((b.copy offset length).outcome w.store).1 = .ok c) ∨
      (∃ cause, ((b.copy offset length).outcome w.store).1 = .error (.error cause) ∧
        cause.isUnsupported = true) ∧
      ∃ keys entries, Block.Part .empty (.dictionary keys entries) b ∧
        entries.supportsGather w.store.loads = false) ∧
    ∀ keys entries, b = .dictionary keys entries → 2 ≤ length → ¬ keys.Counts w.store entries →
      ((∃ c, ((b.copy offset length).outcome w.store).1 = .ok c) ↔
        (keys.Gathers w.store entries → entries.supportsGather w.store.loads = true)) := by
  obtain ⟨K, sound, known⟩ := reachable.sound
  have mem := known b held
  have calm := Block.copy_ne_panic mem sound kept small.of_loads fits gathered
  refine ⟨?_, fun keys entries same many other ↦ ?_⟩
  · rcases run : ((b.copy offset length).outcome w.store).1 with fault | c
    · obtain ⟨unsupported, unable⟩ :=
        sound.exists_unable_of_copy mem kept small.of_loads fits run
          fun panics ↦ calm (run.trans (congrArg _ panics))
      obtain ⟨cause, rfl, unsupported⟩ := Fault.exists_of_isUnsupported unsupported
      exact .inr ⟨⟨cause, rfl, unsupported⟩, unable⟩
    · exact .inl ⟨c, rfl⟩
  · subst same
    exact sound.copy_eq_ok_iff mem fits many other small.of_loads calm

/-- The keys of the sample are copied. -/
theorem World.copy_available_sample :
    ∃ c, (((Block.dictionary sampleKeys sampleEntries).copy 0 3).outcome
      sample.store).1 = .ok c := by
  have small : (Block.dictionary sampleKeys sampleEntries).Small sample.store.loads :=
    Block.small_dictionary (by decide) small_sampleEntries
  have uncounted : ¬ sampleKeys.Counts sample.store sampleEntries := by
    rintro ⟨_, ⟨⟩, _⟩
  have gathered : ∀ loads, (Block.dictionary sampleKeys sampleEntries).Fits loads
      (List.range' 0 3) := fun loads ↦ by simp [sampleEntries]
  have copies := (Reachable.copy_available reachable_sample List.mem_cons_self trivial small
    (show 0 + 3 ≤ 3 by decide) (gathered _)).2 sampleKeys sampleEntries rfl (by decide) uncounted
  refine copies.2 fun _ ↦ ?_
  rw [sampleEntries, Block.supportsGather, Block.face?]

/-! ### Statistics that take copies away -/

/-- **Asking is enough to lose copies.** Of distinct keys that do not grow, over entries that cannot
be gathered, no region of more than one position is copied after the statistics were asked for. If
the entries fit together, this is reported. -/
theorem Reachable.not_copy_of_stats {w : World} (reachable : Reachable w) {keys : Keys}
    {entries : Block} (held : .dictionary keys entries ∈ w.blocks)
    (small : (Block.dictionary keys entries).Small w.store.loads) (distinct : keys.toList.Nodup)
    (unordered : increasing keys.toList = false)
    (unable : entries.supportsGather w.store.loads = false) :
    ∃ stats ledger,
      (keys.stats entries).outcome w.store.loads w.store.ledger = (.ok stats, ledger) ∧
        Reachable ⟨{ w.store with ledger := ledger }, w.blocks⟩ ∧
        ∀ offset length, 2 ≤ length → offset + length ≤ keys.count →
          entries.Fits w.store.loads (stretch keys.toList offset length) → ∃ cause,
          (((Block.dictionary keys entries).copy offset length).outcome
            { w.store with ledger := ledger }).1 = .error (.error cause) ∧
              cause.isUnsupported = true := by
  obtain ⟨K, sound, known⟩ := reachable.sound
  have mem := known _ held
  obtain ⟨-, L, le, after, ends⟩ := Keys.stats_meets mem w.store.ledger sound
  rcases run : (keys.stats entries).outcome w.store.loads w.store.ledger with
    ⟨fault | stats, ledger⟩
  all_goals rw [run] at after ends
  · exact absurd small.roomy.entries ends.2
  refine ⟨stats, ledger, rfl, ?_, fun offset length many fits gathered ↦ ?_⟩
  · have asked : (Call.ask (.stats keys entries)).run.outcome w.store =
        (.ok [], { w.store with ledger := ledger }) :=
      Session.outcome_bind_of_ok (Session.outcome_bind_of_ok (Session.outcome_query run))
    have held : ∀ b ∈ (Call.ask (.stats keys entries)).operands, b ∈ w.blocks := by
      simpa [Call.operands, Question.operands] using held
    exact World.after_of_outcome asked ▸ reachable.after held trivial
  · let later : Store := { w.store with ledger := ledger }
    have sound : Sound L later.loads later.ledger := after
    obtain ⟨told, found⟩ := Option.isSome_iff_exists.1 (Keys.isSome_of_stats run)
    have there := Census.mem_of_le le mem
    have truth := sound.truthful keys entries there told found
    have gathers : keys.Gathers later entries :=
      .inr ⟨told, found, by rw [truth.unique, eraseDups_of_nodup distinct, keys.length_toList]⟩
    have uncounted : ¬ keys.Counts later entries := by
      rintro ⟨other, same, -, grows⟩
      obtain rfl : told = other := Option.some.inj (found.symm.trans same)
      simp [truth.sequential grows] at unordered
    have ends := sound.ends_copy_of_gathers there fits many uncounted gathers
    rcases copied : (((Block.dictionary keys entries).copy offset length).outcome later).1 with
      fault | c
    all_goals rw [copied] at ends
    · have refused := ends.resolve_right fun panics ↦ panics.2 gathered
      obtain ⟨cause, rfl, unsupported⟩ := Fault.exists_of_isUnsupported refused.1
      exact ⟨cause, rfl, unsupported⟩
    · exact absurd (unable.symm.trans ends) (by decide)

namespace World

/-- The promise of the referred integers is not loaded. -/
theorem unloaded_referred : deferredBlock.face? referred.store.loads = none := by
  rw [deferredBlock, Block.face?]
  rfl

/-- Nothing is gathered through the keys as long as the promise is not loaded. -/
theorem fits_referred (positions : List Nat) :
    (Block.dictionary deferredKeys deferredBlock).Fits referred.store.loads positions :=
  Block.fits_dictionary.2 ⟨fun _ ↦ Block.fits_of_unloaded unloaded_referred,
    fun _ ↦ Block.fits_of_unloaded unloaded_referred⟩

/-- **A block that is copied is not copied any more once it was asked for its statistics**, though
it is small and its promises will be kept. -/
theorem not_copy_referred :
    (∃ c, (((Block.dictionary deferredKeys deferredBlock).copy 0 3).outcome
      referred.store).1 = .ok c) ∧
    ∃ later, Reachable ⟨later, referred.blocks⟩ ∧
      .dictionary deferredKeys deferredBlock ∈ referred.blocks ∧
      (Block.dictionary deferredKeys deferredBlock).Loadable ∧
      (Block.dictionary deferredKeys deferredBlock).Small later.loads ∧
      ∃ cause, (((Block.dictionary deferredKeys deferredBlock).copy 0 3).outcome later).1 =
        .error (.error cause) ∧ cause.isUnsupported = true := by
  have held : .dictionary deferredKeys deferredBlock ∈ referred.blocks := by
    simp [blocks_referred]
  constructor
  · obtain ⟨K, sound, known⟩ := reachable_referred.sound
    have mem := known _ held
    have fits : 0 + 3 ≤ deferredKeys.count := by decide
    have uncounted : ¬ deferredKeys.Counts referred.store deferredBlock := by
      rintro ⟨_, ⟨⟩, _⟩
    -- The entries are not nested, and nothing is remembered yet.
    have compacts : ¬ deferredKeys.Gathers referred.store deferredBlock := by
      rintro (nested | ⟨_, ⟨⟩, _⟩)
      rw [Block.isNested, Block.resolved?, unloaded_referred] at nested
      cases nested
    have calm := Block.copy_ne_panic mem sound loadable_deferredBlock small_referred.of_loads fits
      (by
        rw [Keys.outcome_copy_of_not_gathers fits (by decide) uncounted compacts]
        exact fits_referred _)
    exact (sound.copy_eq_ok_iff mem fits (by decide) uncounted small_referred.of_loads calm).2
      fun gathers ↦ absurd gathers compacts
  · have unable : deferredBlock.supportsGather referred.store.loads = false := by
      rw [Block.supportsGather, unloaded_referred]
    obtain ⟨stats, ledger, -, reachable, fails⟩ := Reachable.not_copy_of_stats reachable_referred
      held small_referred (by decide) (by decide) unable
    exact ⟨_, reachable, held, loadable_deferredBlock, small_referred,
      fails 0 3 (by decide) (by decide) (Block.fits_of_unloaded unloaded_referred)⟩

end World

/-! ### Gathers -/

/-- Good positions that fit together are gathered if the block says that they can be, and refused as
an operation that is not supported if it says that they cannot. -/
theorem Sound.ends_copyPositions {loads : Loads} {ledger : Ledger} (sound : Sound K loads ledger)
    {b : Block} (mem : b ∈ K) {positions : List Nat} {offset length : Nat}
    (fits : offset + length ≤ positions.length)
    (inside : ∀ position ∈ stretch positions offset length, position < b.positionCount)
    (gathered : b.Fits loads (stretch positions offset length)) :
    Ends ((b.copyPositions positions offset length).outcome loads ledger).1
      (fun _ ↦ b.supportsGather loads = true)
      (fun fault ↦ fault.isUnsupported = true ∧ b.supportsGather loads = false) := by
  obtain ⟨-, _, _, _, ends⟩ := Block.copyPositions_meets mem positions offset length ledger sound
  refine ends.mono (fun _ gathered ↦ gathered.able) fun fault refused ↦ ?_
  rcases refused with rejects | refused
  · exact absurd fits rejects.2
  · exact refused.unable inside gathered

/-- **A block that says whether it can be gathered keeps its word**, at every depth and whatever is
loaded and remembered: good positions, however many fit together, are gathered just if it says so,
and refused as an operation that is not supported otherwise. -/
theorem Reachable.gather_available {w : World} (reachable : Reachable w) {b : Block}
    (held : b ∈ w.blocks) {c : Block} (part : Block.Part w.store.loads c b) {positions : List Nat}
    {offset length : Nat} (fits : offset + length ≤ positions.length)
    (inside : ∀ position ∈ stretch positions offset length, position < c.positionCount)
    (gathered : c.Fits w.store.loads (stretch positions offset length)) :
    ((∃ d, ((c.copyPositions positions offset length).outcome w.store.loads w.store.ledger).1 =
        .ok d) ↔ c.supportsGather w.store.loads = true) ∧
      (c.supportsGather w.store.loads = false → ∃ cause,
        ((c.copyPositions positions offset length).outcome w.store.loads w.store.ledger).1 =
          .error (.error cause) ∧ cause.isUnsupported = true) := by
  obtain ⟨K, sound, known⟩ := reachable.sound
  have ends := sound.ends_copyPositions (sound.part_mem part (known b held)) fits inside gathered
  rcases run : ((c.copyPositions positions offset length).outcome w.store.loads
    w.store.ledger).1 with fault | d
  all_goals rw [run] at ends
  · obtain ⟨unsupported, unable⟩ := ends
    obtain ⟨cause, rfl, unsupported⟩ := Fault.exists_of_isUnsupported unsupported
    refine ⟨iff_of_false ?_ (by simp [unable]), fun _ ↦ ⟨cause, rfl, unsupported⟩⟩
    rintro ⟨_, ⟨⟩⟩
  · refine ⟨iff_of_true ⟨d, rfl⟩ ends, fun unable ↦ ?_⟩
    rw [show c.supportsGather w.store.loads = true from ends] at unable
    cases unable

/-- The keys of the sample are gathered, and so is no position of them. Keys to promised integers
are not. -/
theorem World.gather_available_referred :
    (∃ d, (((Block.dictionary sampleKeys sampleEntries).copyPositions [2, 1, 2] 0 3).outcome
      sample.store.loads sample.store.ledger).1 = .ok d) ∧
    (∃ d, (((Block.dictionary sampleKeys sampleEntries).copyPositions [] 0 0).outcome
      sample.store.loads sample.store.ledger).1 = .ok d) ∧
    ∃ cause, (((Block.dictionary deferredKeys deferredBlock).copyPositions [1] 0 1).outcome
      referred.store.loads referred.store.ledger).1 = .error (.error cause) ∧
        cause.isUnsupported = true := by
  have able : (Block.dictionary sampleKeys sampleEntries).supportsGather sample.store.loads =
      true := by
    simp [Block.supportsGather, Block.face?, sampleEntries]
  have unable : (Block.dictionary deferredKeys deferredBlock).supportsGather
      referred.store.loads = false := by
    rw [Block.supportsGather, Block.face?]
    show deferredBlock.supportsGather referred.store.loads = false
    rw [Block.supportsGather, unloaded_referred]
  have held : .dictionary sampleKeys sampleEntries ∈ sample.blocks := List.mem_cons_self
  have referred_held : .dictionary deferredKeys deferredBlock ∈ referred.blocks := by
    simp [blocks_referred]
  have fits : ∀ positions, (Block.dictionary sampleKeys sampleEntries).Fits sample.store.loads
      positions := fun positions ↦ by simp [sampleEntries]
  exact ⟨(reachable_sample.gather_available held .refl (by decide) (by decide) (fits _)).1.2 able,
    (reachable_sample.gather_available held .refl (by decide) (by decide) (fits _)).1.2 able,
    (reachable_referred.gather_available referred_held .refl (by decide) (by decide)
      (fits_referred _)).2 unable⟩

end BatchColumn
