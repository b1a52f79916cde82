import BatchColumn.Proofs.Loading
import BatchColumn.Proofs.Regions
import BatchColumn.Proofs.Retention

/-!
# Whether a position is null

A block can be asked about nulls in three ways: for the value of a position, for its null flag, and
whether it may have nulls at all. Only the first has to load all that the value is made of; the
second stops at the layer that holds the flag, or before it, at keys whose entries have no nulls;
the third loads nothing. The three agree wherever they answer (`Reachable.nulls_agree`).

Values and flags agree because both are read off the datum of the position, and what is read for a
flag is read for a value first (`Block.exists_isNull_of_value`). The third answer is about what is
loaded now: a block that says no is loaded as far as its flags, so the flag of every position is
told without a load (`Block.outcome_isNull`). A block that is not loaded says yes, and from then on
loading can only take this back (`Block.mayHaveNull_of_grows`).
-/

namespace BatchColumn

variable {K : Census} {b : Block} {store : Store} {position : Nat}

/-- The null value is that of nulls alone. -/
theorem Datum.value_eq_null_iff (datum : Datum) : datum.value = .null ↔ datum.isNull = true := by
  cases datum with
  | int null width n => cases null <;> simp [value, isNull]
  | slice null octets => cases null <;> simp [value, isNull]
  | list null items => cases null <;> simp [isNull]

/-- Flags that are not kept mark nothing. -/
theorem Nulls.isNull_of_mayHaveNull_eq_false {nulls : Nulls} (none : nulls.mayHaveNull = false)
    (i : Nat) : nulls.isNull i = .ok false := by
  rw [mayHaveNull, Option.isSome_eq_false_iff, Option.isNone_iff_eq_none] at none
  rw [isNull, none]

namespace Block

/-! ### Flags are read before values -/

/-- **Where the value of a position is read, its flag can be read**, from the same store. -/
theorem exists_isNull_of_value {v : Value} (run : ((b.value position).outcome store).1 = .ok v) :
    ∃ null, ((b.isNull position).outcome store).1 = .ok null := by
  induction b using Block.walk generalizing store position with
  | step b ih =>
    rw [value] at run
    rw [isNull]
    rcases shown : b.reveal.outcome store with ⟨fault | face, middle⟩
    · rw [Session.outcome_bind_of_error shown] at run
      cases run
    · rw [Session.outcome_bind_of_ok shown] at run ⊢
      rcases face with leaf | leaf | ⟨lists, elements, below⟩ | ⟨keys, entries, below⟩
      · rw [Session.outcome_attempt] at run ⊢
        exact (bind_eq_ok_iff.1 run).imp fun _ ↦ And.left
      · rw [Session.outcome_attempt] at run ⊢
        exact (bind_eq_ok_iff.1 run).imp fun _ ↦ And.left
      · rw [Session.outcome_attempt]
        rcases flagged : lists.isNull position with fault | null
        · dsimp only at run
          rw [flagged] at run
          cases run
        · exact ⟨null, rfl⟩
      · dsimp only at run ⊢
        rcases listed : keys.id position with cause | id
        · rw [listed] at run
          cases run
        · rw [Session.outcome_check_bind listed] at run
          show ∃ null, ((if entries.mayHaveNull middle.loads then entries.isNull id
            else pure false : Session Bool).outcome middle).1 = .ok null
          split
          · exact ih entries below run
          · exact ⟨false, rfl⟩

/-! ### Blocks that say that they have no nulls -/

/-- **No position of a block that says so is null**, and that is told without loading. -/
theorem outcome_isNull (sound : Sound K store.loads store.ledger) (mem : b ∈ K)
    (none : b.mayHaveNull store.loads = false) (inside : position < b.positionCount) :
    (b.isNull position).outcome store = (.ok false, store) := by
  rw [mayHaveNull] at none
  rw [isNull]
  rcases shown : b.face? store.loads with - | face
  · rw [shown] at none
    cases none
  · rw [shown] at none
    rw [Session.outcome_bind_of_ok (outcome_reveal shown)]
    -- What the block comes to has the position as well.
    have inside := inside.trans_eq (sound.face mem shown).2.count.symm
    rcases face with leaf | leaf | ⟨lists, elements, below⟩ | ⟨keys, entries, below⟩
    · have room : position < leaf.count := inside
      rw [Session.outcome_attempt, Ints.isNull, checkPosition_of_lt room, lift_ok, ok_bind,
        Nulls.isNull_of_mayHaveNull_eq_false none]
    · have room : position < leaf.count := inside
      rw [Session.outcome_attempt, Slices.isNull, checkPosition_of_lt room, lift_ok, ok_bind,
        Nulls.isNull_of_mayHaveNull_eq_false none]
    · have room : position < lists.count := inside
      rw [Session.outcome_attempt, Lists.isNull, checkPosition_of_lt room, lift_ok, ok_bind,
        Nulls.isNull_of_mayHaveNull_eq_false none]
    · have room : position < keys.count := inside
      obtain ⟨id, listed⟩ := keys.exists_getElem?_toList room
      have flat : entries.mayHaveNull store.loads = false := by
        simpa [Nat.zero_lt_of_lt room] using none
      dsimp only
      rw [Session.outcome_check_bind (Keys.id_eq_ok listed)]
      show (if entries.mayHaveNull store.loads then entries.isNull id
        else pure false : Session Bool).outcome store = _
      rw [flat]
      rfl

/-- **Loading takes nulls back, and never brings any.** -/
theorem mayHaveNull_of_grows {loads later : Loads} (grows : loads.payloads.Grows later.payloads)
    (may : b.mayHaveNull later = true) : b.mayHaveNull loads = true := by
  induction b using Block.walk with
  | step b ih =>
    rw [mayHaveNull] at may ⊢
    rcases shown : b.face? loads with - | face
    · rfl
    · rw [face?_of_grows grows shown] at may
      rcases face with leaf | leaf | ⟨lists, elements, below⟩ | ⟨keys, entries, below⟩
      · exact may
      · exact may
      · exact may
      · simp only [Bool.and_eq_true] at may ⊢
        exact ⟨may.1, ih entries below may.2⟩

end Block

/-! ### In reachable worlds -/

/-- What the three questions about nulls tell of a block in a world. -/
structure Block.AgreesOnNulls (b : Block) (w : World) : Prop where
  /-- Where a value is read, the flag is, and it is set just if the value is the null value. -/
  flag : ∀ position v, ((b.value position).outcome w.store).1 = .ok v →
    ((b.isNull position).outcome w.store).1 = .ok (decide (v = .null))
  /-- A flag and a value that are read in different worlds agree as well. -/
  anywhere : ∀ position null v, b.MayAnswer (b.isNull position) null →
    b.MayAnswer (b.value position) v → (null = true ↔ v = .null)
  /-- If all promises are kept, the value of every position is read. -/
  reads : b.Loadable → ∀ position < b.positionCount,
    ∃ v, ((b.value position).outcome w.store).1 = .ok v
  /-- If there are said to be no nulls there are none, and nothing is loaded to tell. -/
  none : b.mayHaveNull w.store.loads = false → ∀ position < b.positionCount,
    (b.isNull position).outcome w.store = (.ok false, w.store)
  /-- Whatever is loaded later, there is nothing said to be null that was not before. -/
  later : ∀ allowed later, w.Leads allowed later → b.mayHaveNull later.store.loads = true →
    b.mayHaveNull w.store.loads = true

/-- **Answers about nulls agree everywhere**, in every reachable world and on every block that it
holds. -/
theorem Reachable.nulls_agree {w : World} (reachable : Reachable w) (held : b ∈ w.blocks) :
    b.AgreesOnNulls w := by
  obtain ⟨K, sound, known⟩ := reachable.sound
  have mem := known b held
  have anywhere : ∀ position null v, b.MayAnswer (b.isNull position) null →
      b.MayAnswer (b.value position) v → (null = true ↔ v = .null) := by
    intro position null v flagged valued
    obtain ⟨datum, found, flag⟩ := flagged.exists_datum fun K mem ↦ Block.isNull_reads mem position
    have value := valued.answer_eq found fun K mem ↦ Block.value_reads mem position
    rw [← Except.ok.inj flag, ← Except.ok.inj value]
    exact datum.value_eq_null_iff.symm
  refine ⟨fun position v run ↦ ?_, anywhere, fun kept position inside ↦ ?_, fun none position ↦
    Block.outcome_isNull sound mem none, fun allowed later leads ↦
      Block.mayHaveNull_of_grows (leads.grows reachable)⟩
  · obtain ⟨null, flag⟩ := Block.exists_isNull_of_value run
    have agree := anywhere position null v ⟨w, reachable, held, flag⟩ ⟨w, reachable, held, run⟩
    rw [flag, Bool.eq_iff_iff.2 (agree.trans decide_eq_true_iff.symm)]
  · obtain ⟨datum, found⟩ := sound.exists_datum mem kept inside
    exact ⟨_, (Block.value_reads mem position).outcome_eq sound kept found⟩

/-- The first key of the sample refers to a null, and is one. A leaf without nulls says so, and a
promise of it says so once it is loaded. -/
theorem World.nulls_agree_sample :
    (((Block.dictionary sampleKeys sampleEntries).isNull 0).outcome sample.store).1 = .ok true ∧
      deferredBlock.mayHaveNull deferred.store.loads = true ∧
      (deferredLeaf.isNull 2).outcome deferred.store = (.ok false, deferred.store) := by
  have null : (((Block.dictionary sampleKeys sampleEntries).value 0).outcome sample.store).1 =
      .ok .null := by
    rw [Block.value, Block.reveal, pure_bind]
    dsimp only
    rw [show sampleKeys.id 0 = .ok 1 from rfl]
    show ((sampleEntries.value 1).outcome sample.store).1 = .ok .null
    rw [sampleEntries, Block.value, Block.reveal]
    rfl
  refine ⟨(reachable_sample.nulls_agree List.mem_cons_self).flag 0 .null null, ?_, ?_⟩
  · rw [deferredBlock, Block.mayHaveNull, Block.face?]
    rfl
  · refine (reachable_deferred.nulls_agree (by simp [blocks_deferred])).none ?_ 2 (by decide)
    rw [deferredLeaf, Block.mayHaveNull, Block.face?]
    rfl

end BatchColumn
