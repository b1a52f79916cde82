import BatchColumn.Proofs.Layers

/-!
# Rejections

A fault **rejects** a condition on the arguments of a call if the condition does not hold and the
fault says so: it is one of those that a caller can correct (`Fault.Rejects`). Every check that
stands in front of an operation fails in this way and in no other. A fault **reports** damage if
there is damage and the fault says so (`Fault.Reports`).
-/

namespace BatchColumn

/-! ### Kinds of faults -/

namespace Fault

/-- The call was refused for a bad position, region or argument. -/
def isBounds : Fault → Bool
  | error cause => cause.isBounds
  | panic => false

/-- The call was refused for an operation that a block cannot perform. -/
def isUnsupported : Fault → Bool
  | error cause => cause.isUnsupported
  | panic => false

/-- The call was refused for corrupted block state. -/
def isInternal : Fault → Bool
  | error cause => cause.isInternal
  | panic => false

/-- The condition does not hold, and the fault says so. -/
def Rejects (fault : Fault) (valid : Prop) : Prop :=
  fault.isBounds = true ∧ ¬ valid

/-- There is damage, and the fault says so. -/
def Reports (fault : Fault) (damage : Prop) : Prop :=
  fault.isInternal = true ∧ damage

variable {fault : Fault} {p q : Prop}

/-- A condition that is sufficient is rejected as well. -/
theorem Rejects.mono (rejects : fault.Rejects p) (sufficient : q → p) : fault.Rejects q :=
  ⟨rejects.1, mt sufficient rejects.2⟩

theorem Reports.mono (reports : fault.Reports p) (worse : p → q) : fault.Reports q :=
  ⟨reports.1, worse reports.2⟩

end Fault

/-! ### What checks reject -/

section Checks

variable {cause : Error}

theorem rejects_of_checkPosition {position count : Nat}
    (refused : checkPosition position count = .error cause) :
    (Fault.error cause).Rejects (position < count) := by
  by_cases inside : position < count
  · rw [checkPosition_of_lt inside] at refused
    cases refused
  · rw [checkPosition_of_le (Nat.not_lt.1 inside)] at refused
    cases refused
    exact ⟨rfl, inside⟩

theorem rejects_of_checkRegion {count offset length : Nat}
    (refused : checkRegion count offset length = .error cause) :
    (Fault.error cause).Rejects (offset + length ≤ count) := by
  rw [checkRegion] at refused
  split at refused
  next => cases refused
  next beyond =>
    cases refused
    exact ⟨rfl, beyond⟩

theorem rejects_of_checkStretch {size offset length : Nat}
    (refused : checkStretch size offset length = .error cause) :
    (Fault.error cause).Rejects (offset + length ≤ size) := by
  rw [checkStretch] at refused
  split at refused
  next => cases refused
  next beyond =>
    cases refused
    exact ⟨rfl, beyond⟩

theorem rejects_of_checkIds {ids : List Nat} {count : Nat}
    (refused : checkIds ids count = .error cause) :
    (Fault.error cause).Rejects (∀ id ∈ ids, id < count) := by
  have invalid : ¬ ∀ id ∈ ids, id < count := fun inside ↦ by
    rw [checkIds_eq_ok_iff.2 inside] at refused
    cases refused
  rw [checkIds] at refused
  split at refused
  next =>
    cases refused
    exact ⟨rfl, invalid⟩
  next => cases refused

/-- A call that fails at an item of a list fails at one of them. -/
theorem exists_eq_error_of_mapM {ε α β : Type} {call : α → Except ε β} {items : List α} {e : ε}
    (refused : items.mapM call = .error e) : ∃ item ∈ items, call item = .error e := by
  induction items with
  | nil => cases refused
  | cons item rest ih =>
    rw [List.mapM_cons] at refused
    rcases here : call item with fault | answer
    · rw [here] at refused
      cases refused
      exact ⟨item, List.mem_cons_self, here⟩
    · rcases others : rest.mapM call with fault | answers
      · rw [here, others] at refused
        cases refused
        obtain ⟨later, mem, found⟩ := ih others
        exact ⟨later, List.mem_cons_of_mem _ mem, found⟩
      · rw [here, others] at refused
        cases refused

theorem rejects_of_checkPositions {positions : List Nat} {count : Nat}
    (refused : checkPositions positions count = .error cause) :
    (Fault.error cause).Rejects (∀ position ∈ positions, position < count) := by
  induction positions with
  | nil => cases refused
  | cons position rest ih =>
    change (checkPosition position count >>= fun _ ↦ checkPositions rest count) = _ at refused
    rcases here : checkPosition position count with other | ⟨⟩
    · rw [here] at refused
      exact (rejects_of_checkPosition (here.trans refused)).mono
        fun inside ↦ inside _ List.mem_cons_self
    · rw [here] at refused
      exact (ih refused).mono fun inside p mem ↦ inside p (List.mem_cons_of_mem _ mem)

theorem Keys.rejects_of_id {keys : Keys} {position : Nat}
    (refused : keys.id position = .error cause) :
    (Fault.error cause).Rejects (position < keys.count) := by
  rw [Keys.id] at refused
  split at refused
  next => cases refused
  next outside =>
    cases refused
    exact ⟨rfl, outside⟩

theorem Keys.rejects_of_idsAt {keys : Keys} {positions : List Nat}
    (refused : keys.idsAt positions = .error cause) :
    (Fault.error cause).Rejects (∀ position ∈ positions, position < keys.count) := by
  obtain ⟨position, mem, here⟩ := exists_eq_error_of_mapM refused
  exact (rejects_of_id here).mono fun inside ↦ inside position mem

theorem Keys.rejects_of_window {keys : Keys} {memory offset length : Nat}
    (refused : keys.window memory offset length = .error cause) :
    (Fault.error cause).Rejects (offset + length ≤ keys.count) := by
  rw [Keys.window] at refused
  split at refused
  next => cases refused
  next beyond =>
    cases refused
    exact ⟨rfl, beyond⟩

namespace Lists

variable {lists : Lists}

theorem rejects_of_window {memory offset length : Nat}
    (refused : lists.window memory offset length = .error cause) :
    (Fault.error cause).Rejects (offset + length ≤ lists.count) := by
  rw [window] at refused
  split at refused
  next => cases refused
  next beyond =>
    cases refused
    exact ⟨rfl, beyond⟩

theorem rejects_of_cut {offset length : Nat} (refused : lists.cut offset length = .error cause) :
    (Fault.error cause).Rejects (offset + length ≤ lists.count) := by
  rw [cut] at refused
  split at refused
  next => cases refused
  next beyond =>
    cases refused
    exact ⟨rfl, beyond⟩

theorem rejects_of_span {position : Nat} (refused : lists.span position = .error cause) :
    (Fault.error cause).Rejects (position < lists.count) := by
  rw [span] at refused
  split at refused
  next => cases refused
  next outside =>
    cases refused
    exact ⟨rfl, outside⟩

theorem rejects_of_filledSpans {size : Nat} (intact : lists.Intact size) {positions : List Nat}
    {fault : Fault} (refused : lists.filledSpans positions = .error fault) :
    fault.Rejects (∀ position ∈ positions, position < lists.count) := by
  obtain ⟨position, mem, here⟩ := exists_eq_error_of_mapM refused
  refine Fault.Rejects.mono ?_ fun inside : ∀ p ∈ positions, p < lists.count ↦ inside position mem
  by_cases inside : position < lists.count
  · -- A list that is there is read without fail.
    rw [intact.isNull_eq_ok inside, ok_bind] at here
    split at here
    next => cases here
    next =>
      rw [span_eq_ok inside] at here
      cases here
  · rw [isNull_eq_error (Nat.not_lt.1 inside)] at here
    cases here
    exact ⟨rfl, inside⟩

end Lists

end Checks

end BatchColumn
