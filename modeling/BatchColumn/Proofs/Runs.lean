import BatchColumn.Block.Compact
import BatchColumn.Proofs.Outcome

/-!
# What a query does from one ledger

`Query.Meets` speaks of ledgers that are sound. Where blocks are corrupted no ledger is, and a query
has to be followed from the ledger that there is. `Query.Runs` says what it ends with there, whether
it answers or fails, and what it leaves; one rule for each way of building a query follows.

A condition on ledgers that a query keeps on all its ways (`Query.Keeps`) is a frame if it speaks of
one memory. The main result is the frame of sizing: **sizing a block writes under the memories of
its parts, and under no other** (`Block.sizeOf_keeps`).
-/

namespace BatchColumn

variable {α β : Type} {loads : Loads} {ledger : Ledger}

namespace Query

theorem outcome_ledger_bind {rest : Ledger → Query β} :
    (getThe Ledger >>= rest).outcome loads ledger = (rest ledger).outcome loads ledger := rfl

theorem outcome_check_bind {check : Except Error α} {rest : α → Query β} {a : α}
    (passed : check = .ok a) :
    (liftM check >>= rest).outcome loads ledger = (rest a).outcome loads ledger := by
  rw [passed]
  rfl

/-! #### Sums -/

/-- What a call answers at the items, one after the other, is a word together, however far it is
added up. -/
def Addable (items : List α) (call : α → Query Nat) (loads : Loads) (ledger : Ledger) : Prop :=
  ∀ n sizes, (((items.take n).mapM call).outcome loads ledger).1 = .ok sizes →
    sizes.sum < UInt64.size

/-- Sums that stay words are those of all answers, on top of what was added before. -/
theorem outcome_sumOver_add {call : α → Query Nat} {items : List α} {total : Nat}
    (words : ∀ n sizes, (((items.take n).mapM call).outcome loads ledger).1 = .ok sizes →
      total + sizes.sum < UInt64.size) :
    (items.foldlM (fun total item => do checkSize (total + (← call item))) total :
      Query Nat).outcome loads ledger =
        (do return total + (← items.mapM call).sum : Query Nat).outcome loads ledger := by
  induction items generalizing ledger total with
  | nil => rfl
  | cons item rest ih =>
    simp only [List.foldlM_cons, List.mapM_cons, bind_assoc, pure_bind]
    rcases run : (call item).outcome loads ledger with ⟨fault | size, middle⟩
    · rw [outcome_bind_of_error run, outcome_bind_of_error run]
    · rw [outcome_bind_of_ok run, outcome_bind_of_ok run]
      have taken : ∀ n sizes, (((rest.take n).mapM call).outcome loads middle).1 = .ok sizes →
          total + size + sizes.sum < UInt64.size := fun n sizes answered ↦ by
        have word := words (n + 1) (size :: sizes)
        rw [List.take_succ_cons, List.mapM_cons, outcome_bind_of_ok run] at word
        rcases others : ((rest.take n).mapM call).outcome loads middle with ⟨fault | found, after⟩
        all_goals rw [others] at answered
        · cases answered
        · obtain rfl := Except.ok.inj answered
          rw [outcome_bind_of_ok others, List.sum_cons, ← Nat.add_assoc] at word
          exact word rfl
      have first : checkSize (total + size) = .ok (total + size) :=
        checkSize_of_lt (by simpa using taken 0 [] rfl)
      rw [first]
      refine (ih taken).trans ?_
      simp only [List.sum_cons, Nat.add_assoc]

/-- **Sums that stay words are those of all answers.** -/
theorem outcome_sumOver {call : α → Query Nat} {items : List α}
    (addable : Addable items call loads ledger) :
    (sumOver items call).outcome loads ledger =
      (do return (← items.mapM call).sum : Query Nat).outcome loads ledger := by
  refine (outcome_sumOver_add fun n sizes answered ↦
    (Nat.zero_add _).trans_lt (addable n sizes answered)).trans ?_
  simp only [Nat.zero_add]

/-! #### Runs -/

/-- From one ledger, the query ends as said. -/
def Runs (query : Query α) (loads : Loads) (ledger : Ledger) (done : Ledger → α → Prop)
    (failed : Ledger → Fault → Prop) : Prop :=
  Ends (query.outcome loads ledger).1 (done (query.outcome loads ledger).2)
    (failed (query.outcome loads ledger).2)

namespace Runs

variable {query : Query β} {done done' : Ledger → β → Prop} {failed failed' : Ledger → Fault → Prop}

protected theorem pure {b : β} (answer : done ledger b) :
    (pure b : Query β).Runs loads ledger done failed := answer

protected theorem throw {fault : Fault} (refused : failed ledger fault) :
    (throw fault : Query β).Runs loads ledger done failed := refused

/-- Less may be said of a run. -/
theorem mono (runs : query.Runs loads ledger done failed)
    (answer : ∀ after b, done after b → done' after b)
    (fault : ∀ after fault, failed after fault → failed' after fault) :
    query.Runs loads ledger done' failed' :=
  Ends.mono runs (answer _) (fault _)

/-- Two things may be said of a run at once. -/
theorem and (runs : query.Runs loads ledger done failed)
    (also : query.Runs loads ledger done' failed') :
    query.Runs loads ledger (fun after b ↦ done after b ∧ done' after b)
      (fun after fault ↦ failed after fault ∧ failed' after fault) := by
  rw [Runs] at runs also ⊢
  rcases run : query.outcome loads ledger with ⟨fault | b, after⟩
  all_goals
    rw [run] at runs also
    exact ⟨runs, also⟩

/-- Two steps in a row. -/
protected theorem bind {first : Query α} {rest : α → Query β} {P : Ledger → α → Prop}
    (runs : first.Runs loads ledger P failed)
    (next : ∀ middle a, P middle a → (rest a).Runs loads middle done failed) :
    (first >>= rest).Runs loads ledger done failed := by
  rw [Runs] at runs ⊢
  rcases run : first.outcome loads ledger with ⟨fault | a, middle⟩
  all_goals rw [run] at runs
  · rw [outcome_bind_of_error run]
    exact runs
  · rw [outcome_bind_of_ok run]
    exact next middle a runs

theorem read_bind {rest : Loads → Query β} (next : (rest loads).Runs loads ledger done failed) :
    (read >>= rest).Runs loads ledger done failed := next

theorem mint_bind {rest : SourceId → Query β}
    (next : (rest ⟨.own, ledger.minted⟩).Runs loads { ledger with minted := ledger.minted + 1 }
      done failed) : (liftM Ledger.mint >>= rest).Runs loads ledger done failed := next

section Checks

variable {check : Except Error α} {attempt : Except Fault α} {rest : α → Query β} {P : α → Prop}

theorem attempt_bind (ends : Ends attempt P (failed ledger))
    (next : ∀ a, P a → (rest a).Runs loads ledger done failed) :
    (liftM attempt >>= rest).Runs loads ledger done failed := by
  rcases attempt with fault | a
  · exact ends
  · exact next a ends

theorem check_bind (ends : Ends (liftM check : Except Fault α) P (failed ledger))
    (next : ∀ a, P a → (rest a).Runs loads ledger done failed) :
    (liftM check >>= rest).Runs loads ledger done failed := by
  rcases check with cause | a
  · exact ends
  · exact next a ends

theorem check_ok_bind {a : α} (passed : check = .ok a)
    (next : (rest a).Runs loads ledger done failed) :
    (liftM check >>= rest).Runs loads ledger done failed := by
  rw [Runs, outcome_check_bind passed]
  exact next

end Checks

section Remembered

variable {table : Ledger.Table β} {memory : Nat}

/-- What is remembered is answered. -/
theorem remembered_of_some {known : β} (found : (table.slots ledger).get? memory = some known)
    (answer : done ledger known) :
    (remembered table memory query).Runs loads ledger done failed := by
  have run : (remembered table memory query).outcome loads ledger = (.ok known, ledger) := by
    rw [remembered, outcome_ledger_bind, found]
    rfl
  rw [Runs, run]
  exact answer

/-- What is not remembered is worked out, and published if that succeeds. -/
theorem remembered_of_none {P : Ledger → β → Prop}
    (missing : (table.slots ledger).get? memory = none)
    (runs : query.Runs loads ledger P failed)
    (publish : ∀ middle b, P middle b → done (table.update (·.publish memory b) middle) b) :
    (remembered table memory query).Runs loads ledger done failed := by
  have next : (remembered table memory query).outcome loads ledger =
      (query >>= fun found ↦ do
        modifyThe Ledger (table.update (·.publish memory found))
        return found : Query β).outcome loads ledger := by
    rw [remembered, outcome_ledger_bind, missing]
  rw [Runs, next]
  exact runs.bind fun middle b answer ↦ publish middle b answer

end Remembered

/-- Calls at the items of a list, in order, each of which keeps a condition on the ledger. -/
protected theorem mapM {call : α → Query β} {items : List α} {I : Ledger → Prop}
    {P : α → Prop} (start : I ledger)
    (runs : ∀ now, I now → ∀ item ∈ items,
      (call item).Runs loads now (fun after _ ↦ I after ∧ P item) failed) :
    (items.mapM call).Runs loads ledger (fun after _ ↦ I after ∧ ∀ item ∈ items, P item)
      failed := by
  induction items generalizing ledger with
  | nil => exact .pure ⟨start, by simp⟩
  | cons item rest ih =>
    rw [List.mapM_cons]
    refine .bind (runs ledger start item List.mem_cons_self) fun middle _ ⟨kept, here⟩ ↦ ?_
    refine .bind (ih kept fun now kept item listed ↦
      runs now kept item (List.mem_cons_of_mem _ listed)) fun after _ ⟨kept, all⟩ ↦ ?_
    exact .pure ⟨kept, List.forall_mem_cons.2 ⟨here, all⟩⟩

/-- Sizes that stay words are added up as they are answered. -/
protected theorem sumOver {items : List α} {call : α → Query Nat} {done : Ledger → Nat → Prop}
    (addable : Addable items call loads ledger)
    (runs : (items.mapM call).Runs loads ledger (fun after sizes ↦ done after sizes.sum) failed) :
    (sumOver items call).Runs loads ledger done failed := by
  rw [Runs, outcome_sumOver addable]
  exact runs.bind fun _ _ answer ↦ .pure answer

end Runs

/-! ### Conditions that are kept -/

/-- Whatever the query ends with, a condition on the ledger holds after it if it held before. -/
def Keeps (query : Query α) (loads : Loads) (inv : Ledger → Prop) : Prop :=
  ∀ ledger, inv ledger → query.Runs loads ledger (fun after _ ↦ inv after) fun after _ ↦ inv after

namespace Keeps

variable {query : Query β} {inv : Ledger → Prop}

protected theorem pure (b : β) : (pure b : Query β).Keeps loads inv :=
  fun _ held ↦ .pure held

protected theorem bind {first : Query α} {rest : α → Query β} (keeps : first.Keeps loads inv)
    (next : ∀ a, (rest a).Keeps loads inv) : (first >>= rest).Keeps loads inv :=
  fun ledger held ↦ (keeps ledger held).bind fun middle a held ↦ next a middle held

theorem read_bind {rest : Loads → Query β} (next : (rest loads).Keeps loads inv) :
    (read >>= rest).Keeps loads inv := next

protected theorem attempt (attempt : Except Fault β) :
    (liftM attempt : Query β).Keeps loads inv := by
  rcases attempt with fault | a
  · exact fun _ held ↦ .throw held
  · exact fun _ held ↦ .pure held

protected theorem check (check : Except Error β) : (liftM check : Query β).Keeps loads inv := by
  rcases check with cause | a
  · exact fun _ held ↦ .throw held
  · exact fun _ held ↦ .pure held

protected theorem remembered {table : Ledger.Table β} {memory : Nat}
    (publish : ∀ ledger b, inv ledger → inv (table.update (·.publish memory b) ledger))
    (keeps : query.Keeps loads inv) : (remembered table memory query).Keeps loads inv := by
  intro ledger held
  rcases found : (table.slots ledger).get? memory with - | known
  · exact .remembered_of_none found (keeps ledger held) fun middle b ↦ publish middle b
  · exact .remembered_of_some found held

end Keeps

end Query

/-! ### The frame of sizing -/

namespace Ledger

variable {memory other : Nat}

theorem memo_publish_size (apart : other ≠ memory) (ledger : Ledger) (size : Nat) :
    (sizeTable.update (·.publish other size) ledger).memo memory = ledger.memo memory := by
  rw [memo]
  show Memo.mk ((ledger.sizes.publish other size).get? memory) _ _ = _
  rw [Slots.get?_publish, if_neg apart.symm]
  rfl

theorem memo_publish_stats (apart : other ≠ memory) (ledger : Ledger) (stats : Stats) :
    (statsTable.update (·.publish other stats) ledger).memo memory = ledger.memo memory := by
  rw [memo]
  show Memo.mk _ ((ledger.stats.publish other stats).get? memory) _ = _
  rw [Slots.get?_publish, if_neg apart.symm]
  rfl

end Ledger

/-- The statistics of keys are remembered under their memory. -/
theorem Keys.statsWith_keeps {keys : Keys} {entries : Block} {entriesSize : Query Nat}
    {memory : Nat} {memo : Memo} (apart : keys.memory ≠ memory)
    (keeps : entriesSize.Keeps loads fun ledger ↦ ledger.memo memory = memo) :
    (keys.statsWith entries entriesSize).Keeps loads fun ledger ↦ ledger.memo memory = memo := by
  refine .remembered (fun ledger stats held ↦ (Ledger.memo_publish_stats apart _ _).trans held) ?_
  refine .read_bind (.bind (.attempt _) fun used ↦ ?_)
  dsimp only
  split
  · refine .bind keeps fun size ↦ ?_
    split
    · exact .pure _
    · exact .pure _
  · exact .bind (.attempt _) fun _ ↦ .pure _

/-- **Sizing a block leaves alone what is remembered under a memory that is none of its parts'.** -/
theorem Block.sizeOf_keeps {b : Block} {memory : Nat}
    (apart : ∀ c, Part loads c b → c.identity? ≠ some memory) (extent : Extent) (memo : Memo) :
    (b.sizeOf extent).Keeps loads fun ledger ↦ ledger.memo memory = memo := by
  induction b using Block.walk generalizing extent with
  | step b ih =>
    rw [sizeOf]
    refine .bind (.check _) fun _ ↦ .read_bind ?_
    rcases shown : b.face? loads with - | face
    · exact .pure _
    · have apart : ∀ c, Part loads c face.toBlock → c.identity? ≠ some memory :=
        fun c part ↦ apart c (.of_face shown part)
      have own : ∀ n, face.toBlock.identity? = some n → n ≠ memory :=
        fun n same is ↦ apart _ .refl (same.trans (congrArg some is))
      rcases face with leaf | leaf | ⟨lists, elements, below⟩ | ⟨keys, entries, below⟩
      · exact .pure _
      · exact .attempt _
      · have cut (length : Nat) (region : Nat × Nat → Extent) : (do
            let span ← liftM (lists.cut extent.offset length)
            return (← elements.sizeOf (region span)) + Lists.overhead * length :
              Query Nat).Keeps loads fun ledger ↦ ledger.memo memory = memo :=
          .bind (.check _) fun _ ↦
            .bind (ih elements below (fun c part ↦ apart c (.elements part)) _) fun _ ↦ .pure _
        rcases extent with - | ⟨offset, length⟩
        · exact .remembered
            (fun ledger size held ↦ (Ledger.memo_publish_size (own _ rfl) _ _).trans held) (cut _ _)
        · exact cut _ _
      · have entriesSize (extent : Extent) := ih entries below
          (fun c part ↦ apart c (.entries part)) extent
        dsimp only
        split
        · exact .bind (Keys.statsWith_keeps (own _ rfl) (entriesSize .all)) fun _ ↦ .pure _
        · exact .bind (.attempt _) fun _ ↦ .read_bind (.bind (.attempt _) fun _ ↦ .pure _)

end BatchColumn
