import BatchColumn.Block.Load
import BatchColumn.Block.Make
import BatchColumn.Proofs.Faces

/-!
# What calls end with

A query run on a ledger ends with an answer or a fault, and leaves a ledger; a session does the same
on a store. `Query.Meets` and `Session.Meets` say what a call does to **every** sound store: it
leaves a store that is sound for a census that has only grown, an answer satisfies `post`, and a
fault satisfies `refuse`. So one statement holds what a call keeps, what it answers and when it
fails: `refuse` is the negation of what makes the call succeed.

One rule for each way of building a call follows. The rules for a first step are stated together
with the step that follows it, so that a proof about a call goes through it from the top, one rule
for each line. A block that a call makes joins the census in the rule for the identity that it is
made under (`Query.Meets.fresh_add_bind`).
-/

namespace BatchColumn

variable {α β : Type}

/-- The answer, or the fault, is as it should be. -/
def Ends (result : Except Fault α) (post : α → Prop) (refuse : Fault → Prop) : Prop :=
  match result with
  | .ok a => post a
  | .error fault => refuse fault

theorem Ends.mono {result : Except Fault α} {post post' : α → Prop} {refuse refuse' : Fault → Prop}
    (ends : Ends result post refuse) (answer : ∀ a, post a → post' a)
    (fault : ∀ fault, refuse fault → refuse' fault) : Ends result post' refuse' := by
  rcases result with cause | a
  · exact fault cause ends
  · exact answer a ends

/-- Two attempts in a row. -/
theorem Ends.bind {first : Except Fault α} {rest : α → Except Fault β} {mid : α → Prop}
    {post : β → Prop} {refuse : Fault → Prop} (ends : Ends first mid refuse)
    (next : ∀ a, mid a → Ends (rest a) post refuse) : Ends (first >>= rest) post refuse := by
  rcases first with fault | a
  · exact ends
  · exact next a ends

/-! ### Queries -/

namespace Query

/-- What a query ends with, and the ledger it leaves. -/
def outcome (query : Query α) (loads : Loads) (ledger : Ledger) : Except Fault α × Ledger :=
  (query.run loads).run ledger

/-- A query goes on from the answer of its first step. -/
theorem outcome_bind_of_ok {first : Query α} {rest : α → Query β} {loads : Loads}
    {ledger middle : Ledger} {a : α} (run : first.outcome loads ledger = (.ok a, middle)) :
    (first >>= rest).outcome loads ledger = (rest a).outcome loads middle := by
  show (match first.outcome loads ledger with
    | (result, after) => ExceptT.bindCont (fun a ↦ (rest a).run loads) result after) = _
  rw [run]
  rfl

/-- A query fails with its first step. -/
theorem outcome_bind_of_error {first : Query α} {rest : α → Query β} {loads : Loads}
    {ledger middle : Ledger} {fault : Fault}
    (run : first.outcome loads ledger = (.error fault, middle)) :
    (first >>= rest).outcome loads ledger = (.error fault, middle) := by
  show (match first.outcome loads ledger with
    | (result, after) => ExceptT.bindCont (fun a ↦ (rest a).run loads) result after) = _
  rw [run]
  rfl

theorem outcome_read_bind {rest : Loads → Query β} {loads : Loads} {ledger : Ledger} :
    (read >>= rest).outcome loads ledger = (rest loads).outcome loads ledger := rfl

/-- A query of two steps that answers has answered at both. -/
theorem exists_of_outcome_bind {first : Query α} {rest : α → Query β} {loads : Loads}
    {ledger after : Ledger} {b : β}
    (run : (first >>= rest).outcome loads ledger = (.ok b, after)) :
    ∃ a middle, first.outcome loads ledger = (.ok a, middle) ∧
      (rest a).outcome loads middle = (.ok b, after) := by
  rcases step : first.outcome loads ledger with ⟨fault | a, middle⟩
  · rw [outcome_bind_of_error step] at run
    cases run
  · rw [outcome_bind_of_ok step] at run
    exact ⟨a, middle, rfl, run⟩

/-- From every sound ledger, the query ends as said and leaves a sound ledger. -/
def Meets (query : Query α) (K : Census) (loads : Loads) (post : Census → α → Prop)
    (refuse : Fault → Prop) : Prop :=
  ∀ ledger, Sound K loads ledger →
    ledger.Grows (query.outcome loads ledger).2 ∧
      ∃ L, K ≤ L ∧ Sound L loads (query.outcome loads ledger).2 ∧
        Ends (query.outcome loads ledger).1 (post L) refuse

namespace Meets

variable {K : Census} {loads : Loads} {query : Query β} {post post' : Census → β → Prop}
  {refuse refuse' : Fault → Prop}

/-- A query that comes to another one, by what its first step does to the ledger. -/
theorem of_step (step : ∀ ledger, Sound K loads ledger →
    ∃ (rest : Query β) (middle : Ledger) (L : Census),
      query.outcome loads ledger = rest.outcome loads middle ∧ ledger.Grows middle ∧ K ≤ L ∧
        Sound L loads middle ∧ rest.Meets L loads post refuse) :
    query.Meets K loads post refuse := by
  intro ledger start
  obtain ⟨rest, middle, L, run, grows, le, sound, meets⟩ := step ledger start
  obtain ⟨more, M, later, ends⟩ := meets middle sound
  rw [run]
  exact ⟨grows.trans more, M, Census.le_trans le later, ends⟩

/-- A query may be judged by what its first ledger says of the census. -/
theorem of_sound (meets : ∀ ledger, Sound K loads ledger → query.Meets K loads post refuse) :
    query.Meets K loads post refuse :=
  fun ledger start ↦ meets ledger start ledger start

protected theorem pure {b : β} (answer : post K b) :
    (pure b : Query β).Meets K loads post refuse :=
  fun ledger start ↦ ⟨.refl ledger, K, Census.le_refl K, start, answer⟩

protected theorem throw {fault : Fault} (refused : refuse fault) :
    (throw fault : Query β).Meets K loads post refuse :=
  fun ledger start ↦ ⟨.refl ledger, K, Census.le_refl K, start, refused⟩

/-- Less may be said of a query. -/
theorem mono (meets : query.Meets K loads post refuse)
    (answer : ∀ L b, K ≤ L → post L b → post' L b) (fault : ∀ fault, refuse fault → refuse' fault) :
    query.Meets K loads post' refuse' := by
  intro ledger start
  obtain ⟨grows, L, le, sound, ends⟩ := meets ledger start
  exact ⟨grows, L, le, sound, ends.mono (answer L · le) fault⟩

/-- The faults of a query may be judged less strictly. -/
theorem refusing (meets : query.Meets K loads post refuse)
    (fault : ∀ fault, refuse fault → refuse' fault) : query.Meets K loads post refuse' :=
  meets.mono (fun _ _ _ ↦ id) fault

/-- A leaf that is made joins the census. -/
theorem add_leaf {b : Block} (anonymous : b.identity? = none) (alone : b.parts = [])
    (formed : b.Formed) (stored : b.Stored K.issued)
    (meets : query.Meets (K.add b) loads post refuse) : query.Meets K loads post refuse :=
  of_step fun ledger sound ↦ ⟨query, ledger, K.add b, rfl, .refl ledger, K.le_add b,
    sound.add_leaf anonymous alone formed stored, meets⟩

/-- Two steps in a row. -/
protected theorem bind {first : Query α} {rest : α → Query β} {mid : Census → α → Prop}
    (meets : first.Meets K loads mid refuse)
    (next : ∀ L a, K ≤ L → mid L a → (rest a).Meets L loads post refuse) :
    (first >>= rest).Meets K loads post refuse := by
  intro ledger start
  obtain ⟨grows, L, le, sound, ends⟩ := meets ledger start
  -- A fault of the first step is one of both; an answer leaves a sound ledger to the second.
  rcases run : first.outcome loads ledger with ⟨fault | a, middle⟩
  all_goals rw [run] at grows sound ends
  · rw [outcome_bind_of_error run]
    exact ⟨grows, L, le, sound, ends⟩
  · obtain ⟨more, M, later, ends⟩ := next L a le ends middle sound
    rw [outcome_bind_of_ok run]
    exact ⟨grows.trans more, M, Census.le_trans le later, ends⟩

theorem pure_bind {a : α} {rest : α → Query β} (next : (rest a).Meets K loads post refuse) :
    (pure a >>= rest).Meets K loads post refuse := next

/-- Calls at the items of a list, in order. -/
protected theorem mapM {call : α → Query β} {items : List α} {R : α → β → Prop}
    (meets : ∀ L, K ≤ L → ∀ item ∈ items, (call item).Meets L loads (fun _ ↦ R item) refuse) :
    (items.mapM call).Meets K loads (fun _ ↦ List.Forall₂ R items) refuse := by
  induction items generalizing K with
  | nil => exact .pure .nil
  | cons item rest ih =>
    rw [List.mapM_cons]
    refine .bind (meets K (Census.le_refl K) item List.mem_cons_self) fun L b le here ↦ ?_
    refine .bind (ih fun M later other mem ↦
      meets M (Census.le_trans le later) other (List.mem_cons_of_mem _ mem)) fun M bs _ chain ↦ ?_
    exact .pure (.cons here chain)

/-! #### Checks -/

section Checks

variable {check : Except Error α} {attempted : Except Fault α} {rest : α → Query β}

theorem check_bind (passed : ∀ a, check = .ok a → (rest a).Meets K loads post refuse)
    (refused : ∀ cause, check = .error cause → refuse (.error cause)) :
    (liftM check >>= rest).Meets K loads post refuse := by
  rcases check with cause | a
  · exact Meets.throw (refused cause rfl)
  · exact passed a rfl

theorem attempt {attempt : Except Fault β} (ends : Ends attempt (post K) refuse) :
    (liftM attempt : Query β).Meets K loads post refuse := by
  rcases attempt with fault | a
  · exact Meets.throw ends
  · exact Meets.pure ends

theorem check_ok_bind {a : α} (passed : check = .ok a)
    (next : (rest a).Meets K loads post refuse) :
    (liftM check >>= rest).Meets K loads post refuse := by
  rw [passed]
  exact next

theorem attempt_ok_bind {a : α} (passed : attempted = .ok a)
    (next : (rest a).Meets K loads post refuse) :
    (liftM attempted >>= rest).Meets K loads post refuse := by
  rw [passed]
  exact next

theorem attempt_error_bind {fault : Fault} (failed : attempted = .error fault)
    (refused : refuse fault) : (liftM attempted >>= rest).Meets K loads post refuse := by
  rw [failed]
  exact Meets.throw refused

theorem attempt_bind (passed : ∀ a, attempted = .ok a → (rest a).Meets K loads post refuse)
    (refused : ∀ fault, attempted = .error fault → refuse fault) :
    (liftM attempted >>= rest).Meets K loads post refuse := by
  rcases attempted with fault | a
  · exact Meets.throw (refused fault rfl)
  · exact passed a rfl

end Checks

/-! #### Sums -/

/-- **Sizes are added up in step with plain ones**: if each of them is what it plainly is, so is the
sum, and a sum that is no word is none plainly. -/
protected theorem sumOver {call : α → Query Nat} {items : List α} (holds : Prop)
    (plain : Set (α → Except Fault Nat))
    (meets : ∀ L, K ≤ L → ∀ item ∈ items, (call item).Meets L loads
      (fun _ size ↦ ∀ plainly ∈ plain, plainly item = .ok size) (fun _ ↦ ¬ holds)) :
    (sumOver items call).Meets K loads
      (fun _ sum ↦ ∀ plainly ∈ plain, sumOver items plainly = .ok sum)
      (fun fault ↦ holds →
        fault = .panic ∧ ∀ plainly ∈ plain, sumOver items plainly = .error .panic) := by
  simp only [sumOver]
  generalize 0 = total
  induction items generalizing K total with
  | nil => exact .pure fun _ _ ↦ rfl
  | cons item rest ih =>
    simp only [List.foldlM_cons, bind_assoc]
    refine .bind ((meets K (Census.le_refl K) item List.mem_cons_self).refusing
      fun _ refused kept ↦ absurd kept refused) fun L size le here ↦ ?_
    refine .attempt_bind (fun sum passed ↦ ?_) fun fault beyond kept ↦ ?_
    · refine (ih (fun M later other mem ↦ meets M (Census.le_trans le later) other
        (List.mem_cons_of_mem _ mem)) sum).mono (fun M n _ same plainly agrees ↦ ?_)
          fun fault refused kept ↦ (refused kept).imp_right fun same plainly agrees ↦ ?_
      all_goals
        rw [here plainly agrees]
        simpa [passed] using same plainly agrees
    · obtain ⟨-, rfl⟩ := checkSize_eq_error_iff.1 beyond
      refine ⟨rfl, fun plainly agrees ↦ ?_⟩
      rw [here plainly agrees]
      simp [beyond]

/-! #### The loads and the ledger -/

theorem read_bind {rest : Loads → Query β} (next : (rest loads).Meets K loads post refuse) :
    (read >>= rest).Meets K loads post refuse := next

theorem ledger_bind {rest : Ledger → Query β}
    (next : ∀ ledger, Sound K loads ledger → (rest ledger).Meets K loads post refuse) :
    (getThe Ledger >>= rest).Meets K loads post refuse :=
  fun ledger start ↦ next ledger start ledger start

theorem fresh_bind {rest : Nat → Query β} (next : ∀ n, (rest n).Meets K loads post refuse) :
    (liftM Ledger.fresh >>= rest).Meets K loads post refuse :=
  of_step fun ledger sound ↦ ⟨rest ledger.next, _, K, rfl, .of_next (Nat.le_succ _),
    Census.le_refl K, sound.fresh, next _⟩

/-- An identity that is given out may be that of an array, which is new. -/
theorem issue_bind {rest : Nat → Query β}
    (next : ∀ n, n ∉ K.issued → (rest n).Meets (K.issue n) loads post refuse) :
    (liftM Ledger.fresh >>= rest).Meets K loads post refuse :=
  of_step fun ledger sound ↦ ⟨rest ledger.next, _, K.issue ledger.next, rfl,
    .of_next (Nat.le_succ _), K.le_issue _, sound.issue, next _ sound.next_not_mem_issued⟩

theorem storages_bind {rest : Slices.Storages → Query β}
    (next : ∀ storages, (∀ n ∈ storages.arrays, n ∉ K.issued) →
      (rest storages).Meets (K.issueAll storages) loads post refuse) :
    (liftM Slices.Storages.fresh >>= rest).Meets K loads post refuse :=
  of_step fun ledger sound ↦ ⟨rest ⟨ledger.next, ledger.next + 1, ledger.next + 2⟩, _, _, rfl,
    .of_next (Nat.le_add_right _ 3), K.le_issueAll _, sound.issueAll,
    next _ sound.storages_not_mem_issued⟩

/-- An identity that is minted is spare, and no smaller than those that are known to be minted. -/
theorem mint_bind {rest : SourceId → Query β}
    (next : ∀ n, K.floor ≤ n → (K.raise (n + 1)).Spare ⟨.own, n⟩ →
      (rest ⟨.own, n⟩).Meets (K.raise (n + 1)) loads post refuse) :
    (liftM Ledger.mint >>= rest).Meets K loads post refuse :=
  of_step fun ledger sound ↦ ⟨rest ⟨.own, ledger.minted⟩, _, K.raise (ledger.minted + 1), rfl,
    .of_minted (Nat.le_succ _), K.le_raise _, sound.mint,
    next _ sound.sourced.floor sound.sourced.spare_mint⟩

/-- **A block is made under a fresh identity**, and joins the census. -/
theorem fresh_add_bind {rest : Nat → Query β} (build : Nat → Block)
    (own : ∀ n, (build n).identity? = some n) (parts : ∀ n, ∀ c ∈ (build n).parts, c ∈ K)
    (formed : ∀ n, (build n).Formed) (stored : ∀ n, (build n).Stored K.issued)
    (admitted : ∀ n, K.Admits (build n))
    (next : ∀ n, (rest n).Meets (K.add (build n)) loads post refuse) :
    (liftM Ledger.fresh >>= rest).Meets K loads post refuse :=
  of_step fun ledger sound ↦ ⟨rest ledger.next, _, K.add (build ledger.next), rfl,
    .of_next (Nat.le_succ _), K.le_add _,
    sound.add_fresh (own _) (parts _) (formed _) (stored _) (admitted _), next _⟩

theorem carryOver_bind {memory : Nat} {rest : Nat → Query β}
    (next : ∀ n, (rest n).Meets K loads post refuse) :
    (liftM (Ledger.carryOver memory) >>= rest).Meets K loads post refuse :=
  of_step fun ledger sound ↦ ⟨rest ledger.next, _, K, rfl, ledger.grows_carried memory,
    Census.le_refl K, sound.carryOver memory, next _⟩

/-- Lists are made that take over the figures of lists that differ in nothing else. -/
theorem carryOver_lists_bind {lists : Lists} {elements : Block} {rest : Nat → Query β}
    (mem : .array lists elements ∈ K)
    (next : ∀ n, (rest n).Meets (K.add (.array { lists with memory := n } elements)) loads post
      refuse) : (liftM (Ledger.carryOver lists.memory) >>= rest).Meets K loads post refuse := by
  refine of_step fun ledger sound ↦ ⟨rest ledger.next, _,
    K.add (.array { lists with memory := ledger.next } elements), rfl,
    ledger.grows_carried lists.memory, K.le_add _, sound.add_carried rfl ?_ ?_ ?_ trivial ?_
      fun unmoved size found ↦ ?_, next _⟩
  · simpa [Block.parts] using sound.elements_mem mem
  · have formed : lists.Intact elements.positionCount := sound.formed _ mem
    exact formed.renamed lists.handle ledger.next
  · exact .array (sound.stored _ mem).issued
  · rintro _ _ ⟨⟩
  · rw [Block.plainSize_array_memory]
    exact sound.figured.right _ mem _ rfl .empty ⟨.inl rfl, unmoved.elements.array lists⟩ size found

/-- Keys are made that take over the statistics of keys with the same ids. -/
theorem carryOver_keys_bind {keys : Keys} {entries : Block} {rest : Nat → Query β}
    (mem : .dictionary keys entries ∈ K) (build : Nat → Keys) (own : ∀ n, (build n).memory = n)
    (same : ∀ n, (build n).toList = keys.toList)
    (source : ∀ n, (build n).source = keys.source ∧ (build n).handle = keys.handle)
    (array : ∀ n, (build n).ids = keys.ids)
    (next : ∀ n, (rest n).Meets (K.add (.dictionary (build n) entries)) loads post refuse) :
    (liftM (Ledger.carryOver keys.memory) >>= rest).Meets K loads post refuse := by
  refine of_step fun ledger sound ↦ ⟨rest ledger.next, _,
    K.add (.dictionary (build ledger.next) entries), rfl, ledger.grows_carried keys.memory,
    K.le_add _, sound.add_carried (congrArg some (own _)) ?_ ?_ ?_ ?_ ?_ fun unmoved ↦ ?_, next _⟩
  · simpa [Block.parts] using sound.entries_mem mem
  · intro id listed
    exact sound.formed _ mem id (same _ ▸ listed)
  · exact .dictionary (array ledger.next ▸ sound.ids_issued mem)
  · exact .inr ⟨keys, mem, (source _).1.symm, (source _).2.symm⟩
  · rintro _ _ ⟨⟩ stats found
    obtain ⟨⟨unique, sequential⟩, noted⟩ := sound.truthful _ _ mem stats found
    rw [← same ledger.next] at unique sequential noted
    exact ⟨⟨unique, sequential⟩, noted⟩
  · obtain ⟨stats, logicalSize⟩ := sound.figured.right _ mem _ rfl .empty
      ⟨.inl rfl, unmoved.entries.dictionary keys⟩
    refine ⟨fun known found ↦ ?_, fun size found ↦ ?_⟩
    · rw [Block.plainSize_dictionary_congr (same _)]
      exact stats known found
    · rw [Block.plainLogicalSize_dictionary_congr (same _)]
      exact logicalSize size found

/-- The statistics of a dictionary block are published. -/
theorem publish_bind {keys : Keys} {entries : Block} {memory : Nat} {stats : Stats}
    {rest : PUnit → Query β} (own : keys.memory = memory) (mem : .dictionary keys entries ∈ K)
    (told : keys.Exact K loads entries stats)
    (next : (rest ⟨⟩).Meets (K.learn memory) loads post refuse) :
    (modifyThe Ledger (Ledger.statsTable.update (·.publish memory stats)) >>= rest).Meets
      K loads post refuse :=
  of_step fun ledger sound ↦ ⟨rest ⟨⟩, _, K.learn memory, rfl,
    .of_stats (ledger.stats.grows_publish _ _), K.le_learn _,
    own ▸ sound.publish_stats mem told, next⟩

/-! #### Figures that are remembered -/

/-- The size of an array block is remembered. -/
theorem remembered_sizes {lists : Lists} {elements : Block} {figure : Query Nat}
    (mem : .array lists elements ∈ K)
    (meets : figure.Meets K loads (fun L ↦ L.ConfirmsSize loads (.array lists elements) .all)
      refuse) :
    (Query.remembered Ledger.sizeTable lists.memory figure).Meets K loads
      (fun L ↦ L.ConfirmsSize loads (.array lists elements) .all) refuse := by
  refine ledger_bind fun ledger sound ↦ ?_
  rcases found : (Ledger.sizeTable.slots ledger).get? lists.memory with - | known
  · refine .bind meets fun L n le right ↦ ?_
    exact of_step fun ledger sound ↦ ⟨pure n, _, L, rfl, .of_sizes (ledger.sizes.grows_publish _ _),
      Census.le_refl L, sound.publish_size (Census.mem_of_le le mem) right, .pure right⟩
  · exact .pure fun since follows ↦ sound.figured.right _ mem _ rfl since follows known found

/-- The logical size of a dictionary block is remembered. -/
theorem remembered_logicalSizes {keys : Keys} {entries : Block} {figure : Query Nat}
    (mem : .dictionary keys entries ∈ K)
    (meets : figure.Meets K loads
      (fun L ↦ L.ConfirmsLogicalSize loads (.dictionary keys entries)) refuse) :
    (Query.remembered Ledger.logicalSizeTable keys.memory figure).Meets K loads
      (fun L ↦ L.ConfirmsLogicalSize loads (.dictionary keys entries)) refuse := by
  refine ledger_bind fun ledger sound ↦ ?_
  rcases found : (Ledger.logicalSizeTable.slots ledger).get? keys.memory with - | known
  · refine .bind meets fun L n le right ↦ ?_
    exact of_step fun ledger sound ↦ ⟨pure n, _, L, rfl,
      .of_logicalSizes (ledger.logicalSizes.grows_publish _ _), Census.le_refl L,
      sound.publish_logicalSize (Census.mem_of_le le mem) right, .pure right⟩
  · exact .pure fun since follows ↦ (sound.figured.right _ mem _ rfl since follows).2 known found

/-- **Remembered statistics are exact.** If they are known to be remembered, they are there. -/
theorem remembered_stats {keys : Keys} {entries : Block} {figure : Query Stats}
    (mem : .dictionary keys entries ∈ K)
    (meets : figure.Meets K loads (fun L ↦ keys.Exact L loads entries) refuse) :
    (Query.remembered Ledger.statsTable keys.memory figure).Meets K loads
      (fun L ↦ keys.Exact L loads entries)
      (fun fault ↦ keys.memory ∉ K.known ∧ refuse fault) := by
  refine ledger_bind fun ledger sound ↦ ?_
  rcases found : (Ledger.statsTable.slots ledger).get? keys.memory with - | known
  · have unknown : keys.memory ∉ K.known := fun known ↦ by
      simpa [show ledger.stats.get? keys.memory = none from found] using sound.remembered _ known
    refine .bind (meets.refusing fun _ refused ↦ ⟨unknown, refused⟩)
      fun L stats le told ↦ ?_
    exact publish_bind rfl (Census.mem_of_le le mem) told
      (.pure ⟨told.toNoted, (Census.confirmsSize_iff_of_le (L.le_learn _)).1 told.size⟩)
  · exact .pure (sound.exact_stats mem found)

end Meets

end Query

/-! ### Sessions -/

namespace Session

/-- What a session ends with, and the store it leaves. -/
def outcome (session : Session α) (store : Store) : Except Fault α × Store :=
  session.run store

/-- A session goes on from the answer of its first step. -/
theorem outcome_bind_of_ok {first : Session α} {rest : α → Session β} {store middle : Store} {a : α}
    (run : first.outcome store = (.ok a, middle)) :
    (first >>= rest).outcome store = (rest a).outcome middle := by
  show (match first.outcome store with
    | (result, after) => ExceptT.bindCont rest result after) = _
  rw [run]
  rfl

/-- A session fails with its first step. -/
theorem outcome_bind_of_error {first : Session α} {rest : α → Session β} {store middle : Store}
    {fault : Fault} (run : first.outcome store = (.error fault, middle)) :
    (first >>= rest).outcome store = (.error fault, middle) := by
  show (match first.outcome store with
    | (result, after) => ExceptT.bindCont rest result after) = _
  rw [run]
  rfl

/-- A session of two steps that answers has answered at both. -/
theorem exists_of_outcome_bind {first : Session α} {rest : α → Session β} {store after : Store}
    {b : β} (run : (first >>= rest).outcome store = (.ok b, after)) :
    ∃ a middle, first.outcome store = (.ok a, middle) ∧
      (rest a).outcome middle = (.ok b, after) := by
  rcases step : first.outcome store with ⟨fault | a, middle⟩
  · rw [outcome_bind_of_error step] at run
    cases run
  · rw [outcome_bind_of_ok step] at run
    exact ⟨a, middle, rfl, run⟩

/-- A session of two steps fails at the first or at the second. -/
theorem error_of_outcome_bind {first : Session α} {rest : α → Session β} {store after : Store}
    {fault : Fault} (run : (first >>= rest).outcome store = (.error fault, after)) :
    first.outcome store = (.error fault, after) ∨
      ∃ a middle, first.outcome store = (.ok a, middle) ∧
        (rest a).outcome middle = (.error fault, after) := by
  rcases step : first.outcome store with ⟨other | a, middle⟩
  · rw [outcome_bind_of_error step] at run
    cases run
    exact .inl rfl
  · rw [outcome_bind_of_ok step] at run
    exact .inr ⟨a, middle, rfl, run⟩

theorem outcome_get_bind {rest : Store → Session β} {store : Store} :
    (get >>= rest).outcome store = (rest store).outcome store := rfl

theorem outcome_check_bind {check : Except Error α} {rest : α → Session β} {store : Store} {a : α}
    (passed : check = .ok a) : (liftM check >>= rest).outcome store = (rest a).outcome store := by
  rw [passed]
  rfl

/-- An attempt changes nothing. -/
theorem outcome_attempt (attempt : Except Fault α) (store : Store) :
    (liftM attempt : Session α).outcome store = (attempt, store) := by
  rcases attempt with fault | a <;> rfl

/-- A query in a session. -/
theorem outcome_query {query : Query α} {store : Store} {ledger : Ledger}
    {result : Except Fault α} (run : query.outcome store.loads store.ledger = (result, ledger)) :
    (liftM query : Session α).outcome store = (result, { store with ledger := ledger }) := by
  show ((query.outcome store.loads store.ledger).1,
    { store with ledger := (query.outcome store.loads store.ledger).2 }) = _
  rw [run]

/-- Two queries in a row are one query. -/
theorem liftM_bind (first : Query α) (rest : α → Query β) :
    (liftM (first >>= rest) : Session β) = liftM first >>= fun a ↦ liftM (rest a) := by
  refine funext fun store ↦ (?_ : (liftM (first >>= rest) : Session β).outcome store =
    (liftM first >>= fun a ↦ liftM (rest a) : Session β).outcome store)
  rcases run : first.outcome store.loads store.ledger with ⟨fault | a, ledger⟩
  · rw [outcome_bind_of_error (outcome_query run), outcome_query (Query.outcome_bind_of_error run)]
  · rw [outcome_bind_of_ok (outcome_query run)]
    rcases next : (rest a).outcome store.loads ledger with ⟨result, after⟩
    rw [outcome_query ((Query.outcome_bind_of_ok run).trans next), outcome_query next]

theorem outcome_call_bind {cell : Nat} {rest : Nat → Session β} {store : Store} :
    (call cell >>= rest).outcome store =
      (rest (store.loads.callCount cell)).outcome
        { store with loads := store.loads.call cell } := rfl

/-- A block of the promised length is put into its cell. -/
theorem outcome_fill {bound cell count : Nat} (block : Within bound)
    (counted : block.1.positionCount = count) (store : Store) :
    (fill cell count block).outcome store =
      (.ok block, { store with loads := store.loads.publish cell block.1 }) := by
  rw [fill, if_neg (not_not.2 counted)]
  rfl

/-- A block of another length is not. -/
theorem outcome_fill_of_ne {bound cell count : Nat} (block : Within bound)
    (miscounted : block.1.positionCount ≠ count) (store : Store) :
    (fill cell count block).outcome store = (.error (.error .miscounted), store) := by
  rw [fill, if_pos miscounted]
  rfl

/-- From every sound store, the session ends as said and leaves a sound store. -/
def Meets (session : Session α) (K : Census) (post : Census → α → Prop)
    (refuse : Fault → Prop) : Prop :=
  ∀ store : Store, Sound K store.loads store.ledger →
    ∃ L, K ≤ L ∧ Sound L (session.outcome store).2.loads (session.outcome store).2.ledger ∧
      Ends (session.outcome store).1 (post L) refuse

namespace Meets

variable {K : Census} {session : Session β} {post post' : Census → β → Prop}
  {refuse refuse' : Fault → Prop}

/-- A session that comes to another one, by what its first step does to the store. -/
theorem of_step (step : ∀ store : Store, Sound K store.loads store.ledger →
    ∃ (rest : Session β) (middle : Store) (L : Census),
      session.outcome store = rest.outcome middle ∧ K ≤ L ∧
        Sound L middle.loads middle.ledger ∧ rest.Meets L post refuse) :
    session.Meets K post refuse := by
  intro store start
  obtain ⟨rest, middle, L, run, le, sound, meets⟩ := step store start
  obtain ⟨M, later, ends⟩ := meets middle sound
  rw [run]
  exact ⟨M, Census.le_trans le later, ends⟩

/-- A session may be judged by what its first store says of the census. -/
theorem of_sound (meets : ∀ store : Store, Sound K store.loads store.ledger →
    session.Meets K post refuse) : session.Meets K post refuse :=
  fun store start ↦ meets store start store start

protected theorem pure {b : β} (answer : post K b) : (pure b : Session β).Meets K post refuse :=
  fun _ start ↦ ⟨K, Census.le_refl K, start, answer⟩

protected theorem throw {fault : Fault} (refused : refuse fault) :
    (throw fault : Session β).Meets K post refuse :=
  fun _ start ↦ ⟨K, Census.le_refl K, start, refused⟩

/-- Less may be said of a session. -/
theorem mono (meets : session.Meets K post refuse)
    (answer : ∀ L b, K ≤ L → post L b → post' L b) (fault : ∀ fault, refuse fault → refuse' fault) :
    session.Meets K post' refuse' := by
  intro store start
  obtain ⟨L, le, sound, ends⟩ := meets store start
  exact ⟨L, le, sound, ends.mono (answer L · le) fault⟩

/-- Two things may be said of a session at once, if one of them does not depend on the census. -/
theorem and {told : β → Prop} (meets : session.Meets K post refuse)
    (tells : session.Meets K (fun _ ↦ told) refuse') :
    session.Meets K (fun L b ↦ post L b ∧ told b) fun fault ↦ refuse fault ∧ refuse' fault := by
  intro store start
  obtain ⟨L, le, sound, ends⟩ := meets store start
  obtain ⟨_, _, _, also⟩ := tells store start
  refine ⟨L, le, sound, ?_⟩
  rcases run : (session.outcome store).1 with fault | b
  all_goals
    rw [run] at ends also
    exact ⟨ends, also⟩

/-- A session that fails does so as said. -/
theorem of_error (meets : session.Meets K post refuse) {store after : Store}
    (sound : Sound K store.loads store.ledger) {fault : Fault}
    (run : session.outcome store = (.error fault, after)) : refuse fault := by
  obtain ⟨_, _, _, ends⟩ := meets store sound
  rwa [run] at ends

/-- A session that refuses nothing answers. -/
theorem exists_answer (meets : session.Meets K post refuse) {store : Store}
    (sound : Sound K store.loads store.ledger) (never : ∀ fault, ¬ refuse fault) :
    ∃ b after, session.outcome store = (.ok b, after) := by
  obtain ⟨L, -, -, ends⟩ := meets store sound
  rcases run : session.outcome store with ⟨fault | b, after⟩
  all_goals rw [run] at ends
  · exact absurd ends (never fault)
  · exact ⟨b, after, rfl⟩

/-- The faults of a session may be judged less strictly. -/
theorem refusing (meets : session.Meets K post refuse)
    (fault : ∀ fault, refuse fault → refuse' fault) : session.Meets K post refuse' :=
  meets.mono (fun _ _ _ ↦ id) fault

/-- A leaf that is made joins the census. -/
theorem add_leaf {b : Block} (anonymous : b.identity? = none) (alone : b.parts = [])
    (formed : b.Formed) (stored : b.Stored K.issued) (meets : session.Meets (K.add b) post refuse) :
    session.Meets K post refuse :=
  of_step fun store sound ↦ ⟨session, store, K.add b, rfl, K.le_add b,
    sound.add_leaf anonymous alone formed stored, meets⟩

/-- Two steps in a row. -/
protected theorem bind {first : Session α} {rest : α → Session β} {mid : Census → α → Prop}
    (meets : first.Meets K mid refuse)
    (next : ∀ L a, K ≤ L → mid L a → (rest a).Meets L post refuse) :
    (first >>= rest).Meets K post refuse := by
  intro store start
  obtain ⟨L, le, sound, ends⟩ := meets store start
  rcases run : first.outcome store with ⟨fault | a, middle⟩
  all_goals rw [run] at sound ends
  · rw [outcome_bind_of_error run]
    exact ⟨L, le, sound, ends⟩
  · obtain ⟨M, later, ends⟩ := next L a le ends middle sound
    rw [outcome_bind_of_ok run]
    exact ⟨M, Census.le_trans le later, ends⟩

/-- Calls at consecutive numbers, in order. -/
protected theorem mapFrom {call : Nat → Session α} {start count : Nat} {R : Nat → α → Prop}
    (meets : ∀ L, K ≤ L → ∀ i, start ≤ i → i < start + count →
      (call i).Meets L (fun _ ↦ R i) refuse) :
    (mapFrom start count call).Meets K
      (fun _ ↦ List.Forall₂ R (List.range' start count)) refuse := by
  rw [mapFrom_eq_mapM]
  induction count generalizing K start with
  | zero => exact .pure .nil
  | succ count ih =>
    rw [List.range'_succ, List.mapM_cons]
    refine .bind (meets K (Census.le_refl K) start (Nat.le_refl _) (by omega)) fun L b le here ↦ ?_
    refine .bind (ih fun M later i above inside ↦
      meets M (Census.le_trans le later) i (by omega) (by omega)) fun M bs _ chain ↦ ?_
    exact .pure (.cons here chain)

/-- Calls at consecutive numbers until one does not hold. -/
protected theorem allFrom {call : Nat → Session Bool} {start count : Nat}
    (meets : ∀ L, K ≤ L → ∀ i, start ≤ i → i < start + count →
      (call i).Meets L (fun _ _ ↦ True) refuse) :
    (allFrom start count call).Meets K (fun _ _ ↦ True) refuse := by
  induction count generalizing K start with
  | zero => exact .pure trivial
  | succ count ih =>
    refine .bind (meets K (Census.le_refl K) start (Nat.le_refl _) (by omega)) fun L b le _ ↦ ?_
    split
    · exact ih fun M later i above inside ↦
        meets M (Census.le_trans le later) i (by omega) (by omega)
    · exact .pure trivial

/-! #### Checks, queries, the store -/

section Checks

variable {check : Except Error α} {attempt : Except Fault α} {asked : Query α}
  {rest : α → Session β}

theorem check_bind (passed : ∀ a, check = .ok a → (rest a).Meets K post refuse)
    (refused : ∀ cause, check = .error cause → refuse (.error cause)) :
    (liftM check >>= rest).Meets K post refuse := by
  rcases check with cause | a
  · exact Meets.throw (refused cause rfl)
  · exact passed a rfl

theorem check_ok_bind {a : α} (passed : check = .ok a) (next : (rest a).Meets K post refuse) :
    (liftM check >>= rest).Meets K post refuse := by
  rw [passed]
  exact next

theorem attempt_ok_bind {a : α} (passed : attempt = .ok a) (next : (rest a).Meets K post refuse) :
    (liftM attempt >>= rest).Meets K post refuse := by
  rw [passed]
  exact next

theorem attempt_bind (passed : ∀ a, attempt = .ok a → (rest a).Meets K post refuse)
    (refused : ∀ fault, attempt = .error fault → refuse fault) :
    (liftM attempt >>= rest).Meets K post refuse := by
  rcases attempt with fault | a
  · exact Meets.throw (refused fault rfl)
  · exact passed a rfl

/-- A query in a session reads what is loaded at the time. -/
theorem query {query : Query β} (meets : ∀ loads, query.Meets K loads post refuse) :
    (liftM query : Session β).Meets K post refuse := by
  intro store start
  obtain ⟨-, L, le, sound, ends⟩ := meets store.loads store.ledger start
  exact ⟨L, le, sound, ends⟩

theorem query_bind {mid : Census → α → Prop} (meets : ∀ loads, asked.Meets K loads mid refuse)
    (next : ∀ L a, K ≤ L → mid L a → (rest a).Meets L post refuse) :
    (liftM asked >>= rest).Meets K post refuse := .bind (.query meets) next

end Checks

/-- **Sizes at consecutive numbers are added up in step with plain ones.** -/
protected theorem sumFrom {call : Nat → Session Nat} {plainly : Nat → Except Fault Nat} {S : Prop}
    {start count : Nat}
    (meets : ∀ L, K ≤ L → ∀ i, start ≤ i → i < start + count → (call i).Meets L
      (fun _ size ↦ plainly i = .ok size) (fun fault ↦ S → plainly i = .error fault)) :
    (sumFrom start count call).Meets K
      (fun _ sum ↦ sumOver (List.range' start count) plainly = .ok sum)
      (fun fault ↦ S → sumOver (List.range' start count) plainly = .error fault) := by
  rw [sumFrom_eq_sumOver]
  simp only [sumOver]
  generalize 0 = total
  induction count generalizing K start total with
  | zero => exact .pure rfl
  | succ count ih =>
    simp only [List.range'_succ, List.foldlM_cons, bind_assoc]
    refine .bind ((meets K (Census.le_refl K) start (Nat.le_refl _) (by omega)).refusing
      fun _ refused holds ↦ ?_) fun L size le here ↦ ?_
    · rw [refused holds]
      rfl
    · refine .attempt_bind (fun sum passed ↦ ?_) fun fault beyond _ ↦ ?_
      · refine (ih (fun M later i above inside ↦ meets M (Census.le_trans le later) i (by omega)
          (by omega)) sum).mono (fun M n _ same ↦ ?_) fun fault refused holds ↦ ?_
        · rw [here]
          simpa [passed] using same
        · rw [here]
          simpa [passed] using refused holds
      · rw [here]
        simp [beyond]

theorem get_bind {rest : Store → Session β} (next : ∀ store : Store,
    Sound K store.loads store.ledger → (rest store).Meets K post refuse) :
    (get >>= rest).Meets K post refuse :=
  fun store start ↦ next store start store start

theorem fresh_bind {rest : Nat → Session β} (next : ∀ n, (rest n).Meets K post refuse) :
    (liftM Ledger.fresh >>= rest).Meets K post refuse :=
  of_step fun store sound ↦ ⟨rest store.ledger.next, _, K, rfl, Census.le_refl K, sound.fresh,
    next _⟩

theorem issue_bind {rest : Nat → Session β}
    (next : ∀ n, n ∉ K.issued → (rest n).Meets (K.issue n) post refuse) :
    (liftM Ledger.fresh >>= rest).Meets K post refuse :=
  of_step fun store sound ↦ ⟨rest store.ledger.next, _, K.issue store.ledger.next, rfl,
    K.le_issue _, sound.issue, next _ sound.next_not_mem_issued⟩

theorem storages_bind {rest : Slices.Storages → Session β}
    (next : ∀ storages, (∀ n ∈ storages.arrays, n ∉ K.issued) →
      (rest storages).Meets (K.issueAll storages) post refuse) :
    (liftM Slices.Storages.fresh >>= rest).Meets K post refuse :=
  of_step fun store sound ↦ ⟨rest ⟨store.ledger.next, store.ledger.next + 1, store.ledger.next + 2⟩,
    _, _, rfl, K.le_issueAll _, sound.issueAll, next _ sound.storages_not_mem_issued⟩

theorem mint_bind {rest : SourceId → Session β}
    (next : ∀ n, K.floor ≤ n → (K.raise (n + 1)).Spare ⟨.own, n⟩ →
      (rest ⟨.own, n⟩).Meets (K.raise (n + 1)) post refuse) :
    (liftM Ledger.mint >>= rest).Meets K post refuse :=
  of_step fun store sound ↦ ⟨rest ⟨.own, store.ledger.minted⟩, _,
    K.raise (store.ledger.minted + 1), rfl, K.le_raise _, sound.mint,
    next _ sound.sourced.floor sound.sourced.spare_mint⟩

theorem fresh_add_bind {rest : Nat → Session β} (build : Nat → Block)
    (own : ∀ n, (build n).identity? = some n) (parts : ∀ n, ∀ c ∈ (build n).parts, c ∈ K)
    (formed : ∀ n, (build n).Formed) (stored : ∀ n, (build n).Stored K.issued)
    (admitted : ∀ n, K.Admits (build n))
    (next : ∀ n, (rest n).Meets (K.add (build n)) post refuse) :
    (liftM Ledger.fresh >>= rest).Meets K post refuse :=
  of_step fun store sound ↦ ⟨rest store.ledger.next, _, K.add (build store.ledger.next), rfl,
    K.le_add _, sound.add_fresh (own _) (parts _) (formed _) (stored _) (admitted _), next _⟩

/-- What is loaded is seen. -/
theorem get_note_bind {rest : Store → Session β} (next : ∀ store : Store,
    Sound K store.loads store.ledger → (rest store).Meets (K.note store.loads) post refuse) :
    (get >>= rest).Meets K post refuse :=
  of_step fun store sound ↦ ⟨rest store, store, _, rfl, sound.le_note, sound.note,
    next store sound⟩

/-- A window that is loaded counts as a call under its cell. -/
theorem call_window_bind {root : Root} {window : Window} {windows : List Window} {payload : Block}
    {rest : Nat → Session β} (mem : .lazy ⟨root, window :: windows⟩ payload ∈ K)
    (next : ∀ n, (rest n).Meets K post refuse) :
    (Session.call window.cell >>= rest).Meets K post refuse :=
  of_step fun store sound ↦ ⟨rest (store.loads.callCount window.cell), _, K, rfl, Census.le_refl K,
    sound.call (sound.delivered.call_window sound.distinct sound.spent mem), next _⟩

/-- **A window of the promised length is put into its cell**, once what it was taken of is
loaded. -/
theorem fill_window {root : Root} {window : Window} {windows : List Window} {payload : Block}
    (content : Within payload.depth) (mem : .lazy ⟨root, window :: windows⟩ payload ∈ K)
    (present : content.1 ∈ K)
    (mirrors : content.1.Mirrors (.lazy ⟨root, window :: windows⟩ payload))
    (cut : content.1.CutFrom payload)
    (source : (K.seen.get? (Promise.cell ⟨root, windows⟩)).isSome) :
    (Session.fill window.cell window.length content).Meets K
      (fun L c ↦ c.1 ∈ L ∧ c.1.Mirrors (.lazy ⟨root, window :: windows⟩ payload) ∧
        c.1.CutFrom payload ∧ (L.seen.get? window.cell).isSome)
      (fun _ ↦ False) := by
  intro store sound
  have counted : content.1.positionCount = window.length := mirrors.count
  rw [outcome_fill content counted]
  obtain ⟨from_source, held⟩ := Option.isSome_iff_exists.1 source
  have filled := sound.delivered.fill sound.distinct mem
    (Option.isSome_iff_exists.2 ⟨_, sound.delivered.past _ _ held⟩) content.2
  have later := sound.publish_content mem present mirrors cut filled
  refine ⟨_, later.le_note, later.note, present, mirrors, cut, ?_⟩
  show ((store.loads.payloads.publish window.cell content.1).get? window.cell).isSome
  simp [Slots.get?_publish]

end Meets

end Session

end BatchColumn
