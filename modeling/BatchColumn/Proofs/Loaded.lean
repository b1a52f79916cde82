import BatchColumn.Proofs.Worlds

/-!
# Blocks that are loaded throughout

A block is loaded throughout if nothing is left to load in it. It stays so (`isLoaded_of_grows`),
and it is found as it was then (`Session.Meets.reveal_bind`). No call on blocks that are loaded
throughout calls a loader (`Call.run_quiet`): one that reads them looks at what they have loaded,
layer by layer (`Block.quiet_of_faces`), and the others cannot load. So the value of every position
is read, whether or not the promises in the block would be kept once more (`Block.value_answers`).
-/

namespace BatchColumn

variable {K : Census} {loads now : Loads} {α β : Type}

/-! ### What is loaded is found as it was -/

namespace Block

theorem exists_face_of_isLoaded {b : Block} (loaded : b.isLoaded loads = true) :
    ∃ face, b.face? loads = some face ∧ face.toBlock.isLoaded loads = true := by
  rw [isLoaded] at loaded
  rcases shown : b.face? loads with - | face
  · rw [shown] at loaded
    cases loaded
  · rw [shown] at loaded
    refine ⟨face, rfl, ?_⟩
    rcases face with leaf | leaf | ⟨lists, elements, below⟩ | ⟨keys, entries, below⟩
    all_goals rw [Face.toBlock, isLoaded, face?]
    · exact loaded
    · exact loaded

@[simp] theorem isLoaded_array (loads : Loads) (lists : Lists) (elements : Block) :
    (array lists elements).isLoaded loads = elements.isLoaded loads := by
  rw [isLoaded, face?]

@[simp] theorem isLoaded_dictionary (loads : Loads) (keys : Keys) (entries : Block) :
    (dictionary keys entries).isLoaded loads = entries.isLoaded loads := by
  rw [isLoaded, face?]

/-- A lazy block is loaded throughout if its content is. -/
theorem isLoaded_lazy (loads : Loads) (promise : Promise) (payload : Block) :
    («lazy» promise payload).isLoaded loads =
      (loads.content? promise.cell payload.depth).any fun content ↦ content.1.isLoaded loads := by
  rw [isLoaded, face?]
  rcases held : loads.content? promise.cell payload.depth with - | content
  · rfl
  · rw [Option.any_some, isLoaded]
    dsimp only
    generalize content.1.face? loads = face
    rcases face with - | face
    · rfl
    · cases face <;> rfl

@[simp] theorem isLoaded_withMemory (loads : Loads) (memory : Nat) (b : Block) :
    (b.withMemory memory).isLoaded loads = b.isLoaded loads := by
  rcases b with leaf | leaf | ⟨lists, elements⟩ | ⟨keys, entries⟩ | ⟨promise, payload⟩
  case array => rw [withMemory, isLoaded_array, isLoaded_array]
  case dictionary => rw [withMemory, isLoaded_dictionary, isLoaded_dictionary]
  all_goals rfl

/-- What is loaded throughout stays so. -/
theorem isLoaded_of_grows (grows : loads.payloads.Grows now.payloads) {b : Block}
    (loaded : b.isLoaded loads = true) : b.isLoaded now = true := by
  induction b using Block.walk with
  | step b ih =>
    rw [isLoaded] at loaded ⊢
    rcases shown : b.face? loads with - | face
    · rw [shown] at loaded
      cases loaded
    · rw [shown] at loaded
      rw [face?_of_grows grows shown]
      rcases face with leaf | leaf | ⟨lists, elements, below⟩ | ⟨keys, entries, below⟩
      · rfl
      · rfl
      · exact ih elements below loaded
      · exact ih entries below loaded

/-- What is in the way of a gather is not loaded. -/
theorem supportsGather_of_isLoaded {b : Block} (loaded : b.isLoaded loads = true) :
    b.supportsGather loads = true := by
  induction b using Block.walk with
  | step b ih =>
    rw [isLoaded] at loaded
    rw [supportsGather]
    split at loaded
    next => cases loaded
    next => rfl
    next => rfl
    next lists elements below _ => exact ih elements below loaded
    next keys entries below _ => exact ih entries below loaded

/-- What is loaded comes to the same when more is. -/
theorem isNested_eq_of_grows (grows : loads.payloads.Grows now.payloads) {b : Block}
    (loaded : b.isLoaded loads = true) : b.isNested now = b.isNested loads := by
  obtain ⟨face, shown, -⟩ := exists_face_of_isLoaded loaded
  rw [isNested, isNested, resolved?, resolved?, shown, face?_of_grows grows shown]

/-- What is loaded is revealed without loading anything. -/
theorem outcome_reveal {b : Block} {store : Store} {face : Face b.depth}
    (shown : b.face? store.loads = some face) : b.reveal.outcome store = (.ok face, store) := by
  induction b using Block.walk with
  | step b ih =>
    rcases b with leaf | leaf | ⟨lists, elements⟩ | ⟨keys, entries⟩ | ⟨⟨root, windows⟩, payload⟩
    all_goals
      rw [face?] at shown
      rw [reveal]
    case «lazy» =>
      rcases held : store.loads.content? (Promise.cell ⟨root, windows⟩) payload.depth with
        - | content
      · rw [held] at shown
        cases shown
      · rw [held] at shown
        obtain ⟨inner, found, widened⟩ := Option.map_eq_some_iff.1 shown
        have loads : (Promise.load ⟨root, windows⟩ payload).outcome store = (.ok content, store) :=
          Root.outcome_load_of_content held
        rw [Session.outcome_bind_of_ok loads,
          Session.outcome_bind_of_ok (ih content.1 (Nat.lt_succ_of_le content.2) found), ← widened]
        rfl
    all_goals
      obtain rfl := Option.some.inj shown
      rfl

end Block

/-- Where a block was seen to be loaded, it is still what it was then. -/
theorem Session.Meets.reveal_bind {b : Block} {face : Face b.depth}
    {rest : Face b.depth → Session β} {post : Census → β → Prop} {refuse : Fault → Prop}
    (seen : loads.payloads.Grows K.seen) (shown : b.face? loads = some face)
    (next : (rest face).Meets K post refuse) : (b.reveal >>= rest).Meets K post refuse := by
  intro store sound
  have still := Block.face?_of_grows (seen.trans sound.delivered.past) shown
  rw [Session.outcome_bind_of_ok (Block.outcome_reveal still)]
  exact next store sound

/-! ### Calls that call no loader -/

/-- From this state of what is loaded, the session calls no loader. -/
def Session.Quiet (session : Session α) (loads : Loads) : Prop :=
  ∀ ledger, (session.outcome ⟨loads, ledger⟩).2.loads = loads

namespace Session.Quiet

variable {first : Session α} {rest : α → Session β}

protected theorem pure (a : α) : (pure a : Session α).Quiet loads := fun _ ↦ rfl

protected theorem throw (fault : Fault) : (throw fault : Session α).Quiet loads := fun _ ↦ rfl

/-- A query cannot load. -/
theorem query (query : Query α) : (liftM query : Session α).Quiet loads := fun _ ↦ rfl

/-- What gives out an identity cannot load. -/
theorem lift (action : StateM Ledger α) : (liftM action : Session α).Quiet loads := fun _ ↦ rfl

theorem attempt (attempt : Except Fault α) : (liftM attempt : Session α).Quiet loads := by
  intro ledger
  rw [outcome_attempt]

theorem check (check : Except Error α) : (liftM check : Session α).Quiet loads := by
  rcases check with cause | a
  · exact .throw _
  · exact .pure a

/-- Two steps in a row: the second starts from the same loads. -/
protected theorem bind (quiet : first.Quiet loads) (next : ∀ a, (rest a).Quiet loads) :
    (first >>= rest).Quiet loads := by
  intro ledger
  have same := quiet ledger
  rcases run : first.outcome ⟨loads, ledger⟩ with ⟨fault | a, ⟨later, after⟩⟩
  all_goals
    rw [run] at same
    obtain rfl : later = loads := same
  · rw [outcome_bind_of_error run]
  · rw [outcome_bind_of_ok run]
    exact next a after

/-- What follows a query may rest on how it ended. -/
theorem query_bind {query : Query α} (next : ∀ a ledger after,
    query.outcome loads ledger = (.ok a, after) → (rest a).Quiet loads) :
    (liftM query >>= rest).Quiet loads := by
  intro ledger
  rcases ended : query.outcome loads ledger with ⟨fault | a, after⟩
  · have run : (liftM query : Session α).outcome ⟨loads, ledger⟩ = (.error fault, ⟨loads, after⟩) :=
      outcome_query ended
    rw [outcome_bind_of_error run]
  · have run : (liftM query : Session α).outcome ⟨loads, ledger⟩ = (.ok a, ⟨loads, after⟩) :=
      outcome_query ended
    rw [outcome_bind_of_ok run]
    exact next a ledger after ended after

theorem get_bind {rest : Store → Session β} (next : ∀ ledger, (rest ⟨loads, ledger⟩).Quiet loads) :
    (get >>= rest).Quiet loads :=
  fun ledger ↦ next ledger ledger

/-- What is loaded throughout is revealed quietly. -/
theorem reveal_bind {b : Block} {rest : Face b.depth → Session β}
    (loaded : b.isLoaded loads = true)
    (next : ∀ face, b.face? loads = some face → face.toBlock.isLoaded loads = true →
      (rest face).Quiet loads) : (b.reveal >>= rest).Quiet loads := by
  obtain ⟨face, shown, below⟩ := Block.exists_face_of_isLoaded loaded
  intro ledger
  rw [outcome_bind_of_ok (Block.outcome_reveal shown)]
  exact next face shown below ledger

/-- Calls at consecutive numbers. -/
theorem mapFrom {call : Nat → Session α} (quiet : ∀ i, (call i).Quiet loads) (start count : Nat) :
    (mapFrom start count call).Quiet loads := by
  have after : ∀ answers, (mapAfter call start count answers).Quiet loads := by
    induction count generalizing start with
    | zero => exact fun answers ↦ .pure _
    | succ count ih => exact fun answers ↦ .bind (quiet start) fun a ↦ ih (start + 1) _
  exact after []

/-- Sizes added up at consecutive numbers. -/
theorem sumFrom {call : Nat → Session Nat} (quiet : ∀ i, (call i).Quiet loads)
    (start count : Nat) : (sumFrom start count call).Quiet loads := by
  have after : ∀ total, (sumAfter call start count total).Quiet loads := by
    induction count generalizing start with
    | zero => exact fun total ↦ .pure _
    | succ count ih =>
      exact fun total ↦ .bind (quiet start) fun size ↦ .bind (.attempt _) fun sum ↦
        ih (start + 1) sum
  exact after 0

theorem allFrom {call : Nat → Session Bool} (quiet : ∀ i, (call i).Quiet loads)
    (start count : Nat) : (allFrom start count call).Quiet loads := by
  induction count generalizing start with
  | zero => exact .pure _
  | succ count ih =>
    refine .bind (quiet start) fun holds ↦ ?_
    split
    · exact ih (start + 1)
    · exact .pure _

/-- A call that answers with one block. -/
theorem one {session : Session Block} (quiet : session.Quiet loads) :
    (do return [← session] : Session (List Block)).Quiet loads :=
  quiet.bind fun _ ↦ .pure _

/-- A call whose answer is forgotten. -/
theorem discarded (quiet : first.Quiet loads) : (discard first).Quiet loads :=
  quiet.bind fun _ ↦ .pure _

end Session.Quiet

namespace Block

/-- **A reader of blocks that are loaded throughout is quiet** if it is so at each face, given that
it is quiet on the blocks below. -/
theorem quiet_of_faces {ι : Type} {read : Block → ι → Session α}
    {step : ∀ b : Block, ι → Face b.depth → Session α}
    (reveals : ∀ b i, read b i = b.reveal >>= step b i)
    (faces : ∀ b i face, face.toBlock.isLoaded loads = true →
      (∀ c j, c.depth < b.depth → c.isLoaded loads = true → (read c j).Quiet loads) →
      (step b i face).Quiet loads) {b : Block} (loaded : b.isLoaded loads = true) (i : ι) :
    (read b i).Quiet loads := by
  induction b using Block.walk generalizing i with
  | step b ih =>
    rw [reveals]
    exact .reveal_bind loaded fun face _ below ↦
      faces b i face below fun c j depth loaded ↦ ih c depth loaded j

/-- A reader that passes questions on along keys is quiet if it is so at leaves and at lists. -/
theorem quiet_of_layers {read : Block → Nat → Session α}
    {step : ∀ b : Block, Nat → Face b.depth → Session α}
    (reveals : ∀ b p, read b p = b.reveal >>= step b p)
    (ints : ∀ b p leaf, (step b p (.ints leaf)).Quiet loads)
    (slices : ∀ b p leaf, (step b p (.slices leaf)).Quiet loads)
    (array : ∀ b p lists elements below, elements.isLoaded loads = true →
      (∀ c i, c.depth ≤ elements.depth → c.isLoaded loads = true → (read c i).Quiet loads) →
      (step b p (.array lists elements below)).Quiet loads)
    (passes : ∀ b p keys entries below, step b p (.dictionary keys entries below) =
      liftM (keys.id p) >>= read entries) {b : Block} (loaded : b.isLoaded loads = true)
    (position : Nat) : (read b position).Quiet loads := by
  refine quiet_of_faces reveals (fun b p face throughout reads ↦ ?_) loaded position
  rcases face with leaf | leaf | ⟨lists, elements, below⟩ | ⟨keys, entries, below⟩
  · exact ints b p leaf
  · exact slices b p leaf
  · rw [Face.toBlock, isLoaded_array] at throughout
    exact array b p lists elements below throughout fun c i depth ↦
      reads c i (Nat.lt_of_le_of_lt depth below)
  · rw [Face.toBlock, isLoaded_dictionary] at throughout
    rw [passes]
    exact .bind (.check _) fun id ↦ reads entries id below throughout

/-- A window of what is loaded throughout is so too. -/
theorem isLoaded_of_windowWithin {b : Block} (loaded : b.isLoaded loads = true)
    (grows : loads.payloads.Grows now.payloads) {offset length : Nat} {ledger after : Ledger}
    {w : Within b.depth}
    (run : (b.windowWithin offset length).outcome now ledger = (.ok w, after)) :
    w.1.isLoaded loads = true := by
  induction b using Block.walk generalizing ledger after with
  | step b ih =>
    rcases b with leaf | leaf | ⟨lists, elements⟩ | ⟨keys, entries⟩ | ⟨promise, payload⟩
    all_goals rw [windowWithin] at run
    case ints =>
      obtain ⟨_, _, _, run⟩ := Query.exists_of_outcome_bind run
      obtain ⟨window, _, _, ⟨⟩⟩ := Query.exists_of_outcome_bind run
      rw [isLoaded, face?]
    case slices =>
      obtain ⟨_, _, _, run⟩ := Query.exists_of_outcome_bind run
      obtain ⟨window, _, _, ⟨⟩⟩ := Query.exists_of_outcome_bind run
      rw [isLoaded, face?]
    case array =>
      obtain ⟨memory, _, _, run⟩ := Query.exists_of_outcome_bind run
      obtain ⟨window, _, _, ⟨⟩⟩ := Query.exists_of_outcome_bind run
      simpa using loaded
    case dictionary =>
      split at run
      all_goals
        obtain ⟨memory, _, _, run⟩ := Query.exists_of_outcome_bind run
        obtain ⟨window, _, _, ⟨⟩⟩ := Query.exists_of_outcome_bind run
        simpa using loaded
    case «lazy» =>
      obtain ⟨_, _, _, run⟩ := Query.exists_of_outcome_bind run
      rw [isLoaded_lazy] at loaded
      obtain ⟨content, held, throughout⟩ := (Option.any_eq_true _ _).1 loaded
      rw [Query.outcome_read_bind, Loads.content?_of_grows grows held] at run
      obtain ⟨inner, _, run, ⟨⟩⟩ := Query.exists_of_outcome_bind run
      exact ih content.1 (Nat.lt_succ_of_le content.2) throughout run

variable {b : Block} (loaded : b.isLoaded loads = true)

include loaded

theorem isNull_quiet (position : Nat) : (b.isNull position).Quiet loads := by
  refine quiet_of_faces (fun b p ↦ isNull.eq_def b p)
    (fun b p face below reads ↦ ?_) loaded position
  rcases face with leaf | leaf | ⟨lists, elements, depth⟩ | ⟨keys, entries, depth⟩
  · exact .attempt _
  · exact .attempt _
  · exact .attempt _
  · refine .bind (.check _) fun id ↦ .get_bind fun ledger ↦ ?_
    split
    · exact reads entries id depth (by simpa [Face.toBlock] using below)
    · exact .pure _

theorem readInt_quiet (width : Width) (position : Nat) :
    (b.readInt width position).Quiet loads :=
  quiet_of_layers (fun b p ↦ readInt.eq_def b width p) (fun _ _ _ ↦ .attempt _)
    (fun _ _ _ ↦ .throw _) (fun _ _ _ _ _ _ _ ↦ .throw _) (fun _ _ _ _ _ ↦ rfl) loaded position

theorem readSlice_quiet (position : Nat) : (b.readSlice position).Quiet loads :=
  quiet_of_layers readSlice.eq_def (fun _ _ _ ↦ .throw _) (fun _ _ _ ↦ .attempt _)
    (fun _ _ _ _ _ _ _ ↦ .throw _) (fun _ _ _ _ _ ↦ rfl) loaded position

theorem sliceLength_quiet (position : Nat) : (b.sliceLength position).Quiet loads :=
  quiet_of_layers sliceLength.eq_def (fun _ _ _ ↦ .throw _) (fun _ _ _ ↦ .attempt _)
    (fun _ _ _ _ _ _ _ ↦ .throw _) (fun _ _ _ _ _ ↦ rfl) loaded position

theorem readList_quiet (position : Nat) : (b.readList position).Quiet loads :=
  quiet_of_layers readList.eq_def (fun _ _ _ ↦ .throw _) (fun _ _ _ ↦ .throw _)
    (fun _ _ _ _ _ _ _ ↦ .bind (.check _) fun _ ↦ .query _) (fun _ _ _ _ _ ↦ rfl) loaded position

theorem dataSize_quiet (position : Nat) : (b.dataSize position).Quiet loads := by
  refine quiet_of_layers dataSize.eq_def (fun _ _ _ ↦ .attempt _) (fun _ _ _ ↦ .attempt _)
    (fun b p lists elements below loaded reads ↦ ?_) (fun _ _ _ _ _ ↦ rfl) loaded position
  refine .bind (.attempt _) fun null ↦ ?_
  split
  · exact .pure _
  · exact .bind (.check _) fun span ↦
      .sumFrom (fun i ↦ reads elements i (Nat.le_refl _) loaded) _ _

/-- The values of a list are read off a window of the elements. -/
theorem value_quiet (position : Nat) : (b.value position).Quiet loads := by
  refine quiet_of_layers value.eq_def (fun _ _ _ ↦ .attempt _) (fun _ _ _ ↦ .attempt _)
    (fun b p lists elements below loaded reads ↦ ?_) (fun _ _ _ _ _ ↦ rfl) loaded position
  refine .bind (.attempt _) fun null ↦ ?_
  split
  · exact .pure _
  · refine .bind (.check _) fun span ↦ .query_bind fun list ledger after run ↦ ?_
    have throughout := isLoaded_of_windowWithin loaded (fun _ _ ↦ id) run
    exact .bind (.mapFrom (fun i ↦ reads list.1 i list.2 throughout) _ _) fun _ ↦ .pure _

theorem values_quiet : b.values.Quiet loads :=
  .mapFrom (value_quiet loaded) 0 b.positionCount

theorem sameValues_quiet {other : Block} (throughout : other.isLoaded loads = true) :
    (b.sameValues other).Quiet loads := by
  rw [sameValues]
  split
  · exact .pure _
  · exact .allFrom (fun position ↦ .bind (value_quiet loaded position) fun _ ↦
      .bind (value_quiet throughout position) fun _ ↦ .pure _) _ _

theorem copy_quiet (offset length : Nat) : (b.copy offset length).Quiet loads := by
  refine quiet_of_faces (fun b (region : Nat × Nat) ↦ copy.eq_def b region.1 region.2)
    (fun b region face throughout copies ↦ ?_) loaded (offset, length)
  rcases face with leaf | leaf | ⟨lists, elements, below⟩ | ⟨keys, entries, below⟩
  · exact .bind (.check _) fun _ ↦ .bind (.lift _) fun _ ↦ .bind (.lift _) fun _ ↦
      .bind (.attempt _) fun _ ↦ .pure _
  · exact .bind (.check _) fun _ ↦ .bind (.lift _) fun _ ↦ .bind (.attempt _) fun _ ↦ .pure _
  · rw [Face.toBlock, isLoaded_array] at throughout
    exact .bind (.check _) fun span ↦
      .bind (copies elements (span.1, span.2 - span.1) below throughout) fun _ ↦
        .bind (.query _) fun _ ↦ .pure _
  · rw [Face.toBlock, isLoaded_dictionary] at throughout
    have entry : ∀ offset length, (entries.copy offset length).Quiet loads :=
      fun offset length ↦ copies entries (offset, length) below throughout
    refine .bind (.check _) fun _ ↦ .get_bind fun ledger ↦ ?_
    dsimp only
    split
    · exact entry 0 0
    · split
      · exact .bind (.check _) fun first ↦ entry first _
      · refine .get_bind fun ledger ↦ ?_
        split
        · exact .query _
        · exact .bind (.lift _) fun _ ↦ .bind (.query _) fun _ ↦ .bind (.query _) fun _ ↦ .pure _

theorem single_quiet (position : Nat) : (b.single position).Quiet loads := by
  refine quiet_of_layers single.eq_def (fun _ p leaf ↦ ?_) (fun _ p leaf ↦ ?_)
    (fun b p lists elements below loaded _ ↦ ?_) (fun _ _ _ _ _ ↦ rfl) loaded position
  · exact .bind (.check _) fun _ ↦ copy_quiet (by rw [isLoaded, face?]) p 1
  · exact .bind (.check _) fun _ ↦ copy_quiet (by rw [isLoaded, face?]) p 1
  · exact .bind (.check _) fun span ↦ .bind (copy_quiet loaded _ _) fun _ ↦
      .bind (.attempt _) fun _ ↦ .bind (.query _) fun _ ↦ .pure _

/-- What is loaded throughout is duplicated. -/
theorem materialise_quiet : b.materialise.Quiet loads := by
  refine quiet_of_faces (fun b (_ : Unit) ↦ materialise.eq_def b)
    (fun b _ face throughout _ ↦ ?_) loaded ()
  rcases face with leaf | leaf | ⟨lists, elements, below⟩ | ⟨keys, entries, below⟩
  · exact .pure _
  · exact .pure _
  · rw [Face.toBlock, isLoaded_array] at throughout
    refine .get_bind fun ledger ↦ ?_
    dsimp only
    rw [if_pos throughout]
    exact .bind (.query _) fun _ ↦ .pure _
  · rw [Face.toBlock, isLoaded_dictionary] at throughout
    refine .get_bind fun ledger ↦ ?_
    dsimp only
    rw [if_pos throughout]
    exact .bind (.query _) fun _ ↦ .pure _

omit loaded in
/-- A promise that is kept is not asked for again. -/
theorem load_quiet {promise : Promise} {payload : Block}
    (loaded : («lazy» promise payload).isLoaded loads = true) :
    (promise.load payload).Quiet loads := by
  intro ledger
  rw [isLoaded_lazy] at loaded
  obtain ⟨content, held, -⟩ := (Option.any_eq_true _ _).1 loaded
  rw [show (promise.load payload).outcome ⟨loads, ledger⟩ = (.ok content, ⟨loads, ledger⟩) from
    Root.outcome_load_of_content held]

end Block

theorem Question.ask_quiet {question : Question}
    (loaded : ∀ b ∈ question.operands, b.isLoaded loads = true) : question.ask.Quiet loads := by
  cases question with
  | isNull b p => exact .discarded (Block.isNull_quiet (loaded b (by simp [operands])) p)
  | value b p => exact .discarded (Block.value_quiet (loaded b (by simp [operands])) p)
  | values b => exact .discarded (Block.values_quiet (loaded b (by simp [operands])))
  | sameValues b c =>
    exact .discarded
      (Block.sameValues_quiet (loaded b (by simp [operands])) (loaded c (by simp [operands])))
  | dataSize b p => exact .discarded (Block.dataSize_quiet (loaded b (by simp [operands])) p)
  | readInt b width p =>
    exact .discarded (Block.readInt_quiet (loaded b (by simp [operands])) width p)
  | readSlice b p => exact .discarded (Block.readSlice_quiet (loaded b (by simp [operands])) p)
  | sliceLength b p =>
    exact .discarded (Block.sliceLength_quiet (loaded b (by simp [operands])) p)
  | size b extent => exact .discarded (.query _)
  | logicalSize b => exact .discarded (.query _)
  | stats keys entries => exact .discarded (.query _)
  | isCompact keys entries => exact .discarded (.query _)

/-- **A call on blocks that are loaded throughout calls no loader.** -/
theorem Call.run_quiet {call : Call} (loaded : ∀ b ∈ call.operands, b.isLoaded loads = true) :
    call.run.Quiet loads := by
  cases call with
  | ints width values nulls => exact .one (.query _)
  | intsOfOptions width values => exact .one (.query _)
  | slices bytes offsets nulls => exact .one (.query _)
  | slicesOfOptions values => exact .one (.query _)
  | array elements offsets nulls => exact .one (.query _)
  | dictionary entries ids source? =>
    rcases source? with - | source
    · exact .bind (.lift _) fun source ↦ .one (.query _)
    · exact .one (.query _)
  | defer payload count refusal => exact .one (.query _)
  | duplicate b => exact .one (.query _)
  | window b offset length => exact .one (.query _)
  | copy b offset length => exact .one (Block.copy_quiet (loaded b (by simp [operands])) _ _)
  | gather b positions offset length => exact .one (.query _)
  | select b positions offset length => exact .one (.query _)
  | single b position => exact .one (Block.single_quiet (loaded b (by simp [operands])) _)
  | list b position => exact .one (Block.readList_quiet (loaded b (by simp [operands])) _)
  | compact keys entries => exact .bind (.query _) fun _ ↦ .pure _
  | materialise b => exact .one (Block.materialise_quiet (loaded b (by simp [operands])))
  | load promise payload =>
    exact .bind (Block.load_quiet (loaded (.lazy promise payload) (by simp [operands])))
      fun _ ↦ .pure _
  | children b => exact .get_bind fun _ ↦ .pure _
  | ask question => exact .bind (Question.ask_quiet loaded) fun _ ↦ .pure _

/-! ### Reading what is loaded -/

/-- What is answered may be told from how the query ends. -/
theorem Query.Meets.telling {query : Query α} {post : Census → α → Prop} {refuse : Fault → Prop}
    {told : α → Prop} (meets : query.Meets K loads post refuse)
    (tells : ∀ ledger a after, query.outcome loads ledger = (.ok a, after) → told a) :
    query.Meets K loads (fun L a ↦ post L a ∧ told a) refuse := by
  intro ledger start
  obtain ⟨grows, L, le, sound, ends⟩ := meets ledger start
  refine ⟨grows, L, le, sound, ?_⟩
  rcases run : query.outcome loads ledger with ⟨fault | a, after⟩
  all_goals rw [run] at ends
  · exact ends
  · exact ⟨ends, tells ledger a after run⟩

/-- An attempt that succeeds. -/
theorem Session.Meets.attempt_ok {attempt : Except Fault α} {a : α} {post : Census → α → Prop}
    {refuse : Fault → Prop} (passed : attempt = .ok a) (answer : post K a) :
    (liftM attempt : Session α).Meets K post refuse := by
  rw [passed]
  exact .pure answer

/-- **The value of every position is read** of a block that was seen to be loaded throughout. -/
theorem Block.value_answers {b : Block} (mem : b ∈ K) (seen : loads.payloads.Grows K.seen)
    (loaded : b.isLoaded loads = true) {position : Nat} (inside : position < b.positionCount) :
    (b.value position).Meets K (fun _ _ ↦ True) fun _ ↦ False := by
  induction b using Block.walk generalizing K position with
  | step b ih =>
    obtain ⟨face, shown, throughout⟩ := exists_face_of_isLoaded loaded
    refine .of_sound fun store sound ↦ ?_
    obtain ⟨present, mirrors⟩ :=
      sound.face mem (face?_of_grows (seen.trans sound.delivered.past) shown)
    have formed := sound.formed _ present
    have inside := inside.trans_eq mirrors.count.symm
    rw [value]
    refine .reveal_bind seen shown ?_
    rcases face with leaf | leaf | ⟨lists, elements, below⟩ | ⟨keys, entries, below⟩
    · obtain ⟨datum, found⟩ := sound.exists_datum present trivial inside
      have value : leaf.value position = .ok datum.value := by
        rw [Ints.value_eq formed, show leaf.datum? position = some datum from found]
        rfl
      exact .attempt_ok value trivial
    · obtain ⟨datum, found⟩ := sound.exists_datum present trivial inside
      have value : leaf.value position = .ok datum.value := by
        rw [Slices.value_eq formed, show leaf.datum? position = some datum from found]
        rfl
      exact .attempt_ok value trivial
    · rw [Face.toBlock, isLoaded_array] at throughout
      have formed : lists.Intact elements.positionCount := formed
      have inside : position < lists.count := inside
      refine .attempt_ok_bind (formed.isNull_eq_ok inside) ?_
      split
      · exact .pure trivial
      · refine .check_ok_bind (Lists.span_eq_ok inside) ?_
        have fits := formed.span_le_size (show position + 1 ≤ lists.count from inside)
        -- The list is a window of elements that are loaded throughout, and so are its values.
        refine .query_bind (fun now ↦ .of_sound fun ledger later ↦ ((windowWithin_meets
          (sound.elements_mem present) _ _).telling fun ledger list after run ↦
            isLoaded_of_windowWithin throughout (seen.trans later.delivered.past) run).refusing
          fun _ refused ↦ refused.2 fits) fun L list le shown ↦ ?_
        obtain ⟨window, throughout⟩ := shown
        have depth : list.1.depth < b.depth := Nat.lt_of_le_of_lt list.2 below
        refine .bind (.mapFrom (R := fun _ _ ↦ True) fun M later i _ room ↦ ?_)
          fun _ _ _ _ ↦ .pure trivial
        exact ih list.1 depth (Census.mem_of_le later window.mem)
          (seen.trans (Census.le_trans le later).seen) throughout (by omega)
    · rw [Face.toBlock, isLoaded_dictionary] at throughout
      obtain ⟨id, listed⟩ := keys.exists_getElem?_toList inside
      refine .check_ok_bind (Keys.id_eq_ok listed) ?_
      exact ih entries below (sound.entries_mem present) seen throughout
        (formed id (List.mem_of_getElem? listed))

end BatchColumn
