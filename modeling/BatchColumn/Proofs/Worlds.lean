import BatchColumn.Proofs.Copying
import BatchColumn.Proofs.Reading

/-!
# Worlds, and the calls that change them

A `World` is a store and the blocks that its user holds. A `Call` is whatever the user may do next:
make a block, work on blocks that are held, ask one of them something. The blocks that a call
answers with are held from then on, and a call that fails leaves its mark on the store like any
other (`World.after`). A world is `Reachable` if calls lead to it from nothing; calls of some kind
may also lead on from a world that was reached before (`World.Leads`).

One call keeps a world sound (`World.Counts.after`, one case for each kind of call), and so does a
run of calls (`World.Leads.counts`): the census after it is a later one, so whatever was known of
the first world is known of the last. Every reachable world is sound (`Reachable.sound`). From this
and from nothing else follows what holds in every reachable world; the first result is that **every
block of every reachable world is well formed, at every depth** (`Reachable.wellFormed_part`).
-/

namespace BatchColumn

/-- The blocks one layer below exist. -/
theorem Sound.children_mem {K : Census} {loads : Loads} {ledger : Ledger}
    (sound : Sound K loads ledger) {b : Block} (mem : b ∈ K) :
    ∀ c ∈ b.children loads, c ∈ K := by
  intro c child
  rcases b with leaf | leaf | ⟨lists, elements⟩ | ⟨keys, entries⟩ | ⟨promise, payload⟩
  · cases child
  · cases child
  · exact List.mem_singleton.1 child ▸ sound.elements_mem mem
  · exact List.mem_singleton.1 child ▸ sound.entries_mem mem
  · obtain ⟨content, held, rfl⟩ := Option.map_eq_some_iff.1 (Option.mem_toList.1 child)
    exact (sound.content mem held).1

/-! ### Calls -/

/-- What may be asked about blocks. The answer makes no block, but asking may load, and figures are
remembered. -/
inductive Question where
  /-- Is the position null? -/
  | isNull (block : Block) (position : Nat)
  /-- The value of a position. -/
  | value (block : Block) (position : Nat)
  /-- The values of all positions. -/
  | values (block : Block)
  /-- Do two blocks hold the same values? -/
  | sameValues (block other : Block)
  /-- The bytes of data at a position. -/
  | dataSize (block : Block) (position : Nat)
  /-- The integer stored at a position. -/
  | readInt (block : Block) (width : Width) (position : Nat)
  /-- The byte string stored at a position. -/
  | readSlice (block : Block) (position : Nat)
  /-- The length of the byte string stored at a position. -/
  | sliceLength (block : Block) (position : Nat)
  /-- The bytes of a block or of a region of it. -/
  | size (block : Block) (extent : Extent)
  /-- The bytes of a block in which every position has an entry of its own. -/
  | logicalSize (block : Block)
  /-- The statistics of a dictionary block. -/
  | stats (keys : Keys) (entries : Block)
  /-- Is the dictionary block compact? -/
  | isCompact (keys : Keys) (entries : Block)

namespace Question

/-- The blocks asked about. -/
def operands : Question → List Block
  | isNull block _ | value block _ | values block | dataSize block _ | readInt block _ _
  | readSlice block _ | sliceLength block _ | size block _ | logicalSize block => [block]
  | sameValues block other => [block, other]
  | stats keys entries | isCompact keys entries => [.dictionary keys entries]

/-- Asks, and forgets the answer. -/
def ask : Question → Session Unit
  | isNull block position => discard (block.isNull position)
  | value block position => discard (block.value position)
  | values block => discard block.values
  | sameValues block other => discard (block.sameValues other)
  | dataSize block position => discard (block.dataSize position)
  | readInt block width position => discard (block.readInt width position)
  | readSlice block position => discard (block.readSlice position)
  | sliceLength block position => discard (block.sliceLength position)
  | size block extent => discard (block.sizeOf extent)
  | logicalSize block => discard block.logicalSize
  | stats keys entries => discard (keys.stats entries)
  | isCompact keys entries => discard (keys.isCompact entries)

end Question

/-- What may be done with blocks. -/
inductive Call where
  /-- Makes a leaf of integers. -/
  | ints (width : Width) (values : List Int) (nulls : Option (List Bool))
  /-- Makes a leaf of integers in which missing ones are null. -/
  | intsOfOptions (width : Width) (values : List (Option Int))
  /-- Makes a leaf of byte strings. -/
  | slices (bytes : List UInt8) (offsets : List Nat) (nulls : Option (List Bool))
  /-- Makes a leaf of byte strings in which missing ones are null. -/
  | slicesOfOptions (values : List (Option (List UInt8)))
  /-- Cuts elements into lists. -/
  | array (elements : Block) (offsets : List Nat) (nulls : Option (List Bool))
  /-- Refers to entries, under an identity that is given or minted. -/
  | dictionary (entries : Block) (ids : List Nat) (source? : Option SourceId)
  /-- Promises a payload. -/
  | defer (payload : Block) (count : Nat) (refusal : Nat → Option Error)
  /-- Duplicates a block. -/
  | duplicate (block : Block)
  /-- Takes a window. -/
  | window (block : Block) (offset length : Nat)
  /-- Copies a region. -/
  | copy (block : Block) (offset length : Nat)
  /-- Gathers positions. -/
  | gather (block : Block) (positions : List Nat) (offset length : Nat)
  /-- Selects positions. -/
  | select (block : Block) (positions : List Nat) (offset length : Nat)
  /-- Copies one position. -/
  | single (block : Block) (position : Nat)
  /-- Takes the list at a position. -/
  | list (block : Block) (position : Nat)
  /-- Compacts a dictionary block. -/
  | compact (keys : Keys) (entries : Block)
  /-- Loads a block throughout. -/
  | materialise (block : Block)
  /-- Loads what is promised. -/
  | load (promise : Promise) (payload : Block)
  /-- Takes the blocks one layer below. -/
  | children (block : Block)
  /-- Asks a question. -/
  | ask (question : Question)

namespace Call

/-- The blocks worked on. -/
def operands : Call → List Block
  | ints .. | intsOfOptions .. | slices .. | slicesOfOptions .. => []
  | array block _ _ | dictionary block _ _ | defer block _ _ | duplicate block | window block _ _
  | copy block _ _ | gather block _ _ _ | select block _ _ _ | single block _ | list block _
  | materialise block | children block => [block]
  | compact keys entries => [.dictionary keys entries]
  | load promise payload => [.lazy promise payload]
  | ask question => question.operands

/-- Offsets, and the lengths of byte strings, are numbers that an offset can be. -/
def Fits : Call → Prop
  | slices _ offsets _ | array _ offsets _ => ∀ offset ∈ offsets, offset < 2 ^ 32
  | slicesOfOptions values => ∀ octets, some octets ∈ values → octets.length < 2 ^ 32
  | _ => True

/-- An identity that is given to a dictionary block is one of these. -/
def Gives (given : Set SourceId) : Call → Prop
  | dictionary _ _ (some source) => source ∈ given
  | _ => True

theorem gives_univ (call : Call) : call.Gives .univ := by
  rw [Gives.eq_def]
  split <;> trivial

/-- The call is a selection. -/
def Selects : Call → Prop
  | select .. => True
  | _ => False

/-- Does what is called for. The answer is the blocks made. -/
def run : Call → Session (List Block)
  | ints width values nulls => return [← Block.mkInts width values nulls]
  | intsOfOptions width values => return [← Block.mkIntsOfOptions width values]
  | slices bytes offsets nulls => return [← Block.mkSlices bytes offsets nulls]
  | slicesOfOptions values => return [← Block.mkSlicesOfOptions values]
  | array elements offsets nulls => return [← elements.mkArray offsets nulls]
  | dictionary entries ids (some source) => return [← entries.mkDictionary ids source]
  | dictionary entries ids none => return [← entries.mkDictionary ids (← Ledger.mint)]
  | defer payload count refusal => return [← payload.mkLazy count refusal]
  | duplicate block => return [← block.duplicate]
  | window block offset length => return [← block.window offset length]
  | copy block offset length => return [← block.copy offset length]
  | gather block positions offset length => return [← block.copyPositions positions offset length]
  | select block positions offset length => return [← block.select positions offset length]
  | single block position => return [← block.single position]
  | list block position => return [← block.readList position]
  | compact keys entries => do
    let (compacted, others) ← keys.compact entries
    return [.dictionary compacted others]
  | materialise block => return [← block.materialise]
  | load promise payload => return [(← promise.load payload).1]
  | children block => return block.children (← get).loads
  | ask question => do
    question.ask
    return []

end Call

/-! ### Worlds -/

/-- A store, and the blocks held. -/
structure World where
  /-- The store. -/
  store : Store
  /-- The blocks, the last one made first. -/
  blocks : List Block

/-- Nothing made, nothing loaded, nothing remembered. -/
def World.empty : World := ⟨.empty, []⟩

/-- The world after a call. -/
def World.after (w : World) (call : Call) : World :=
  match call.run.outcome w.store with
  | (.ok made, store) => ⟨store, made ++ w.blocks⟩
  | (.error _, store) => ⟨store, w.blocks⟩

/-- The store after a call is what its session leaves. -/
theorem World.store_after (w : World) (call : Call) :
    (w.after call).store = (call.run.outcome w.store).2 := by
  rw [after]
  split
  next run => rw [run]
  next run => rw [run]

theorem World.after_of_outcome {w : World} {call : Call} {made : List Block} {store : Store}
    (run : call.run.outcome w.store = (.ok made, store)) :
    w.after call = ⟨store, made ++ w.blocks⟩ := by
  rw [World.after, run]

/-- What is held stays held. -/
theorem World.mem_after {w : World} {b : Block} (held : b ∈ w.blocks) (call : Call) :
    b ∈ (w.after call).blocks := by
  rw [after]
  split
  · exact List.mem_append_right _ held
  · exact held

/-- Calls lead to the world from nothing. Each works on blocks that are held at the time. -/
inductive Reachable : World → Prop
  | empty : Reachable .empty
  | after {w : World} {call : Call} : Reachable w → (∀ b ∈ call.operands, b ∈ w.blocks) →
      call.Fits → Reachable (w.after call)

/-- Allowed calls lead from one world to another. Each works on blocks that are held at the time. -/
inductive World.Leads (allowed : Call → Prop) (w₀ : World) : World → Prop
  | refl : Leads allowed w₀ w₀
  | after {w : World} {call : Call} : Leads allowed w₀ w → (∀ b ∈ call.operands, b ∈ w.blocks) →
      call.Fits → allowed call → Leads allowed w₀ (w.after call)

/-- A run of calls leads from a reachable world to a reachable one. -/
theorem World.Leads.reachable {allowed : Call → Prop} {w₀ w : World} (leads : w₀.Leads allowed w)
    (reachable : Reachable w₀) : Reachable w := by
  induction leads with
  | refl => exact reachable
  | after _ held fits _ ih => exact .after ih held fits

/-- More calls may be allowed. -/
theorem World.Leads.mono {allowed more : Call → Prop} (le : ∀ call, allowed call → more call)
    {w₀ w : World} (leads : w₀.Leads allowed w) : w₀.Leads more w := by
  induction leads with
  | refl => exact .refl
  | after _ held fits kind ih => exact .after ih held fits (le _ kind)

/-- What is held stays held along every run. -/
theorem World.Leads.mem {allowed : Call → Prop} {w₀ w : World} (leads : w₀.Leads allowed w)
    {b : Block} (held : b ∈ w₀.blocks) : b ∈ w.blocks := by
  induction leads with
  | refl => exact held
  | after _ _ _ _ ih => exact World.mem_after ih _

/-- Any identities may be given on the way to a reachable world. -/
theorem Reachable.leads {w : World} (reachable : Reachable w) :
    World.empty.Leads (Call.Gives .univ) w := by
  induction reachable with
  | empty => exact .refl
  | after _ held fits ih => exact .after ih held fits (Call.gives_univ _)

/-- The store tells the truth about the blocks of a census, and those held are among them. -/
def World.Counts (w : World) (K : Census) : Prop :=
  BatchColumn.Sound K w.store.loads w.store.ledger ∧ ∀ b ∈ w.blocks, b ∈ K

/-- The store tells the truth about the blocks held. -/
def World.Sound (w : World) : Prop :=
  ∃ K, w.Counts K

/-! Small worlds. What becomes of a call in one of them can be worked out. -/

/-- There is an answer if one was found to be good. -/
theorem exists_eq_ok_of_any {α σ : Type} {outcome : Except Fault α × σ} {good : α → Bool}
    (found : outcome.1.toOption.any good = true) :
    ∃ a after, outcome = (.ok a, after) ∧ good a = true := by
  obtain ⟨fault | a, after⟩ := outcome
  · cases found
  · exact ⟨a, after, rfl, found⟩

namespace World

/-- Two entries, the second of them null. -/
def sampleEntries : Block := .ints (.ofOptions .long 0 1 [some 7, none])

/-- Three keys to the entries. -/
def sampleKeys : Keys := ⟨0, 3, .ofList 3 [1, 0, 1], ⟨.own, 0⟩, 2, 4, by decide⟩

/-- The world that holds the entries and the dictionary block. -/
def sample : World :=
  (empty.after (.intsOfOptions .long [some 7, none])).after
    (.dictionary sampleEntries [1, 0, 1] none)

theorem blocks_sample : sample.blocks = [.dictionary sampleKeys sampleEntries, sampleEntries] := rfl

theorem reachable_sample : Reachable sample :=
  .after (.after .empty (by rintro _ ⟨⟩) trivial)
    (fun _ mem ↦ List.mem_singleton.1 mem ▸ List.mem_cons_self) trivial

theorem small_sampleEntries {loads : Loads} : sampleEntries.Small loads :=
  Block.small_ints (by decide)

/-- Three integers. -/
def deferredLeaf : Block := .ints (.ofOptions .long 0 1 [some 1, some 2, some 3])

/-- A promise of the integers. -/
def deferredBlock : Block := .lazy ⟨⟨2, 3, fun _ ↦ none⟩, []⟩ deferredLeaf

/-- The world that holds the integers and the promise, which is not loaded. -/
def deferred : World :=
  (empty.after (.intsOfOptions .long [some 1, some 2, some 3])).after
    (.defer deferredLeaf 3 fun _ ↦ none)

theorem blocks_deferred : deferred.blocks = [deferredBlock, deferredLeaf] := rfl

theorem reachable_deferred : Reachable deferred :=
  .after (.after .empty (by rintro _ ⟨⟩) trivial)
    (fun _ mem ↦ List.mem_singleton.1 mem ▸ List.mem_cons_self) trivial

theorem loadable_deferredBlock : deferredBlock.Loadable :=
  ⟨fun _ ↦ rfl, rfl, trivial⟩

/-- The promise is small as long as it is not loaded. -/
theorem small_deferredBlock {loads : Loads} (unloaded : loads.payloads.get? 2 = none) :
    deferredBlock.Small loads :=
  Block.small_lazy (by decide) (Block.small_ints (by decide)) unloaded

/-- Keys to the promised integers, no two of them the same. -/
def deferredKeys : Keys := ⟨0, 3, .ofList 4 [2, 0, 1], ⟨.own, 0⟩, 3, 5, by decide⟩

/-- The world that holds the keys as well. -/
def referred : World :=
  deferred.after (.dictionary deferredBlock [2, 0, 1] none)

theorem blocks_referred :
    referred.blocks = [.dictionary deferredKeys deferredBlock, deferredBlock, deferredLeaf] := rfl

theorem reachable_referred : Reachable referred :=
  reachable_deferred.after (by simp [Call.operands, blocks_deferred]) trivial

theorem small_referred :
    (Block.dictionary deferredKeys deferredBlock).Small referred.store.loads :=
  Block.small_dictionary (by decide) (small_deferredBlock rfl)

end World

/-! ### One call -/

section Step

variable {α : Type} {K : Census}

/-- A call that answers with one block. -/
theorem Session.Meets.one {session : Session Block} {refuse : Fault → Prop}
    (meets : session.Meets K (fun L b ↦ b ∈ L) refuse) :
    (do return [← session] : Session (List Block)).Meets K (fun L made ↦ ∀ b ∈ made, b ∈ L)
      (fun _ ↦ True) :=
  .bind (meets.refusing fun _ _ ↦ trivial) fun L b _ mem ↦ .pure (by simpa using mem)

/-- A call whose answer is forgotten. -/
theorem Session.Meets.discarded {session : Session α} {post : Census → α → Prop}
    {refuse : Fault → Prop} (meets : session.Meets K post refuse) :
    (discard session).Meets K (fun _ _ ↦ True) (fun _ ↦ True) :=
  .bind (meets.mono (fun _ _ _ _ ↦ trivial) fun _ _ ↦ trivial) fun _ _ _ _ ↦ .pure trivial

/-- A query whose answer is forgotten. -/
theorem Session.Meets.discarded_query {query : Query α} {post : Loads → Census → α → Prop}
    {refuse : Loads → Fault → Prop}
    (meets : ∀ loads, query.Meets K loads (post loads) (refuse loads)) :
    (discard (liftM query : Session α)).Meets K (fun _ _ ↦ True) (fun _ ↦ True) :=
  .discarded (.query fun loads ↦ (meets loads).mono (fun _ _ _ _ ↦ trivial) fun _ _ ↦ trivial)

theorem Question.ask_meets {question : Question} (held : ∀ b ∈ question.operands, b ∈ K) :
    question.ask.Meets K (fun _ _ ↦ True) (fun _ ↦ True) := by
  cases question with
  | isNull b p => exact .discarded (Block.isNull_reads (held b (by simp [operands])) p)
  | value b p => exact .discarded (Block.value_reads (held b (by simp [operands])) p)
  | values b => exact .discarded (Block.values_meets (held b (by simp [operands])))
  | sameValues b c =>
    exact .discarded
      (Block.sameValues_meets (held b (by simp [operands])) (held c (by simp [operands])))
  | dataSize b p => exact .discarded (Block.dataSize_reads (held b (by simp [operands])) p)
  | readInt b width p =>
    exact .discarded (Block.readInt_reads (held b (by simp [operands])) p width)
  | readSlice b p => exact .discarded (Block.readSlice_reads (held b (by simp [operands])) p)
  | sliceLength b p => exact .discarded (Block.sliceLength_reads (held b (by simp [operands])) p)
  | size b extent =>
    exact .discarded_query fun loads ↦ Block.sizeOf_meets (held b (by simp [operands])) extent
  | logicalSize b =>
    exact .discarded_query fun loads ↦ Block.logicalSize_meets (held b (by simp [operands]))
  | stats keys entries =>
    exact .discarded_query fun loads ↦
      Keys.stats_meets (held (.dictionary keys entries) (by simp [operands]))
  | isCompact keys entries =>
    exact .discarded_query fun loads ↦
      Keys.isCompact_meets (held (.dictionary keys entries) (by simp [operands]))

/-- **The blocks that a call makes exist**, and the store stays sound. -/
theorem Call.run_meets {call : Call} (held : ∀ b ∈ call.operands, b ∈ K) (fits : call.Fits)
    (gives : call.Gives K.given) (selects : call.Selects → K.selects) :
    call.run.Meets K (fun L made ↦ ∀ b ∈ made, b ∈ L) (fun _ ↦ True) := by
  cases call with
  | ints width values nulls => exact .one (.query fun _ ↦ Block.mkInts_meets width values nulls)
  | intsOfOptions width values =>
    exact .one (.query fun _ ↦ Block.mkIntsOfOptions_meets width values)
  | slices bytes offsets nulls =>
    exact .one (.query fun _ ↦ Block.mkSlices_meets bytes nulls fits)
  | slicesOfOptions values => exact .one (.query fun _ ↦ Block.mkSlicesOfOptions_meets fits)
  | array elements offsets nulls =>
    exact .one (.query fun _ ↦ Block.mkArray_meets (held elements (by simp [operands])) nulls fits)
  | dictionary entries ids source? =>
    have there : ∀ (L : Census) (source : SourceId) (loads : Loads), K ≤ L → L.Spare source →
        (entries.mkDictionary ids source).Meets L loads (fun M b ↦ b ∈ M) (fun _ ↦ True) :=
      fun L source loads le spare ↦ (Block.mkDictionary_meets
        (Census.mem_of_le le (held entries (by simp [operands]))) ids spare).mono
          (fun _ _ _ made ↦ made.1) fun _ _ ↦ trivial
    rcases source? with - | source
    · exact .mint_bind fun n _ spare ↦
        .one (.query fun loads ↦ there _ _ loads (K.le_raise _) spare)
    · exact .one (.query fun loads ↦ there K source loads K.le_refl (.inl gives))
  | defer payload count refusal =>
    exact .one (.query fun _ ↦ Block.mkLazy_meets (held payload (by simp [operands])) count refusal)
  | duplicate b =>
    exact .one (.query fun _ ↦ (Block.duplicate_meets (held b (by simp [operands]))).mono
      (fun _ _ _ made ↦ made.1) fun _ ↦ id)
  | window b offset length =>
    exact .one (.query fun _ ↦ (Block.window_meets (held b (by simp [operands])) offset length).mono
      (fun _ _ _ made ↦ made.1) fun _ ↦ id)
  | copy b offset length =>
    exact .one ((Block.copy_meets (held b (by simp [operands])) offset length).mono
      (fun _ _ _ made ↦ made.mem) fun _ ↦ id)
  | gather b positions offset length =>
    exact .one (.query fun _ ↦
      (Block.copyPositions_meets (held b (by simp [operands])) positions offset length).mono
        (fun _ _ _ made ↦ made.mem) fun _ _ ↦ trivial)
  | select b positions offset length =>
    exact .one (.query fun _ ↦
      (Block.select_meets (selects trivial) (held b (by simp [operands])) positions offset
        length).mono (fun _ _ _ made ↦ made.1.mem) fun _ _ ↦ trivial)
  | single b position =>
    exact .one ((Block.single_meets (held b (by simp [operands])) position).mono
      (fun _ _ _ made ↦ made.mem) fun _ ↦ id)
  | list b position =>
    exact .one ((Block.readList_meets (held b (by simp [operands])) position).mono
      (fun _ _ _ made ↦ made.1) fun _ ↦ id)
  | compact keys entries =>
    have mem := held (.dictionary keys entries) (by simp [operands])
    exact .query_bind (fun loads ↦ (Keys.compact_meets mem).mono (fun _ _ _ made ↦ made.1)
      fun _ _ ↦ trivial) fun _ out _ made ↦ .pure (by simpa using made)
  | materialise b =>
    exact .one ((Block.materialise_meets (held b (by simp [operands]))).mono
      (fun _ _ _ made ↦ made.1) fun _ ↦ id)
  | load promise payload =>
    exact .bind ((Root.load_meets (held (.lazy promise payload) (by simp [operands]))).refusing
      fun _ _ ↦ trivial) fun _ content _ loaded ↦ .pure (by simpa using loaded.1)
  | children b =>
    exact .get_bind fun store sound ↦ .pure (sound.children_mem (held b (by simp [operands])))
  | ask question => exact .bind (Question.ask_meets held) fun _ _ _ _ ↦ .pure (by simp)

namespace World

variable {w : World}

/-- **A call keeps a world sound.** -/
theorem Counts.after (counts : w.Counts K) {call : Call}
    (held : ∀ b ∈ call.operands, b ∈ w.blocks) (fits : call.Fits) (gives : call.Gives K.given)
    (selects : call.Selects → K.selects) : ∃ L, K ≤ L ∧ (w.after call).Counts L := by
  obtain ⟨sound, known⟩ := counts
  obtain ⟨L, le, later, ends⟩ :=
    Call.run_meets (fun b mem ↦ known b (held b mem)) fits gives selects w.store sound
  have old : ∀ b ∈ w.blocks, b ∈ L := fun b mem ↦ Census.mem_of_le le (known b mem)
  rw [World.after]
  split
  next made store run =>
    rw [run] at later ends
    refine ⟨L, le, later, fun b mem ↦ ?_⟩
    rcases List.mem_append.1 mem with new | mem
    · exact ends b new
    · exact old b mem
  next fault store run =>
    -- What a failed call has done to the store stays done, and is sound.
    rw [run] at later
    exact ⟨L, le, later, old⟩

/-- A run keeps a world sound if its calls give and select only what may be given and selected. -/
theorem Leads.counts_of {w₀ : World} {allowed : Call → Prop} (leads : w₀.Leads allowed w)
    (gives : ∀ call, allowed call → call.Gives K.given)
    (selects : ∀ call, allowed call → call.Selects → K.selects) (counts : w₀.Counts K) :
    ∃ L, K ≤ L ∧ w.Counts L := by
  induction leads with
  | refl => exact ⟨K, K.le_refl, counts⟩
  | after _ held fits kind ih =>
    obtain ⟨L, le, counts⟩ := ih
    obtain ⟨M, later, counts⟩ := counts.after held fits (le.given ▸ gives _ kind)
      fun select ↦ le.selects.mp (selects _ kind select)
    exact ⟨M, Census.le_trans le later, counts⟩

/-- **A run of calls keeps a world sound.** -/
theorem Leads.counts {w₀ : World} (leads : w₀.Leads (Call.Gives K.given) w)
    (counts : w₀.Counts K) : ∃ L, K.selecting ≤ L ∧ w.Counts L :=
  leads.counts_of (fun _ ↦ id) (fun _ _ _ ↦ trivial) ⟨counts.1.selecting, counts.2⟩

/-- Nothing can be wrong about the empty world. -/
theorem counts_empty (given : Set SourceId) : empty.Counts (.empty given False) :=
  ⟨.empty given False, by rintro _ ⟨⟩⟩

end World

end Step

/-- The census of a reachable world lets any identities be given. -/
theorem Reachable.counts {w : World} (reachable : Reachable w) :
    ∃ K, K.given = .univ ∧ w.Counts K :=
  have ⟨L, le, counts⟩ := reachable.leads.counts (World.counts_empty .univ)
  ⟨L, le.given.symm, counts⟩

/-- The census of a reachable world knows that the handles of its dictionary blocks were given
out. -/
theorem Reachable.tracked {w : World} (reachable : Reachable w) : ∃ K, K.tracks ∧ w.Counts K :=
  have ⟨L, le, counts⟩ := reachable.leads.counts (World.counts_empty .univ)
  ⟨L, le.tracks.mp trivial, counts⟩

/-- **Every reachable world is sound.** -/
theorem Reachable.sound {w : World} (reachable : Reachable w) : w.Sound :=
  have ⟨K, _, counts⟩ := reachable.counts
  ⟨K, counts⟩

/-! ### Every block is well formed -/

/-- The layer keeps the rules of its kind, and what a lazy block has loaded is as long as it is
said to be. -/
def Block.WellFormed (loads : Loads) : Block → Prop
  | ints leaf => ∀ flags, leaf.nulls.flags = some flags → flags.length = leaf.cells.length
  | slices leaf =>
    leaf.offsets.toList ≠ [] ∧ nondecreasing leaf.offsets.toList = true ∧
      (∀ offset ∈ leaf.offsets.toList, offset ≤ leaf.bytes.length) ∧
        ∀ flags, leaf.nulls.flags = some flags → flags.length = leaf.offsets.length - 1
  | array lists elements =>
    lists.base + lists.count + 1 ≤ lists.offsets.length ∧
      nondecreasing lists.offsets.toList = true ∧
      (∀ offset ∈ lists.offsets.toList, offset ≤ elements.positionCount) ∧
      (∀ flags, lists.nulls.flags = some flags → lists.base + lists.count ≤ flags.length) ∧
        ∀ position, lists.isNull position = .ok true →
          ∃ start, lists.span position = .ok (start, start)
  | dictionary keys entries =>
    keys.offset + keys.count ≤ keys.ids.length ∧
      ∀ id ∈ stretch keys.ids.toList keys.offset keys.count, id < entries.positionCount
  | «lazy» promise _ =>
    ∀ content, loads.payloads.get? promise.cell = some content →
      content.positionCount = promise.count

/-- A block that a store tells the truth about is well formed. -/
theorem Sound.wellFormed {K : Census} {loads : Loads} {ledger : Ledger}
    (sound : Sound K loads ledger) {b : Block} (mem : b ∈ K) : b.WellFormed loads := by
  have formed := sound.formed b mem
  rcases b with leaf | leaf | ⟨lists, elements⟩ | ⟨keys, entries⟩ | ⟨promise, payload⟩
  · exact formed
  · refine ⟨fun empty ↦ ?_, formed.sorted, formed.within, formed.flagged⟩
    have := formed.nonempty
    rw [← View.length_toList, empty] at this
    cases this
  · refine ⟨lists.fits, formed.sorted, formed.within, formed.flagged, fun position null ↦ ?_⟩
    rcases Nat.lt_or_ge position lists.count with inside | outside
    · have marked := Except.ok.inj ((formed.isNull_eq_ok inside).symm.trans null)
      exact ⟨_, by rw [Lists.span_eq_ok inside, ← formed.hollow position inside marked]⟩
    · rw [Lists.isNull_eq_error outside] at null
      cases null
  · exact ⟨keys.fits, formed⟩
  · intro content held
    exact (sound.loaded promise payload mem content held).2.count

/-- **Every block of a reachable world is well formed**, at every depth. -/
theorem Reachable.wellFormed_part {w : World} (reachable : Reachable w) {b c : Block}
    (held : b ∈ w.blocks) (part : c.Part w.store.loads b) : c.WellFormed w.store.loads := by
  obtain ⟨K, sound, known⟩ := reachable.sound
  exact sound.wellFormed (sound.part_mem part (known b held))

/-- The entries of the sample are part of its dictionary block. -/
theorem World.wellFormed_sample : sampleEntries.WellFormed sample.store.loads :=
  reachable_sample.wellFormed_part (b := .dictionary sampleKeys sampleEntries)
    List.mem_cons_self (.entries .refl)

end BatchColumn
