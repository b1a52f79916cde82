import BatchColumn.Proofs.Loading
import BatchColumn.Proofs.Regions

/-!
# A payload is produced once

A session **demands** a payload that is not loaded if it calls the loader once: it fails as the
loader fails, with nothing published, or goes on with the payload loaded (`Session.Demands`). What
follows the first step of a session can only keep what is loaded, so a session demands what its
first step demands (`Session.Demands.bind`).

Readers come to a promise through whatever lies over it: through what lazy blocks have loaded, along
keys, and — readers of values — through the first element of a list, of which they take a window
(`Root.Bars`, kept by windows). Nothing is loaded on the way, so a reader demands the payload that
is in its way. That is shown once for all readers of positions (`Block.Reader`), with the step at a
list added for the two that read lists (`Block.value_demands`, `Block.dataSize_demands`).

Together with what holds along every run of calls this is `Reachable.produced_once`: **a payload is
produced at most once**, by whatever blocks it is read, and reading retries until it is.
-/

namespace BatchColumn

variable {α β : Type} {K : Census} {root : Root} {windows : List Window} {payload : Block}
  {store : Store}

/-! ### Sessions that need a payload -/

/-- What a session does that needs a payload, if it is not loaded. -/
structure Session.Demands (session : Session α) (root : Root) (payload : Block) (store : Store) :
    Prop where
  /-- If the loader fails, so does the session. The loader was called once, and nothing is
  published. -/
  fails : root.Fails payload (store.loads.callCount root.cell) →
    (session.outcome store).1 = .error (.error
        ((root.refusal (store.loads.callCount root.cell)).getD .miscounted)) ∧
      (session.outcome store).2.loads.payloads = store.loads.payloads ∧
      (session.outcome store).2.loads.callCount root.cell =
        store.loads.callCount root.cell + 1
  /-- If it does not fail, the payload is loaded. The loader was called once. -/
  succeeds : ¬ root.Fails payload (store.loads.callCount root.cell) →
    (session.outcome store).2.loads.payloads.get? root.cell = some payload ∧
      (session.outcome store).2.loads.callCount root.cell =
        store.loads.callCount root.cell + 1

/-- **Loading a promise asks for the payload.** -/
theorem Root.load_demands (sound : Sound K store.loads store.ledger)
    (mem : .lazy ⟨root, windows⟩ payload ∈ K)
    (unloaded : store.loads.payloads.get? root.cell = none) :
    (root.load payload windows).Demands root payload store where
  fails fails := by
    obtain ⟨calls, run, once⟩ := load_of_fails sound mem unloaded fails
    rw [run]
    exact ⟨rfl, rfl, once⟩
  succeeds succeeds := by
    obtain ⟨content, after, run, settles⟩ := load_of_not_fails sound mem unloaded succeeds
    rw [run]
    exact ⟨settles.payload, settles.calls⟩

/-- What is loaded stays loaded, and its loader is not called again. -/
theorem Session.Meets.rests {session : Session α}
    (meets : session.Meets (K.note store.loads) (fun _ _ ↦ True) fun _ ↦ True)
    (sound : Sound K store.loads store.ledger) (mem : .lazy ⟨root, []⟩ payload ∈ K)
    {content : Block} (loaded : store.loads.payloads.get? root.cell = some content) :
    (session.outcome store).2.loads.payloads.get? root.cell = some content ∧
      (session.outcome store).2.loads.callCount root.cell = store.loads.callCount root.cell := by
  obtain ⟨L, le, after, -⟩ := meets store sound.note
  have kept := after.delivered.past _ _ (le.seen _ _ loaded)
  exact ⟨kept, (sound.delivered.produced _ _ mem).callCount_eq
    (after.delivered.produced _ _ (Census.mem_of_le le mem)) loaded kept⟩

/-- Sizes may be added up at consecutive numbers. -/
theorem Session.Meets.sumAfter {call : Nat → Session Nat}
    (meets : ∀ L, K ≤ L → ∀ i, (call i).Meets L (fun _ _ ↦ True) fun _ ↦ True)
    (start count total : Nat) :
    (sumAfter call start count total).Meets K (fun _ _ ↦ True) fun _ ↦ True := by
  induction count generalizing K start total with
  | zero => exact .pure trivial
  | succ count ih =>
    refine .bind (meets K K.le_refl start) fun L size le _ ↦ ?_
    exact .attempt_bind (fun total _ ↦ ih (fun M later ↦ meets M (Census.le_trans le later)) _ _)
      fun _ _ ↦ trivial

namespace Session.Demands

/-- A session that ends as another one does, in a store with the same loads. -/
theorem of_outcome {session other : Session α} {later : Store}
    (demands : other.Demands root payload later) (loads : later.loads = store.loads)
    (same : session.outcome store = other.outcome later) :
    session.Demands root payload store where
  fails fails := by
    rw [same]
    exact loads ▸ demands.fails (loads ▸ fails)
  succeeds succeeds := by
    rw [same]
    exact loads ▸ demands.succeeds (loads ▸ succeeds)

/-- **What comes after the payload is loaded does not load it again.** -/
protected theorem bind {first : Session α} {rest : α → Session β}
    (demands : first.Demands root payload store) (sound : Sound K store.loads store.ledger)
    (mem : .lazy ⟨root, []⟩ payload ∈ K) {post : Census → α → Prop} {refuse : Fault → Prop}
    (meets : first.Meets K post refuse)
    (next : ∀ L a, K ≤ L → post L a → ∀ M, L ≤ M →
      (rest a).Meets M (fun _ _ ↦ True) fun _ ↦ True) :
    (first >>= rest).Demands root payload store where
  fails fails := by
    obtain ⟨reports, nothing⟩ := demands.fails fails
    have run : first.outcome store = (_, (first.outcome store).2) := Prod.ext reports rfl
    rw [outcome_bind_of_error run]
    exact ⟨rfl, nothing⟩
  succeeds succeeds := by
    have settled := demands.succeeds succeeds
    obtain ⟨L, le, after, ends⟩ := meets store sound
    rcases run : first.outcome store with ⟨fault | a, middle⟩
    all_goals rw [run] at settled after ends
    · rw [outcome_bind_of_error run]
      exact settled
    · rw [outcome_bind_of_ok run]
      obtain ⟨kept, calls⟩ := (next L a le ends _ after.le_note).rests after
        (Census.mem_of_le le mem) settled.1
      exact ⟨kept, calls.trans settled.2⟩

/-- Calls at consecutive numbers ask for the payload if the first of them does. -/
theorem mapFrom_bind {call : Nat → Session α} {rest : List α → Session β} {start count : Nat}
    (some : 0 < count) (demands : (call start).Demands root payload store)
    (sound : Sound K store.loads store.ledger) (mem : .lazy ⟨root, []⟩ payload ∈ K)
    (meets : ∀ L, K ≤ L → ∀ i, (call i).Meets L (fun _ _ ↦ True) fun _ ↦ True)
    (next : ∀ L answers, (rest answers).Meets L (fun _ _ ↦ True) fun _ ↦ True) :
    (mapFrom start count call >>= rest).Demands root payload store := by
  obtain ⟨count, rfl⟩ := Nat.exists_eq_succ_of_ne_zero (Nat.ne_of_gt some)
  rw [mapFrom_eq_mapM, List.range'_succ, List.mapM_cons, bind_assoc]
  refine demands.bind sound mem (meets K K.le_refl start) fun L a le _ M later ↦ ?_
  have since := Census.le_trans le later
  rw [← mapFrom_eq_mapM, bind_assoc]
  exact .bind (.mapFrom fun N latest i _ _ ↦ meets N (Census.le_trans since latest) i)
    fun N answers _ _ ↦ next N (a :: answers)

/-- Sizes added up at consecutive numbers ask for the payload if the first of them does. -/
theorem sumFrom {call : Nat → Session Nat} {start count : Nat} (some : 0 < count)
    (demands : (call start).Demands root payload store)
    (sound : Sound K store.loads store.ledger) (mem : .lazy ⟨root, []⟩ payload ∈ K)
    (meets : ∀ L, K ≤ L → ∀ i, (call i).Meets L (fun _ _ ↦ True) fun _ ↦ True) :
    (sumFrom start count call).Demands root payload store := by
  obtain ⟨count, rfl⟩ := Nat.exists_eq_succ_of_ne_zero (Nat.ne_of_gt some)
  refine demands.bind sound mem (meets K K.le_refl start) fun L size le _ M later ↦ ?_
  exact .attempt_bind (fun total _ ↦ .sumAfter (fun N latest ↦
    meets N (Census.le_trans (Census.le_trans le later) latest)) _ _ _) fun _ _ ↦ trivial

end Session.Demands

/-! ### Positions that wait for a payload -/

/-- The payload is not loaded, and a promise of it stands in the way of reading the position, behind
keys and loaded lazy blocks. If `deep`, the first element of a list may be in the way as well. -/
inductive Root.Bars (root : Root) (payload : Block) (loads : Loads) (deep : Bool) :
    Block → Nat → Prop
  /-- The promise itself. -/
  | promise {windows : List Window} {p : Nat} :
      loads.content? (Promise.cell ⟨root, windows⟩) payload.depth = none →
      Bars root payload loads deep (.lazy ⟨root, windows⟩ payload) p
  /-- A lazy block has loaded a block with the promise in the way. -/
  | content {promise : Promise} {other : Block} {content : Within other.depth} {p : Nat} :
      loads.content? promise.cell other.depth = some content →
      Bars root payload loads deep content.1 p →
      Bars root payload loads deep (.lazy promise other) p
  /-- The position refers to an entry with the promise in the way. -/
  | entry {keys : Keys} {entries : Block} {p id : Nat} : keys.id p = .ok id →
      Bars root payload loads deep entries id →
      Bars root payload loads deep (.dictionary keys entries) p
  /-- The promise is in the way of the first element of the list at the position. -/
  | element {lists : Lists} {elements : Block} {p start stop : Nat} : deep = true →
      lists.isNull p = .ok false → lists.span p = .ok (start, stop) → start < stop →
      Bars root payload loads deep elements start →
      Bars root payload loads deep (.array lists elements) p

/-! What a window of keys or lists has at a position. -/

theorem Keys.id_of_window {keys w : Keys} {memory offset length q : Nat}
    (cut : keys.window memory offset length = .ok w) (inside : q < length) :
    w.id q = keys.id (offset + q) := by
  rw [window] at cut
  split at cut
  next fits =>
    obtain rfl := Except.ok.inj cut
    simp only [id]
    rw [dif_pos inside, dif_pos (by omega)]
    simp only [Nat.add_assoc]
  next => cases cut

theorem Lists.at_window {lists w : Lists} {memory offset length q : Nat}
    (cut : lists.window memory offset length = .ok w) (inside : q < length) :
    w.isNull q = lists.isNull (offset + q) ∧ w.span q = lists.span (offset + q) := by
  rw [window] at cut
  split at cut
  next fits =>
    obtain rfl := Except.ok.inj cut
    have room : offset + q < lists.count := by omega
    simp only [isNull, span]
    rw [dif_pos inside, dif_pos room, checkPosition, checkPosition, if_pos inside, if_pos room]
    simp only [Nat.add_assoc, and_self]
  next => cases cut

namespace Root.Bars

variable {loads : Loads} {ledger after : Ledger} {deep : Bool} {b : Block} {p : Nat}

/-- The promise in the way exists. -/
theorem mem (bars : root.Bars payload store.loads deep b p)
    (sound : Sound K store.loads store.ledger) (mem : b ∈ K) : .lazy ⟨root, []⟩ payload ∈ K := by
  induction bars with
  | promise => exact sound.suffix_mem mem List.nil_suffix
  | content held _ ih => exact ih (sound.content mem held).1
  | entry _ _ ih => exact ih (sound.entries_mem mem)
  | element _ _ _ _ _ ih => exact ih (sound.elements_mem mem)

/-- What has a promise right in the way may have nulls. -/
theorem mayHaveNull_eq (bars : root.Bars payload loads false b p) : b.mayHaveNull loads = true := by
  induction bars with
  | promise held => rw [Block.mayHaveNull, Block.face?, held]
  | @content promise other content p held _ ih =>
    rw [Block.mayHaveNull] at ih
    rw [Block.mayHaveNull, Block.face?, held]
    dsimp only
    generalize content.1.face? loads = face at ih ⊢
    rcases face with - | face
    · rfl
    · cases face <;> exact ih
  | @entry keys entries p id found _ ih =>
    have some : 0 < keys.count := by
      by_contra empty
      rw [Keys.id_eq_error (by omega)] at found
      cases found
    rw [Block.mayHaveNull, Block.face?]
    dsimp only
    rw [ih, decide_eq_true some]
    rfl
  | element deep => cases deep

/-- **A window keeps the promise in the way** of the positions that it has. -/
theorem windowWithin (sound : Sound K loads ledger) {offset length q : Nat} {w : Within b.depth}
    (run : (b.windowWithin offset length).outcome loads ledger = (.ok w, after))
    (inside : q < length) (bars : root.Bars payload loads deep b (offset + q)) :
    root.Bars payload loads deep w.1 q := by
  have window : (b.window offset length).outcome loads ledger = (.ok w.1, after) :=
    Query.outcome_bind_of_ok run
  generalize same : offset + q = p at bars
  induction bars with
  | @promise windows p held =>
    rw [Block.windowWithin] at run
    rcases passed : checkRegion (Promise.count ⟨root, windows⟩) offset length with cause | ⟨⟩
    all_goals rw [passed] at run
    · cases run
    · obtain ⟨_, _, ⟨⟩, run⟩ := Query.exists_of_outcome_bind run
      rw [Query.outcome_read_bind, held] at run
      obtain ⟨n, _, ⟨⟩, ⟨⟩⟩ := Query.exists_of_outcome_bind run
      have empty : loads.content? ledger.next payload.depth = none := by
        rw [Loads.content?, (sound.blank ledger.next (Nat.le_refl _)).2]
      exact .promise empty
  | @content promise other content p held _ ih =>
    rw [Block.windowWithin] at run
    rcases passed : checkRegion promise.count offset length with cause | ⟨⟩
    all_goals rw [passed] at run
    · cases run
    · obtain ⟨_, _, ⟨⟩, run⟩ := Query.exists_of_outcome_bind run
      rw [Query.outcome_read_bind, held] at run
      obtain ⟨inner, _, run, ⟨⟩⟩ := Query.exists_of_outcome_bind run
      exact ih run (Query.outcome_bind_of_ok run) same
  | entry found bars =>
    generalize w.1 = r at window ⊢
    cases Block.layered_of_outcome id window with
    | dictionary memory cut =>
      exact .entry ((Keys.id_of_window cut inside).trans (same ▸ found)) bars
  | element deep marked spans some bars =>
    generalize w.1 = r at window ⊢
    cases Block.layered_of_outcome id window with
    | array memory cut =>
      obtain ⟨null, span⟩ := Lists.at_window cut inside
      exact .element deep (null.trans (same ▸ marked)) (span.trans (same ▸ spans)) some bars

end Root.Bars

/-! ### Readers -/

/-- The list at a position is a window of the elements. -/
theorem Sound.exists_list {loads : Loads} {ledger : Ledger} (sound : Sound K loads ledger)
    {lists : Lists} {elements : Block} (mem : .array lists elements ∈ K) {p start stop : Nat}
    (spans : lists.span p = .ok (start, stop)) : ∃ list after L,
      (elements.windowWithin start (stop - start)).outcome loads ledger = (.ok list, after) ∧
        Sound L loads after ∧ Block.IsWindow L list.1 elements start (stop - start) := by
  have formed : lists.Intact elements.positionCount := sound.formed _ mem
  obtain ⟨inside, same⟩ := Lists.of_span_eq_ok spans
  have fits : start + (stop - start) ≤ elements.positionCount := by
    obtain ⟨rfl, rfl⟩ := Prod.mk.inj same
    exact formed.span_le_size inside
  obtain ⟨-, L, -, after, ends⟩ :=
    Block.windowWithin_meets (sound.elements_mem mem) start (stop - start) ledger sound
  rcases run : (elements.windowWithin start (stop - start)).outcome loads ledger with
    ⟨fault | list, middle⟩
  all_goals rw [run] at after ends
  · exact absurd fits ends.2
  · exact ⟨list, middle, L, rfl, after, ends⟩

namespace Block

/-- **Reading a lazy block is loading it and reading what it has loaded**, whatever is done with the
face. -/
theorem lazy_eq_load_bind {f : Block → Session α} {step : ∀ b : Block, Face b.depth → Session α}
    (reveals : ∀ b, f b = b.reveal >>= step b) {promise : Promise} {payload : Block}
    (same : ∀ (content : Within payload.depth) (face : Face content.1.depth),
      step (.lazy promise payload) (face.widen (Nat.le_succ_of_le content.2)) =
        step content.1 face) :
    f (.lazy promise payload) = promise.load payload >>= fun content ↦ f content.1 := by
  rw [reveals, reveal, bind_assoc]
  refine bind_congr fun content ↦ ?_
  rw [reveals, bind_assoc]
  exact bind_congr fun face ↦ (pure_bind _ _).trans (same content face)

/-- **A session that loads a promise first asks for the payload.** -/
theorem lazy_demands {f : Block → Session α} (sound : Sound K store.loads store.ledger)
    (mem : .lazy ⟨root, windows⟩ payload ∈ K)
    (unloaded : store.loads.payloads.get? root.cell = none)
    (opens : f (.lazy ⟨root, windows⟩ payload) =
      Promise.load ⟨root, windows⟩ payload >>= fun content ↦ f content.1)
    (meets : ∀ {M : Census} {c : Block}, c ∈ M → (f c).Meets M (fun _ _ ↦ True) fun _ ↦ True) :
    (f (.lazy ⟨root, windows⟩ payload)).Demands root payload store := by
  rw [opens]
  exact (Root.load_demands sound mem unloaded).bind sound (sound.suffix_mem mem List.nil_suffix)
    (Root.load_meets mem) fun L content _ brought M later ↦
      meets (Census.mem_of_le later brought.mem)

/-- A reader of positions loads the lazy blocks on its way, and passes questions on along keys. One
that is not `deep` may do so only where there may be nulls. -/
structure Reader (deep : Bool) (read : Block → Nat → Session α) : Prop where
  /-- A lazy block is loaded, and what it has loaded is read. -/
  promise : ∀ promise payload p, read (.lazy promise payload) p =
    promise.load payload >>= fun content ↦ read content.1 p
  /-- The entry that the position refers to is read. -/
  entry : ∀ {store : Store} {keys : Keys} {entries : Block} {p id : Nat}, keys.id p = .ok id →
    (deep = false → entries.mayHaveNull store.loads = true) →
    (read (.dictionary keys entries) p).outcome store = (read entries id).outcome store
  /-- The store stays sound. -/
  meets : ∀ {K : Census} {b : Block}, b ∈ K → ∀ p,
    (read b p).Meets K (fun _ _ ↦ True) fun _ ↦ True

theorem isNull_reader : Reader false isNull where
  promise _ _ p := lazy_eq_load_bind (fun b ↦ isNull.eq_def b p) fun _ face ↦ by cases face <;> rfl
  entry {store keys entries p id} found null := by
    rw [isNull, reveal, pure_bind]
    dsimp only
    rw [found]
    show (if entries.mayHaveNull store.loads then entries.isNull id else pure false).outcome store =
      (entries.isNull id).outcome store
    rw [if_pos (null rfl)]
  meets mem p := (isNull_reads mem p).mono (fun _ _ _ _ ↦ trivial) fun _ _ ↦ trivial

/-- A reader that passes questions on along keys without asking anything before. -/
theorem Reader.of_face {deep : Bool} {read : Block → Nat → Session α}
    {step : ∀ b : Block, Nat → Face b.depth → Session α}
    (reveals : ∀ b p, read b p = b.reveal >>= step b p)
    (same : ∀ promise payload p (content : Within payload.depth) (face : Face content.1.depth),
      step (.lazy promise payload) p (face.widen (Nat.le_succ_of_le content.2)) =
        step content.1 p face)
    (passes : ∀ keys entries p, step (.dictionary keys entries) p
      (.dictionary keys entries (Nat.lt_succ_self _)) = liftM (keys.id p) >>= read entries)
    (meets : ∀ {K : Census} {b : Block}, b ∈ K → ∀ p,
      (read b p).Meets K (fun _ _ ↦ True) fun _ ↦ True) : Reader deep read where
  promise promise payload p := lazy_eq_load_bind (reveals · p) (same promise payload p)
  entry found _ := by
    rw [reveals, reveal, pure_bind, passes, found]
    rfl
  meets := meets

theorem value_reader : Reader true value :=
  .of_face value.eq_def (fun _ _ _ _ face ↦ by cases face <;> rfl) (fun _ _ _ ↦ rfl)
    fun mem p ↦ (value_reads mem p).mono (fun _ _ _ _ ↦ trivial) fun _ _ ↦ trivial

theorem dataSize_reader : Reader true dataSize :=
  .of_face dataSize.eq_def (fun _ _ _ _ face ↦ by cases face <;> rfl) (fun _ _ _ ↦ rfl)
    fun mem p ↦ (dataSize_reads mem p).mono (fun _ _ _ _ ↦ trivial) fun _ _ ↦ trivial

theorem readInt_reader (width : Width) : Reader false (readInt · width) :=
  .of_face (readInt.eq_def · width) (fun _ _ _ _ face ↦ by cases face <;> rfl)
    (fun _ _ _ ↦ rfl)
    fun mem p ↦ (readInt_reads mem p width).mono (fun _ _ _ _ ↦ trivial) fun _ _ ↦ trivial

theorem readSlice_reader : Reader false readSlice :=
  .of_face readSlice.eq_def (fun _ _ _ _ face ↦ by cases face <;> rfl) (fun _ _ _ ↦ rfl)
    fun mem p ↦ (readSlice_reads mem p).mono (fun _ _ _ _ ↦ trivial) fun _ _ ↦ trivial

theorem sliceLength_reader : Reader false sliceLength :=
  .of_face sliceLength.eq_def (fun _ _ _ _ face ↦ by cases face <;> rfl) (fun _ _ _ ↦ rfl)
    fun mem p ↦ (sliceLength_reads mem p).mono (fun _ _ _ _ ↦ trivial) fun _ _ ↦ trivial

theorem single_reader : Reader false single :=
  .of_face single.eq_def (fun _ _ _ _ face ↦ by cases face <;> rfl) (fun _ _ _ ↦ rfl)
    fun mem p ↦ (single_meets mem p).mono (fun _ _ _ _ ↦ trivial) fun _ _ ↦ trivial

theorem readList_reader : Reader false readList :=
  .of_face readList.eq_def (fun _ _ _ _ face ↦ by cases face <;> rfl) (fun _ _ _ ↦ rfl)
    fun mem p ↦ (readList_meets mem p).mono (fun _ _ _ _ ↦ trivial) fun _ _ ↦ trivial

section Readers

variable {read : Block → Nat → Session α} {deep : Bool} {b : Block} {p : Nat}

/-- **A reader asks for the payload that is in its way**, if the readers below do and it does at
lists. -/
theorem Reader.demands_step (reader : Reader deep read) (sound : Sound K store.loads store.ledger)
    (mem : b ∈ K) (unloaded : store.loads.payloads.get? root.cell = none)
    (bars : root.Bars payload store.loads deep b p)
    (below : ∀ c q, c.depth < b.depth → c ∈ K → root.Bars payload store.loads deep c q →
      (read c q).Demands root payload store)
    (lists : ∀ lists elements start stop, b = .array lists elements → deep = true →
      lists.isNull p = .ok false → lists.span p = .ok (start, stop) → start < stop →
      root.Bars payload store.loads deep elements start → (read b p).Demands root payload store) :
    (read b p).Demands root payload store := by
  cases bars with
  | promise held =>
    exact lazy_demands (f := (read · p)) sound mem unloaded (reader.promise _ _ p)
      fun mem ↦ reader.meets mem p
  | @content promise other content _ held bars =>
    refine (below content.1 p (Nat.lt_succ_of_le content.2) (sound.content mem held).1
      bars).of_outcome rfl ?_
    rw [reader.promise]
    exact Session.outcome_bind_of_ok (Root.outcome_load_of_content held)
  | entry found bars =>
    refine (below _ _ (Nat.lt_succ_self _) (sound.entries_mem mem) bars).of_outcome rfl ?_
    exact reader.entry found fun shallow ↦ (shallow ▸ bars).mayHaveNull_eq
  | element deep marked cut some bars => exact lists _ _ _ _ rfl deep marked cut some bars

/-- **A reader that does not read lists asks for the payload that is in its way.** -/
theorem Reader.demands (reader : Reader false read) (sound : Sound K store.loads store.ledger)
    (mem : b ∈ K) (unloaded : store.loads.payloads.get? root.cell = none)
    (bars : root.Bars payload store.loads false b p) : (read b p).Demands root payload store := by
  induction b using Block.walk generalizing p with
  | step b ih =>
    exact reader.demands_step sound mem unloaded bars (fun c q below mem ↦ ih c below mem)
      fun _ _ _ _ _ deep ↦ nomatch deep

theorem dataSize_demands (sound : Sound K store.loads store.ledger) (mem : b ∈ K)
    (unloaded : store.loads.payloads.get? root.cell = none)
    (bars : root.Bars payload store.loads true b p) :
    (b.dataSize p).Demands root payload store := by
  induction b using Block.walk generalizing p with
  | step b ih =>
    refine dataSize_reader.demands_step sound mem unloaded bars
      (fun c q below mem ↦ ih c below mem) ?_
    rintro lists elements start stop rfl - marked spans some inner
    have present := sound.elements_mem mem
    rw [dataSize, reveal, pure_bind]
    dsimp only
    rw [marked, spans]
    have first := ih elements (Nat.lt_succ_self _) present inner
    exact .sumFrom (Nat.sub_pos_of_lt some) first sound (inner.mem sound present)
      fun L le ↦ dataSize_reader.meets (Census.mem_of_le le present)

theorem value_demands (sound : Sound K store.loads store.ledger) (mem : b ∈ K)
    (unloaded : store.loads.payloads.get? root.cell = none)
    (bars : root.Bars payload store.loads true b p) : (b.value p).Demands root payload store := by
  induction b using Block.walk generalizing K store p with
  | step b ih =>
    refine value_reader.demands_step sound mem unloaded bars
      (fun c q below mem ↦ ih c below sound mem unloaded) ?_
    rintro lists elements start stop rfl - marked spans some inner
    have present := sound.elements_mem mem
    rw [value, reveal, pure_bind]
    dsimp only
    rw [marked, spans]
    -- The list is taken as a window of the elements, and its first element is behind the promise.
    obtain ⟨list, ledger, L, run, settled, window⟩ := sound.exists_list mem spans
    let later : Store := ⟨store.loads, ledger⟩
    have there : Sound L later.loads later.ledger := settled
    have waits : root.Bars payload later.loads true list.1 0 :=
      inner.windowWithin sound run (Nat.sub_pos_of_lt some)
    have first : (list.1.value 0).Demands root payload later :=
      ih list.1 (Nat.lt_succ_of_le list.2) there window.mem unloaded waits
    have count : list.1.positionCount = stop - start :=
      window.shows.count.trans List.length_range'
    have rest : (mapFrom 0 list.1.positionCount list.1.value >>= fun values ↦
        pure (Value.list values)).Demands root payload later :=
      .mapFrom_bind (count ▸ Nat.sub_pos_of_lt some) first there (waits.mem there window.mem)
        (fun M le ↦ value_reader.meets (Census.mem_of_le le window.mem)) fun _ _ ↦ .pure trivial
    exact rest.of_outcome rfl (Session.outcome_bind_of_ok (Session.outcome_query run))

end Readers

/-! Copies and loaded blocks, of the promise itself. -/

section Promises

variable (sound : Sound K store.loads store.ledger) (mem : .lazy ⟨root, windows⟩ payload ∈ K)
  (unloaded : store.loads.payloads.get? root.cell = none)

include sound mem unloaded

theorem copy_demands (offset length : Nat) :
    ((Block.lazy ⟨root, windows⟩ payload).copy offset length).Demands root payload store :=
  lazy_demands (f := (copy · offset length)) sound mem unloaded
    (lazy_eq_load_bind (fun b ↦ copy.eq_def b offset length) fun _ face ↦ by cases face <;> rfl)
    fun mem ↦ (copy_meets mem offset length).mono (fun _ _ _ _ ↦ trivial) fun _ _ ↦ trivial

theorem materialise_demands :
    (Block.lazy ⟨root, windows⟩ payload).materialise.Demands root payload store :=
  lazy_demands sound mem unloaded
    (lazy_eq_load_bind materialise.eq_def fun _ face ↦ by cases face <;> rfl)
    fun mem ↦ (materialise_meets mem).mono (fun _ _ _ _ ↦ trivial) fun _ _ ↦ trivial

end Promises

end Block

/-! ### Calls that need a payload -/

/-- The calls that need a payload: those on promises of it, and those that read a position with a
promise of it in the way. -/
inductive Call.Needs (root : Root) (payload : Block) (loads : Loads) : Call → Prop
  | load (windows : List Window) : Needs root payload loads (.load ⟨root, windows⟩ payload)
  | copy (windows : List Window) (offset length : Nat) :
      Needs root payload loads (.copy (.lazy ⟨root, windows⟩ payload) offset length)
  | materialise (windows : List Window) :
      Needs root payload loads (.materialise (.lazy ⟨root, windows⟩ payload))
  | single {b : Block} {p : Nat} : root.Bars payload loads false b p →
      Needs root payload loads (.single b p)
  | list {b : Block} {p : Nat} : root.Bars payload loads false b p →
      Needs root payload loads (.list b p)
  | isNull {b : Block} {p : Nat} : root.Bars payload loads false b p →
      Needs root payload loads (.ask (.isNull b p))
  | readInt {b : Block} {p : Nat} (width : Width) : root.Bars payload loads false b p →
      Needs root payload loads (.ask (.readInt b width p))
  | readSlice {b : Block} {p : Nat} : root.Bars payload loads false b p →
      Needs root payload loads (.ask (.readSlice b p))
  | sliceLength {b : Block} {p : Nat} : root.Bars payload loads false b p →
      Needs root payload loads (.ask (.sliceLength b p))
  | value {b : Block} {p : Nat} : root.Bars payload loads true b p →
      Needs root payload loads (.ask (.value b p))
  | dataSize {b : Block} {p : Nat} : root.Bars payload loads true b p →
      Needs root payload loads (.ask (.dataSize b p))

namespace Session.Demands

variable {session : Session α} (demands : session.Demands root payload store)
  (sound : Sound K store.loads store.ledger) (mem : .lazy ⟨root, []⟩ payload ∈ K)
  (meets : session.Meets K (fun _ _ ↦ True) fun _ ↦ True)

include demands sound mem meets

/-- What is made of the answer does not matter. -/
theorem bind_pure {f : α → β} : (session >>= fun a ↦ pure (f a)).Demands root payload store :=
  demands.bind sound mem meets fun _ _ _ _ _ _ ↦ .pure trivial

/-- A question whose answer is forgotten. -/
theorem ask :
    (do discard session; return [] : Session (List Block)).Demands root payload store := by
  have same : (do discard session; return [] : Session (List Block)) =
      session >>= fun _ ↦ pure [] := by
    rw [Functor.discard, map_const, Function.comp_apply, map_eq_pure_bind, bind_assoc]
    rfl
  exact same ▸ demands.bind_pure sound mem meets

end Session.Demands

/-- **A call that needs a payload asks for it.** -/
theorem Call.Needs.demands {call : Call} (needs : call.Needs root payload store.loads)
    (sound : Sound K store.loads store.ledger) (held : ∀ b ∈ call.operands, b ∈ K)
    (unloaded : store.loads.payloads.get? root.cell = none) :
    call.run.Demands root payload store := by
  cases needs with
  | load windows =>
    have mem := held (.lazy ⟨root, windows⟩ payload) List.mem_cons_self
    have there := sound.suffix_mem mem List.nil_suffix
    exact (Root.load_demands sound mem unloaded).bind_pure sound there
      ((Root.load_meets mem).mono (fun _ _ _ _ ↦ trivial) fun _ _ ↦ trivial)
  | copy windows offset length =>
    have mem := held (.lazy ⟨root, windows⟩ payload) List.mem_cons_self
    exact (Block.copy_demands sound mem unloaded offset length).bind_pure sound
      (sound.suffix_mem mem List.nil_suffix)
      ((Block.copy_meets mem offset length).mono (fun _ _ _ _ ↦ trivial) fun _ _ ↦ trivial)
  | materialise windows =>
    have mem := held (.lazy ⟨root, windows⟩ payload) List.mem_cons_self
    exact (Block.materialise_demands sound mem unloaded).bind_pure sound
      (sound.suffix_mem mem List.nil_suffix)
      ((Block.materialise_meets mem).mono (fun _ _ _ _ ↦ trivial) fun _ _ ↦ trivial)
  | single bars =>
    have mem := held _ List.mem_cons_self
    exact (Block.single_reader.demands sound mem unloaded bars).bind_pure sound
      (bars.mem sound mem) (Block.single_reader.meets mem _)
  | list bars =>
    have mem := held _ List.mem_cons_self
    exact (Block.readList_reader.demands sound mem unloaded bars).bind_pure sound
      (bars.mem sound mem) (Block.readList_reader.meets mem _)
  | isNull bars =>
    have mem := held _ List.mem_cons_self
    exact (Block.isNull_reader.demands sound mem unloaded bars).ask sound (bars.mem sound mem)
      (Block.isNull_reader.meets mem _)
  | readInt width bars =>
    have mem := held _ List.mem_cons_self
    exact ((Block.readInt_reader width).demands sound mem unloaded bars).ask sound
      (bars.mem sound mem) ((Block.readInt_reader width).meets mem _)
  | readSlice bars =>
    have mem := held _ List.mem_cons_self
    exact (Block.readSlice_reader.demands sound mem unloaded bars).ask sound (bars.mem sound mem)
      (Block.readSlice_reader.meets mem _)
  | sliceLength bars =>
    have mem := held _ List.mem_cons_self
    exact (Block.sliceLength_reader.demands sound mem unloaded bars).ask sound
      (bars.mem sound mem) (Block.sliceLength_reader.meets mem _)
  | value bars =>
    have mem := held _ List.mem_cons_self
    exact (Block.value_demands sound mem unloaded bars).ask sound (bars.mem sound mem)
      (Block.value_reader.meets mem _)
  | dataSize bars =>
    have mem := held _ List.mem_cons_self
    exact (Block.dataSize_demands sound mem unloaded bars).ask sound (bars.mem sound mem)
      (Block.dataSize_reader.meets mem _)

/-- **A payload is produced at most once**, by whatever blocks it is read. As long as it is not
loaded, every call of the loader has failed and published nothing, and every call that needs the
payload calls the loader once more. Once it is loaded it stays, all clones see it, and the loader is
never called again. -/
theorem Reachable.produced_once {w : World} (reachable : Reachable w) {b : Block}
    (held : b ∈ w.blocks) {promise : Promise} {payload : Block}
    (part : Block.Part w.store.loads (.lazy promise payload) b) :
    promise.root.Produced payload w.store.loads ∧
      (∀ content, w.store.loads.payloads.get? promise.root.cell = some content →
        ∀ allowed later, w.Leads allowed later → w.Rests promise.root.cell content later) ∧
      (w.store.loads.payloads.get? promise.root.cell = none →
        ∀ call : Call, call.Needs promise.root payload w.store.loads →
          (∀ c ∈ call.operands, c ∈ w.blocks) →
          call.run.Demands promise.root payload w.store) := by
  obtain ⟨K, sound, known⟩ := reachable.sound
  refine ⟨?_, fun content loaded allowed later leads ↦ leads.rests reachable held part loaded,
    fun unloaded call needs there ↦
      needs.demands sound (fun c mem ↦ known c (there c mem)) unloaded⟩
  exact sound.delivered.produced _ _
    (sound.suffix_mem (sound.part_mem part (known b held)) List.nil_suffix)

namespace World

/-- A loader of three integers that hands over too few of them at first. -/
def flakyRoot : Root := ⟨2, 3, fun n ↦ if n = 0 then some .miscounted else none⟩

/-- A promise of the three integers. -/
def flakyBlock : Block := .lazy ⟨flakyRoot, []⟩ deferredLeaf

/-- Two keys to the integers promised. -/
def flakyKeys : Keys := ⟨0, 2, .ofList 4 [2, 0], ⟨.own, 0⟩, 3, 5, by decide⟩

/-- The world that holds the integers, the promise, and a dictionary block over the promise. -/
def flaky : World :=
  ((empty.after (.intsOfOptions .long [some 1, some 2, some 3])).after
    (.defer deferredLeaf flakyRoot.count flakyRoot.refusal)).after
      (.dictionary flakyBlock [2, 0] none)

theorem blocks_flaky :
    flaky.blocks = [.dictionary flakyKeys flakyBlock, flakyBlock, deferredLeaf] := rfl

theorem reachable_flaky : Reachable flaky :=
  .after (.after (.after .empty (by rintro _ ⟨⟩) trivial)
    (fun _ mem ↦ List.mem_singleton.1 mem ▸ List.mem_cons_self) trivial)
    (fun _ mem ↦ List.mem_singleton.1 mem ▸ List.mem_cons_self) trivial

/-- The worlds after an attempt to read the dictionary block, and one to read the promise. -/
def attempted : World := flaky.after (.ask (.value (.dictionary flakyKeys flakyBlock) 1))

@[inherit_doc attempted] def retried : World := attempted.after (.ask (.value flakyBlock 0))

/-- The first attempt leaves nothing behind, the second one loads the integers, and they stay. -/
theorem produced_once_flaky :
    attempted.store.loads.payloads = flaky.store.loads.payloads ∧
      attempted.store.loads.callCount 2 = 1 ∧
      retried.store.loads.payloads.get? 2 = some deferredLeaf ∧
      retried.store.loads.callCount 2 = 2 ∧
        ∀ later, retried.Leads (fun _ ↦ True) later → retried.Rests 2 deferredLeaf later := by
  have held : flakyBlock ∈ flaky.blocks := by simp [blocks_flaky]
  have wrapped : ∀ b ∈ [Block.dictionary flakyKeys flakyBlock], b ∈ flaky.blocks := by
    simp [blocks_flaky]
  obtain ⟨-, -, retries⟩ := reachable_flaky.produced_once held .refl
  -- The second key refers to the first of the integers promised.
  have refers : flakyKeys.id 1 = .ok 0 := rfl
  obtain ⟨-, nothing, once⟩ :=
    (retries rfl _ (.value (.entry refers (.promise rfl))) wrapped).fails (.inl nofun)
  rw [← World.store_after] at nothing once
  change attempted.store.loads.payloads = flaky.store.loads.payloads at nothing
  change attempted.store.loads.callCount 2 = 1 at once
  have reachable₁ : Reachable attempted := reachable_flaky.after wrapped trivial
  have held₁ : flakyBlock ∈ attempted.blocks := mem_after held _
  have operand : ∀ b ∈ [flakyBlock], b ∈ attempted.blocks :=
    fun _ mem ↦ List.mem_singleton.1 mem ▸ held₁
  obtain ⟨-, -, retries⟩ := reachable₁.produced_once held₁ .refl
  have succeeds : ¬ flakyRoot.Fails deferredLeaf (attempted.store.loads.callCount 2) := by
    rw [once]
    rintro (refused | miscounted)
    · exact refused rfl
    · exact miscounted rfl
  have unloaded : attempted.store.loads.payloads.get? 2 = none := nothing ▸ rfl
  have empty : attempted.store.loads.content? 2 deferredLeaf.depth = none := by
    rw [Loads.content?, unloaded]
  have bars : flakyRoot.Bars deferredLeaf attempted.store.loads true flakyBlock 0 := .promise empty
  obtain ⟨loaded, twice⟩ := (retries unloaded _ (.value bars) operand).succeeds succeeds
  rw [← World.store_after] at loaded twice
  have reachable₂ : Reachable retried := reachable₁.after operand trivial
  obtain ⟨-, rests, -⟩ := reachable₂.produced_once (mem_after held₁ _) .refl
  exact ⟨nothing, once, loaded, twice.trans (congrArg (· + 1) once),
    fun later leads ↦ rests _ loaded _ later leads⟩

end World

end BatchColumn
