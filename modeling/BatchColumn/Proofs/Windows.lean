import BatchColumn.Proofs.Costs
import BatchColumn.Proofs.Outcome
import BatchColumn.Proofs.Rejections

/-!
# Windows, duplicates and loading

A window of a block shows the positions asked for, whatever of it is loaded, is cut from the block,
and exists whenever they are positions of the block (`Block.windowWithin_meets`). Where nothing is
promised it also weighs what they weigh. A duplicate is the block itself with another memory
(`Block.exists_outcome_duplicate`, `Block.duplicate_meets`).

Loading keeps promises: what comes back mirrors the lazy block and is cut from its payload
(`Root.load_meets`), by induction on the windows that were taken before it was loaded, and so does
what `Block.reveal` shows (`Block.reveal_meets`). A block that is `Loadable` is never refused.
-/

namespace BatchColumn

variable {K : Census} {loads : Loads}

namespace Block

/-- A window of a promise shows the positions of the promise. -/
theorem shows_of_promise_window (promise : Promise) (payload : Block) (cell : Nat)
    {offset length : Nat} (fits : offset + length ≤ promise.count) :
    (lazy (promise.window cell offset length) payload).Shows (lazy promise payload)
      (List.range' offset length) := by
  refine .of_window rfl (fun i inside ↦ ?_) (fun i outside ↦ datum?_of_le outside) id
  have room : i < (promise.window cell offset length).count := inside
  rw [datum?, datum?, if_pos room, if_pos (by omega), Promise.shift_window]
  congr 1
  omega

/-- A window has no more positions than its block. -/
theorem Shows.positionCount_le {w b : Block} {offset length : Nat}
    (shows : w.Shows b (List.range' offset length)) (fits : offset + length ≤ b.positionCount) :
    w.positionCount ≤ b.positionCount := by
  rw [shows.count, List.length_range']
  omega

/-- What a window of a block is. -/
structure IsWindow (K : Census) (w b : Block) (offset length : Nat) : Prop where
  /-- It exists. -/
  mem : w ∈ K
  /-- The positions are positions of the block. -/
  fits : offset + length ≤ b.positionCount
  /-- It shows them. -/
  shows : w.Shows b (List.range' offset length)
  /-- It is cut from the block. -/
  cut : w.CutFrom b
  /-- Without promises in it, it weighs what the positions weigh. -/
  trimmed : b.Eager → w.Trimmed b offset length

/-- Keys are windowed under a new memory; all of them keep their statistics. -/
theorem windowWithin_dictionary_meets {keys : Keys} {entries : Block}
    (mem : dictionary keys entries ∈ K) (offset length : Nat) :
    ((dictionary keys entries).windowWithin offset length).Meets K loads
      (fun L w ↦ IsWindow L w.1 (dictionary keys entries) offset length)
      (fun fault ↦ fault.Rejects (offset + length ≤ keys.count)) := by
  refine .of_sound fun ledger sound ↦ ?_
  rw [windowWithin]
  have formed : keys.Intact entries.positionCount := sound.formed _ mem
  by_cases fits : offset + length ≤ keys.count
  · choose w run own origin ids shows using fun memory ↦ Keys.window_eq_ok memory fits entries
    have window : ∀ {L : Census} (n : Nat), dictionary (w n) entries ∈ L →
        IsWindow L (dictionary (w n) entries) (dictionary keys entries) offset length :=
      fun n present ↦ ⟨present, fits, shows n, .dictionary ((shows n).positionCount_le fits),
        fun eager ↦ .dictionary fits ((shows n).count.trans List.length_range') (ids n) eager⟩
    split
    next all =>
      -- All of the keys: the statistics that are taken over are those of the same ids.
      have same : ∀ n, (w n).toList = keys.toList := fun n ↦ by
        rw [ids, show offset = 0 by omega, all, ← keys.length_toList, stretch_all]
      refine .carryOver_keys_bind mem w own same origin (fun n ↦ Keys.ids_of_window (run n))
        fun n ↦ ?_
      exact .check_ok_bind (run n) (.pure (window n (K.mem_add_self _)))
    next =>
      refine .fresh_add_bind (fun n ↦ dictionary (w n) entries) (fun n ↦ congrArg some (own n))
        (fun n ↦ by simpa [parts] using sound.entries_mem mem) (fun n id listed ↦ ?_)
        (fun n ↦ .dictionary (Keys.ids_of_window (run n) ▸ sound.ids_issued mem))
        (fun n ↦ .inr ⟨keys, mem, (origin n).1.symm, (origin n).2.symm⟩) fun n ↦ ?_
      · exact formed id (mem_of_mem_stretch (ids n ▸ listed))
      · exact .check_ok_bind (run n) (.pure (window n (K.mem_add_self _)))
  · have refused : ∀ n, (do
        return ⟨dictionary (← keys.window n offset length) entries, Nat.le_refl _⟩ :
          Query (Within (dictionary keys entries).depth)).Meets K loads
        (fun L w ↦ IsWindow L w.1 (dictionary keys entries) offset length)
        (fun fault ↦ fault.Rejects (offset + length ≤ keys.count)) := fun n ↦
      .check_bind (fun w passed ↦ by rw [Keys.window, dif_neg fits] at passed; cases passed)
        fun _ failed ↦ Keys.rejects_of_window failed
    split
    · exact .carryOver_bind refused
    · exact .fresh_bind refused

/-- **A window shows the positions asked for**, if they are positions of the block. -/
theorem windowWithin_meets {b : Block} (mem : b ∈ K) (offset length : Nat) :
    (b.windowWithin offset length).Meets K loads
      (fun L w ↦ IsWindow L w.1 b offset length)
      (fun fault ↦ fault.Rejects (offset + length ≤ b.positionCount)) := by
  induction b using Block.walk generalizing K offset length with
  | step b ih =>
    refine .of_sound fun ledger sound ↦ ?_
    have formed := sound.formed b mem
    have stored := sound.stored b mem
    rcases b with leaf | leaf | ⟨lists, elements⟩ | ⟨keys, entries⟩ | ⟨promise, payload⟩
    all_goals rw [windowWithin]
    case ints =>
      refine .check_bind (fun _ passed ↦ ?_) fun _ refused ↦ rejects_of_checkRegion refused
      have fits := checkRegion_eq_ok_iff.1 passed
      obtain ⟨w, run, intact, shows⟩ := Ints.window_eq_ok formed fits
      have shared := Ints.arrays_of_window run
      exact .attempt_ok_bind run (.add_leaf (b := ints w) rfl rfl intact
        (.ints (shared ▸ List.Subset.refl _) stored.issued)
        (.pure ⟨K.mem_add_self _, fits, shows, .ints (shows.positionCount_le fits),
          fun _ ↦ .ints fits shows⟩))
    case slices =>
      refine .check_bind (fun _ passed ↦ ?_) fun _ refused ↦ rejects_of_checkRegion refused
      have fits := checkRegion_eq_ok_iff.1 passed
      obtain ⟨w, run, intact, shows⟩ := Slices.window_eq_ok formed fits
      obtain ⟨shared, bytes⟩ := Slices.arrays_of_window run
      exact .attempt_ok_bind run (.add_leaf (b := slices w) rfl rfl intact
        (.slices (bytes ▸ stored.packed leaf rfl) (shared ▸ List.Subset.refl _) stored.issued)
        (.pure ⟨K.mem_add_self _, fits, shows, .slices (shows.positionCount_le fits),
          fun _ ↦ .slices fits shows⟩))
    case array =>
      by_cases fits : offset + length ≤ lists.count
      · choose w run own intact shows using
          fun memory ↦ Lists.window_eq_ok formed memory fits elements
        refine .fresh_add_bind (fun n ↦ array (w n) elements) (fun n ↦ congrArg some (own n))
          (fun n ↦ by simpa [parts] using sound.elements_mem mem) intact
          (fun n ↦ .array (Lists.arrays_of_window (run n) ▸ stored.issued)) (fun _ ↦ trivial)
          fun n ↦ ?_
        exact .check_ok_bind (run n)
          (.pure ⟨K.mem_add_self _, fits, shows n, .array ((shows n).positionCount_le fits),
            fun eager ↦ .array formed (intact n) (run n) eager⟩)
      · refine .fresh_bind fun n ↦ .check_bind (fun w passed ↦ ?_)
          fun _ refused ↦ Lists.rejects_of_window refused
        rw [Lists.window, dif_neg fits] at passed
        cases passed
    case dictionary =>
      have meets : ((dictionary keys entries).windowWithin offset length).Meets K loads _ _ :=
        windowWithin_dictionary_meets mem offset length
      rw [windowWithin] at meets
      exact meets
    case «lazy» =>
      refine .check_bind (fun _ passed ↦ ?_) fun _ refused ↦ rejects_of_checkRegion refused
      have fits := checkRegion_eq_ok_iff.1 passed
      refine .read_bind ?_
      rcases held : loads.content? promise.cell payload.depth with - | content
      · refine .fresh_add_bind (fun n ↦ «lazy» (promise.window n offset length) payload)
          (fun n ↦ rfl) (fun n c part ↦ ?_) (fun n ↦ fits) (fun _ ↦ .lazy) (fun _ ↦ trivial)
          fun n ↦ ?_
        · rwa [List.mem_singleton.1 part]
        · have shows := shows_of_promise_window promise payload n fits
          exact .pure ⟨K.mem_add_self _, fits, shows, .lazy (shows.positionCount_le fits),
            fun eager ↦ eager.elim⟩
      · obtain ⟨present, mirrors, cut⟩ := sound.content mem held
        have shallow := Nat.lt_succ_of_le content.2
        refine .bind ((ih content.1 shallow present offset length).refusing
          fun _ refused ↦ mirrors.count ▸ refused) fun L w _ window ↦ ?_
        exact .pure ⟨window.mem, fits, window.shows.trans_mirrors mirrors,
          (window.cut.trans cut).of_payload promise, fun eager ↦ eager.elim⟩

theorem window_meets {b : Block} (mem : b ∈ K) (offset length : Nat) :
    (b.window offset length).Meets K loads
      (fun L w ↦ w ∈ L ∧ w.Shows b (List.range' offset length))
      (fun _ ↦ ¬ offset + length ≤ b.positionCount) :=
  .bind ((windowWithin_meets mem offset length).refusing fun _ refused ↦ refused.2)
    fun _ _ _ window ↦ .pure ⟨window.mem, window.shows⟩

end Block

/-! ### Duplicates -/

theorem Lists.duplicate_meets {lists : Lists} {elements : Block} (mem : .array lists elements ∈ K) :
    lists.duplicate.Meets K loads
      (fun L copy ↦ .array copy elements ∈ L ∧ ∃ memory, copy = { lists with memory := memory })
      (fun _ ↦ False) :=
  .carryOver_lists_bind mem fun n ↦ .pure ⟨K.mem_add_self _, n, rfl⟩

theorem Keys.duplicate_meets {keys : Keys} {entries : Block} (mem : .dictionary keys entries ∈ K) :
    keys.duplicate.Meets K loads
      (fun L copy ↦ .dictionary copy entries ∈ L ∧ ∃ memory, copy = { keys with memory := memory })
      (fun _ ↦ False) :=
  .carryOver_keys_bind mem (fun n ↦ { keys with memory := n }) (fun _ ↦ rfl) (fun _ ↦ rfl)
    (fun _ ↦ ⟨rfl, rfl⟩) (fun _ ↦ rfl) fun n ↦ .pure ⟨K.mem_add_self _, n, rfl⟩

/-- **A duplicate mirrors its block**, joins the census, and leaves spare identities spare. -/
theorem Query.Meets.duplicate_bind {α : Type} {b : Block} {rest : Block → Query α}
    {post : Census → α → Prop} {refuse : Fault → Prop} (mem : b ∈ K)
    (next : ∀ c L, K ≤ L → c ∈ L → c.Mirrors b → (∀ source, K.Spare source → L.Spare source) →
      (rest c).Meets L loads post refuse) :
    (b.duplicate >>= rest).Meets K loads post refuse := by
  have bare : (rest b).Meets K loads post refuse :=
    next b K (Census.le_refl K) mem (.refl b) fun _ ↦ id
  rcases b with leaf | leaf | ⟨lists, elements⟩ | ⟨keys, entries⟩ | ⟨promise, payload⟩
  · exact bare
  · exact bare
  · rw [Block.duplicate, Lists.duplicate]
    simp only [bind_assoc]
    refine .carryOver_lists_bind mem fun n ↦ ?_
    refine next _ _ (K.le_add _) (K.mem_add_self _) ⟨rfl, rfl, id⟩ fun source spare ↦ ?_
    exact spare.add (by rintro _ _ _ ⟨⟩)
  · rw [Block.duplicate, Keys.duplicate]
    simp only [bind_assoc]
    refine .carryOver_keys_bind mem (fun n ↦ { keys with memory := n }) (fun _ ↦ rfl)
      (fun _ ↦ rfl) (fun _ ↦ ⟨rfl, rfl⟩) (fun _ ↦ rfl) fun n ↦ ?_
    refine next _ _ (K.le_add _) (K.mem_add_self _) ⟨rfl, rfl, id⟩ fun source spare ↦ ?_
    -- The duplicate has the identity of the block, which exists.
    refine spare.add fun kept _ _ same ↦ ?_
    cases same
    have unlike : keys.source ≠ source := spare.ne kept mem
    exact unlike
  · exact bare

theorem Block.duplicate_meets {b : Block} (mem : b ∈ K) :
    b.duplicate.Meets K loads (fun L c ↦ c ∈ L ∧ c.Mirrors b) (fun _ ↦ False) := by
  have meets : (b.duplicate >>= pure).Meets K loads (fun L c ↦ c ∈ L ∧ c.Mirrors b)
      (fun _ ↦ False) :=
    .duplicate_bind mem fun c L _ there mirrors _ ↦ .pure ⟨there, mirrors⟩
  rwa [bind_pure] at meets

namespace Block

/-- The same block, whose outermost layer remembers under another memory. -/
def withMemory (memory : Nat) : Block → Block
  | array lists elements => array { lists with memory := memory } elements
  | dictionary keys entries => dictionary { keys with memory := memory } entries
  | block => block

/-- A duplicate is the block under another memory. -/
theorem exists_outcome_duplicate (b : Block) (loads : Loads) (ledger : Ledger) :
    ∃ memory after, b.duplicate.outcome loads ledger = (.ok (b.withMemory memory), after) := by
  rcases b with leaf | leaf | ⟨lists, elements⟩ | ⟨keys, entries⟩ | ⟨promise, payload⟩
  · exact ⟨0, ledger, rfl⟩
  · exact ⟨0, ledger, rfl⟩
  · exact ⟨ledger.next, _, rfl⟩
  · exact ⟨ledger.next, _, rfl⟩
  · exact ⟨0, ledger, rfl⟩

theorem mirrors_withMemory (memory : Nat) (b : Block) : (b.withMemory memory).Mirrors b := by
  cases b <;> exact ⟨rfl, rfl, id⟩

/-- Only the outermost layer is another one. -/
theorem Part.of_withMemory {memory : Nat} {b c : Block}
    (part : Part loads c (b.withMemory memory)) : c = b.withMemory memory ∨ Part loads c b := by
  rcases b with leaf | leaf | ⟨lists, elements⟩ | ⟨keys, entries⟩ | ⟨promise, payload⟩
  case array =>
    cases part with
    | refl => exact .inl rfl
    | elements part => exact .inr (.elements part)
  case dictionary =>
    cases part with
    | refl => exact .inl rfl
    | entries part => exact .inr (.entries part)
  all_goals exact .inr part

theorem Small.withMemory {memory : Nat} {b : Block} (small : b.Small loads) :
    (b.withMemory memory).Small loads := by
  intro c part
  rcases part.of_withMemory with rfl | part
  · exact (b.mirrors_withMemory memory).count.trans_lt (small b .refl)
  · exact small c part

end Block

/-! ### Loading -/

/-- A payload of the promised length mirrors the promise. -/
theorem Block.mirrors_of_root {root : Root} {payload : Block}
    (counted : payload.positionCount = root.count) :
    payload.Mirrors (.lazy ⟨root, []⟩ payload) where
  count := counted
  datum := by
    funext position
    have shift : Promise.shift ⟨root, []⟩ = 0 := rfl
    rw [datum?, shift, Nat.zero_add]
    split
    next => rfl
    next outside => exact datum?_of_le (counted ▸ Nat.not_lt.1 outside)
  loadable := fun kept ↦ kept.2.2

/-- A window of what a promise mirrors mirrors the window of the promise. -/
theorem Block.mirrors_of_window {root : Root} {window : Window} {windows : List Window}
    {payload source region : Block} (mirrors : source.Mirrors (.lazy ⟨root, windows⟩ payload))
    (shows : region.Shows source (List.range' window.offset window.length))
    (fits : window.offset + window.length ≤ Promise.count ⟨root, windows⟩) :
    region.Mirrors (.lazy ⟨root, window :: windows⟩ payload) := by
  have shown := shows_of_promise_window ⟨root, windows⟩ payload window.cell fits
  have same := shows.trans_mirrors mirrors
  refine ⟨?_, ?_, same.loadable⟩
  · rw [same.count, List.length_range']
    rfl
  · funext i
    rw [same.datum]
    exact (shown.datum i).symm

/-! What loading comes to, as the cells and the loader decide. -/

namespace Root

variable {root : Root} {payload : Block} {store : Store}

/-- What is loaded is not loaded again. -/
theorem outcome_load_of_content {windows : List Window} {content : Within payload.depth}
    (held : store.loads.content? (Promise.cell ⟨root, windows⟩) payload.depth = some content) :
    (root.load payload windows).outcome store = (.ok content, store) := by
  cases windows with
  | nil =>
    rw [load, Session.outcome_get_bind]
    simp only [show store.loads.content? root.cell payload.depth = some content from held]
    rfl
  | cons window windows =>
    rw [load, Session.outcome_get_bind]
    simp only [show store.loads.content? window.cell payload.depth = some content from held]
    rfl

section Unloaded

variable (unloaded : store.loads.content? root.cell payload.depth = none)

include unloaded

/-- A loader that fails is called, and nothing else happens. -/
theorem outcome_load_of_fails (fails : root.Fails payload (store.loads.callCount root.cell)) :
    (root.load payload []).outcome store =
      (.error (.error ((root.refusal (store.loads.callCount root.cell)).getD .miscounted)),
        { store with loads := store.loads.call root.cell }) := by
  rw [load, Session.outcome_get_bind]
  simp only [unloaded]
  rw [Session.outcome_call_bind]
  rcases reported : root.refusal (store.loads.callCount root.cell) with - | cause
  · have miscounted := fails.resolve_left (not_not.2 reported)
    exact Session.outcome_fill_of_ne ⟨payload, Nat.le_refl _⟩ miscounted _
  · rfl

/-- A loader that does not fail fills the cell with the payload. -/
theorem outcome_load_of_not_fails
    (succeeds : ¬ root.Fails payload (store.loads.callCount root.cell)) :
    (root.load payload []).outcome store =
      (.ok ⟨payload, Nat.le_refl _⟩,
        { store with loads := (store.loads.call root.cell).publish root.cell payload }) := by
  obtain ⟨silent, counted⟩ := not_or.1 succeeds
  rw [load, Session.outcome_get_bind]
  simp only [unloaded]
  rw [Session.outcome_call_bind, not_not.1 silent]
  exact Session.outcome_fill ⟨payload, Nat.le_refl _⟩ (not_not.1 counted) _

end Unloaded

/-- A window loads what it was taken of. -/
theorem outcome_load_window {window : Window} {windows : List Window}
    (unloaded : store.loads.content? window.cell payload.depth = none) :
    (root.load payload (window :: windows)).outcome store =
      (do
        let source ← root.load payload windows
        let region ← source.1.windowWithin window.offset window.length
        Session.fill window.cell window.length
          ⟨region.1, Nat.le_trans region.2 source.2⟩ :
            Session (Within payload.depth)).outcome
        { store with loads := store.loads.call window.cell } := by
  rw [load, Session.outcome_get_bind]
  simp only [unloaded]
  rfl

/-- What loading answers with. -/
structure Brings (K : Census) (root : Root) (windows : List Window) (payload content : Block) :
    Prop where
  /-- It exists. -/
  mem : content ∈ K
  /-- It keeps the promise. -/
  mirrors : content.Mirrors (.lazy ⟨root, windows⟩ payload)
  /-- It is cut from the payload. -/
  cut : content.CutFrom payload
  /-- It is seen to be loaded. -/
  seen : (K.seen.get? (Promise.cell ⟨root, windows⟩)).isSome

/-- What is loaded was brought before. -/
theorem brings_of_content {windows : List Window} (sound : Sound K store.loads store.ledger)
    (mem : .lazy ⟨root, windows⟩ payload ∈ K) {content : Within payload.depth}
    (held : store.loads.content? (Promise.cell ⟨root, windows⟩) payload.depth = some content) :
    Brings (K.note store.loads) root windows payload content.1 := by
  obtain ⟨there, mirrors, cut⟩ := sound.content mem held
  exact ⟨there, mirrors, cut, Option.isSome_iff_exists.2 ⟨_, Loads.get?_of_content? held⟩⟩

/-- A loader is called if its payload is not loaded. -/
theorem load_nil_meets (mem : .lazy ⟨root, []⟩ payload ∈ K) :
    (root.load payload []).Meets K (fun L c ↦ Brings L root [] payload c.1)
      (fun _ ↦ ¬ (Block.lazy ⟨root, []⟩ payload).Loadable) := by
  intro store sound
  rcases held : store.loads.content? root.cell payload.depth with - | content
  · have blank := (sound.delivered.content?_eq_none_iff mem).1 held
    by_cases fails : root.Fails payload (store.loads.callCount root.cell)
    · have failed := sound.delivered.fail sound.distinct sound.spent mem blank fails
      rw [outcome_load_of_fails held fails]
      refine ⟨K, K.le_refl, sound.call failed, fun kept ↦ ?_⟩
      exact fails.elim (absurd (kept.1 _)) (absurd kept.2.1.symm)
    · have delivered := sound.delivered.deliver sound.distinct sound.spent mem blank fails
      have mirrors : payload.Mirrors (.lazy ⟨root, []⟩ payload) :=
        Block.mirrors_of_root (not_not.1 (not_or.1 fails).2)
      have present := sound.payload_mem mem
      have later := sound.publish_content mem present mirrors (.refl payload) delivered
      rw [outcome_load_of_not_fails held fails]
      refine ⟨_, later.le_note, later.note, present, mirrors, .refl payload, ?_⟩
      show ((store.loads.payloads.publish root.cell payload).get? root.cell).isSome
      simp [Slots.get?_publish]
  · rw [outcome_load_of_content held]
    exact ⟨_, sound.le_note, sound.note, brings_of_content sound mem held⟩

/-- **Loading keeps promises.** -/
theorem load_meets {windows : List Window} (mem : .lazy ⟨root, windows⟩ payload ∈ K) :
    (root.load payload windows).Meets K (fun L c ↦ Brings L root windows payload c.1)
      (fun _ ↦ ¬ (Block.lazy ⟨root, windows⟩ payload).Loadable) := by
  induction windows generalizing K with
  | nil => exact load_nil_meets mem
  | cons window windows ih =>
    rw [Root.load]
    refine .get_note_bind fun store sound ↦ ?_
    split
    next content held => exact .pure (brings_of_content sound mem held)
    next =>
      -- The promise that the window was taken of is loaded, and its window is taken.
      have mem := Census.mem_of_le sound.le_note mem
      refine .call_window_bind mem fun _ ↦
        .bind (ih (sound.note.source_mem mem)) fun L source later loaded ↦ ?_
      have fits : window.offset + window.length ≤ Promise.count ⟨root, windows⟩ :=
        sound.formed _ mem
      refine .query_bind (fun loads ↦ (Block.windowWithin_meets loaded.mem window.offset
        window.length).refusing fun _ refused ↦ ?_) fun M region latest shown ↦ ?_
      · exact absurd (loaded.mirrors.count ▸ fits) refused.2
      · have mirrors := Block.mirrors_of_window loaded.mirrors shown.shows fits
        have still := Census.mem_of_le (Census.le_trans later latest) mem
        obtain ⟨below, held⟩ := Option.isSome_iff_exists.1 loaded.seen
        have filled := Session.Meets.fill_window
          (⟨region.1, Nat.le_trans region.2 source.2⟩ : Within payload.depth) still shown.mem
          mirrors (shown.cut.trans loaded.cut)
          (Option.isSome_iff_exists.2 ⟨below, latest.seen _ _ held⟩)
        exact filled.mono (fun _ _ _ ⟨there, same, cut, seen⟩ ↦ ⟨there, same, cut, seen⟩)
          fun _ ↦ False.elim

end Root

/-- **What is revealed mirrors the block**, and is cut from it. -/
theorem Block.reveal_meets {b : Block} (mem : b ∈ K) :
    b.reveal.Meets K
      (fun L face ↦ face.toBlock ∈ L ∧ face.toBlock.Mirrors b ∧ face.toBlock.CutFrom b)
      (fun _ ↦ ¬ b.Loadable) := by
  induction b using Block.walk generalizing K with
  | step b ih =>
    rcases b with leaf | leaf | ⟨lists, elements⟩ | ⟨keys, entries⟩ | ⟨promise, payload⟩
    all_goals rw [reveal]
    · exact .pure ⟨mem, .refl _, .refl _⟩
    · exact .pure ⟨mem, .refl _, .refl _⟩
    · exact .pure ⟨mem, .refl _, .refl _⟩
    · exact .pure ⟨mem, .refl _, .refl _⟩
    · refine .bind (Root.load_meets mem) fun L content le loaded ↦ ?_
      refine .bind ((ih content.1 (Nat.lt_succ_of_le content.2) loaded.mem).refusing
        fun _ refused kept ↦ refused (loaded.mirrors.loadable kept)) fun M face _ shown ↦ ?_
      obtain ⟨there, same, deeper⟩ := shown
      exact .pure ((Face.toBlock_widen _ face).symm ▸
        ⟨there, same.trans loaded.mirrors, (deeper.trans loaded.cut).of_payload promise⟩)

end BatchColumn
