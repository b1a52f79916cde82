import BatchColumn.Proofs.Agreement

/-!
# Loading a payload

Every block that reads a promise — the promise itself, which duplicates share, and windows of it,
and windows of these — leads to one loader. As long as the payload is not loaded, no window of it is
either, so a load through any of them calls the loader once more. If that call fails, nothing at all
is published (`Root.load_of_fails`); if it does not, the payload is loaded, and all windows on the
way (`Root.load_of_not_fails`).

From then on nothing changes any more: along every run of calls the payload stays, every block with
its cell has loaded it, and the loader is not called again (`World.Leads.rests`).
-/

namespace BatchColumn

/-- What is put into an empty cell is found there. -/
theorem Loads.content?_publish {loads : Loads} {cell bound : Nat}
    (blank : loads.payloads.get? cell = none) (block : Within bound) :
    (loads.publish cell block.1).content? cell bound = some block := by
  have filled : (loads.publish cell block.1).payloads.get? cell = some block.1 := by
    rw [publish, Slots.get?_publish_of_none blank, if_pos rfl]
  rw [content?, filled]
  exact dif_pos block.2

namespace Sound

variable {K : Census} {loads : Loads} {ledger : Ledger} (sound : Sound K loads ledger)
  {root : Root} {window : Window} {windows taken : List Window} {payload : Block}

include sound

/-- The promises that a window was taken of exist. -/
theorem suffix_mem (mem : .lazy ⟨root, windows⟩ payload ∈ K) (suffix : taken <:+ windows) :
    .lazy ⟨root, taken⟩ payload ∈ K := by
  induction windows with
  | nil => exact List.suffix_nil.1 suffix ▸ mem
  | cons window windows ih =>
    rcases List.suffix_cons_iff.1 suffix with rfl | suffix
    · exact mem
    · exact ih (sound.source_mem mem) suffix

/-- As long as a payload is not loaded, no window of it is. -/
theorem unloaded_window (mem : .lazy ⟨root, windows⟩ payload ∈ K)
    (unloaded : loads.payloads.get? root.cell = none) :
    loads.content? (Promise.cell ⟨root, windows⟩) payload.depth = none := by
  refine (sound.delivered.content?_eq_none_iff mem).2 ?_
  induction windows with
  | nil => exact unloaded
  | cons window windows ih =>
    by_contra loaded
    have source := sound.delivered.chained root window windows payload mem
      (Option.isSome_iff_ne_none.2 loaded)
    rw [ih (sound.source_mem mem)] at source
    cases source

/-- A window has another cell than the promises that it was taken of. -/
theorem cell_ne (mem : .lazy ⟨root, window :: windows⟩ payload ∈ K) (suffix : taken <:+ windows) :
    Promise.cell ⟨root, taken⟩ ≠ window.cell := fun same ↦ by
  have there := sound.suffix_mem (sound.source_mem mem) suffix
  obtain ⟨⟨⟩, -⟩ := Delivered.eq_of_cell sound.distinct mem there same
  have fewer := suffix.length_le
  simp at fewer

/-- A call on behalf of a window is none of the loader. -/
theorem callCount_call_window (mem : .lazy ⟨root, window :: windows⟩ payload ∈ K) :
    (loads.call window.cell).callCount root.cell = loads.callCount root.cell := by
  have other : root.cell ≠ window.cell := sound.cell_ne mem List.nil_suffix
  rw [Loads.callCount_call, if_neg other, Nat.add_zero]

end Sound

/-! ### One load -/

namespace Root

variable {K : Census} {root : Root} {payload : Block} {windows : List Window} {store : Store}

/-- **A load that fails publishes nothing**: neither the payload nor any window of it. The loader is
called once. -/
theorem load_of_fails (sound : Sound K store.loads store.ledger)
    (mem : .lazy ⟨root, windows⟩ payload ∈ K)
    (unloaded : store.loads.payloads.get? root.cell = none)
    (fails : root.Fails payload (store.loads.callCount root.cell)) :
    ∃ calls, (root.load payload windows).outcome store =
        (.error (.error ((root.refusal (store.loads.callCount root.cell)).getD .miscounted)),
          { store with loads := ⟨store.loads.payloads, calls⟩ }) ∧
      calls.count root.cell = store.loads.callCount root.cell + 1 := by
  induction windows generalizing store with
  | nil =>
    refine ⟨_, outcome_load_of_fails (sound.unloaded_window mem unloaded) fails, ?_⟩
    exact (store.loads.callCount_call _ _).trans (by rw [if_pos rfl])
  | cons window windows ih =>
    let later : Store := { store with loads := store.loads.call window.cell }
    have called : Sound K later.loads later.ledger :=
      sound.call (sound.delivered.call_window sound.distinct sound.spent mem)
    have count : later.loads.callCount root.cell = store.loads.callCount root.cell :=
      sound.callCount_call_window mem
    obtain ⟨calls, run, once⟩ := ih called (sound.source_mem mem) unloaded (count.symm ▸ fails)
    rw [count] at run once
    rw [outcome_load_window (sound.unloaded_window mem unloaded)]
    exact ⟨calls, Session.outcome_bind_of_error run, once⟩

/-- What a load leaves behind that does not fail. -/
structure Settles (root : Root) (windows : List Window) (payload : Block)
    (content : Within payload.depth) (before after : Loads) : Prop where
  /-- What was asked for is loaded. -/
  content : after.content? (Promise.cell ⟨root, windows⟩) payload.depth = some content
  /-- So is the payload. -/
  payload : after.payloads.get? root.cell = some payload
  /-- The loader was called once more. -/
  calls : after.callCount root.cell = before.callCount root.cell + 1
  /-- Nothing else was loaded but windows that were taken before. -/
  other : ∀ cell, (∀ taken, taken <:+ windows → Promise.cell ⟨root, taken⟩ ≠ cell) →
    after.payloads.get? cell = before.payloads.get? cell

/-- **A load that does not fail settles the payload**, and all windows on the way. -/
theorem load_of_not_fails (sound : Sound K store.loads store.ledger)
    (mem : .lazy ⟨root, windows⟩ payload ∈ K)
    (unloaded : store.loads.payloads.get? root.cell = none)
    (succeeds : ¬ root.Fails payload (store.loads.callCount root.cell)) :
    ∃ content after, (root.load payload windows).outcome store = (.ok content, after) ∧
      root.Settles windows payload content store.loads after.loads := by
  induction windows generalizing store with
  | nil =>
    refine ⟨_, _, outcome_load_of_not_fails (sound.unloaded_window mem unloaded) succeeds, ?_⟩
    have blank : (store.loads.call root.cell).payloads.get? root.cell = none := unloaded
    refine ⟨Loads.content?_publish blank ⟨payload, Nat.le_refl _⟩, ?_, ?_, fun cell unlike ↦ ?_⟩
    · exact (Slots.get?_publish_of_none blank _ _).trans (if_pos rfl)
    · rw [Loads.callCount_publish, Loads.callCount_call, if_pos rfl]
    · refine (Slots.get?_publish_of_none blank _ _).trans (if_neg fun same ↦ ?_)
      exact unlike [] List.nil_suffix same.symm
  | cons window windows ih =>
    let later : Store := { store with loads := store.loads.call window.cell }
    have called : Sound K later.loads later.ledger :=
      sound.call (sound.delivered.call_window sound.distinct sound.spent mem)
    have count : later.loads.callCount root.cell = store.loads.callCount root.cell :=
      sound.callCount_call_window mem
    obtain ⟨source, middle, run, settles⟩ :=
      ih called (sound.source_mem mem) unloaded (count.symm ▸ succeeds)
    -- The source is what it promised, so the window can be taken and has the promised length.
    obtain ⟨L, le, settled, ends⟩ := load_meets (sound.source_mem mem) later called
    rw [run] at settled ends
    have fits : window.offset + window.length ≤ Promise.count ⟨root, windows⟩ :=
      sound.formed _ mem
    obtain ⟨-, M, -, -, shown⟩ := Block.windowWithin_meets ends.mem window.offset window.length
      middle.ledger settled
    rcases cut : (source.1.windowWithin window.offset window.length).outcome middle.loads
      middle.ledger with ⟨fault | region, ledger⟩
    all_goals rw [cut] at shown
    · exact absurd (ends.mirrors.count ▸ fits) shown.2
    · let content : Within payload.depth := ⟨region.1, Nat.le_trans region.2 source.2⟩
      have counted : content.1.positionCount = window.length :=
        shown.shows.count.trans List.length_range'
      -- The cell of the window is none of those that were filled on the way.
      have blank : middle.loads.payloads.get? window.cell = none := by
        rw [settles.other _ fun taken suffix ↦ sound.cell_ne mem suffix]
        exact (sound.delivered.content?_eq_none_iff mem).1 (sound.unloaded_window mem unloaded)
      have filled : ∀ cell, (middle.loads.publish window.cell content.1).payloads.get? cell =
          if cell = window.cell then some content.1 else middle.loads.payloads.get? cell :=
        fun cell ↦ Slots.get?_publish_of_none blank cell content.1
      refine ⟨content, ⟨middle.loads.publish window.cell content.1, ledger⟩, ?_, ?_, ?_, ?_,
        fun cell unlike ↦ ?_⟩
      · rw [outcome_load_window (sound.unloaded_window mem unloaded),
          Session.outcome_bind_of_ok run, Session.outcome_bind_of_ok (Session.outcome_query cut)]
        exact Session.outcome_fill content counted _
      · exact Loads.content?_publish blank content
      · have other : root.cell ≠ window.cell := sound.cell_ne mem List.nil_suffix
        rw [filled, if_neg other]
        exact settles.payload
      · rw [Loads.callCount_publish, settles.calls, count]
      · rw [filled, if_neg fun same ↦ unlike _ (List.suffix_refl _) same.symm]
        exact settles.other cell fun taken suffix ↦
          unlike taken (suffix.trans (List.suffix_cons _ _))

end Root

namespace Root

variable {K : Census} {root : Root} {payload : Block} {windows : List Window} {store : Store}

/-- **A load fills no cells but those on its way**, whether or not it fails. -/
theorem get?_load_of_ne {cell : Nat}
    (other : ∀ taken, taken <:+ windows → Promise.cell ⟨root, taken⟩ ≠ cell) :
    ((root.load payload windows).outcome store).2.loads.payloads.get? cell =
      store.loads.payloads.get? cell := by
  induction windows generalizing store with
  | nil =>
    rcases held : store.loads.content? root.cell payload.depth with - | content
    · by_cases fails : root.Fails payload (store.loads.callCount root.cell)
      · rw [outcome_load_of_fails held fails]
        rfl
      · rw [outcome_load_of_not_fails held fails]
        exact (Slots.get?_publish _ _ _ _).trans (if_neg (other [] List.nil_suffix).symm)
    · have rests : (root.load payload []).outcome store = (.ok content, store) :=
        outcome_load_of_content held
      rw [rests]
  | cons window windows ih =>
    rcases held : store.loads.content? window.cell payload.depth with - | content
    · have kept : ((root.load payload windows).outcome
          { store with loads := store.loads.call window.cell }).2.loads.payloads.get? cell =
            store.loads.payloads.get? cell :=
        ih fun taken suffix ↦ other taken (suffix.trans (List.suffix_cons _ _))
      have apart : cell ≠ window.cell := (other _ (List.suffix_refl _)).symm
      rw [outcome_load_window held]
      rcases run : (root.load payload windows).outcome
        { store with loads := store.loads.call window.cell } with ⟨fault | source, middle⟩
      all_goals rw [run] at kept
      · rw [Session.outcome_bind_of_error run]
        exact kept
      · rw [Session.outcome_bind_of_ok run]
        rcases cut : (source.1.windowWithin window.offset window.length).outcome middle.loads
          middle.ledger with ⟨fault | region, ledger⟩
        · rw [Session.outcome_bind_of_error (Session.outcome_query cut)]
          exact kept
        · rw [Session.outcome_bind_of_ok (Session.outcome_query cut)]
          by_cases counted : region.1.positionCount = window.length
          · rw [Session.outcome_fill ⟨region.1, Nat.le_trans region.2 source.2⟩ counted]
            exact ((Slots.get?_publish _ _ _ _).trans (if_neg apart)).trans kept
          · rw [Session.outcome_fill_of_ne ⟨region.1, Nat.le_trans region.2 source.2⟩ counted]
            exact kept
    · have rests : (root.load payload (window :: windows)).outcome store = (.ok content, store) :=
        outcome_load_of_content held
      rw [rests]

/-- **What a load answers with is what the cell holds then.** -/
theorem content?_of_load (sound : Sound K store.loads store.ledger)
    (mem : .lazy ⟨root, windows⟩ payload ∈ K) {content : Within payload.depth} {after : Store}
    (run : (root.load payload windows).outcome store = (.ok content, after)) :
    after.loads.content? (Promise.cell ⟨root, windows⟩) payload.depth = some content := by
  rcases held : store.loads.content? (Promise.cell ⟨root, windows⟩) payload.depth with - | known
  · have blank := (sound.delivered.content?_eq_none_iff mem).1 held
    cases windows with
    | nil =>
      by_cases fails : root.Fails payload (store.loads.callCount root.cell)
      · rw [outcome_load_of_fails held fails] at run
        cases run
      · rw [outcome_load_of_not_fails held fails] at run
        cases run
        exact Loads.content?_publish blank ⟨payload, Nat.le_refl _⟩
    | cons window windows =>
      rw [outcome_load_window held] at run
      obtain ⟨source, middle, loaded, run⟩ := Session.exists_of_outcome_bind run
      obtain ⟨region, later, cut, run⟩ := Session.exists_of_outcome_bind run
      -- Nothing on the way fills the cell of the window.
      have empty : later.loads.payloads.get? window.cell = none := by
        have same : later.loads = middle.loads := congrArg (fun ended ↦ ended.2.loads) cut.symm
        have kept : ((root.load payload windows).outcome
            { store with loads := store.loads.call window.cell }).2.loads.payloads.get?
              window.cell = store.loads.payloads.get? window.cell :=
          get?_load_of_ne fun _ suffix ↦ sound.cell_ne mem suffix
        rw [loaded] at kept
        rw [same, kept]
        exact blank
      by_cases counted : region.1.positionCount = window.length
      · rw [Session.outcome_fill ⟨region.1, Nat.le_trans region.2 source.2⟩ counted] at run
        cases run
        exact Loads.content?_publish empty ⟨region.1, Nat.le_trans region.2 source.2⟩
      · rw [Session.outcome_fill_of_ne ⟨region.1, Nat.le_trans region.2 source.2⟩ counted] at run
        cases run
  · rw [outcome_load_of_content held] at run
    cases run
    exact held

end Root

/-! ### What a session leaves -/

/-- What a session leaves is sound, and nothing that was loaded is missing. -/
theorem Session.Meets.leaves {α : Type} {K : Census} {store after : Store} {session : Session α}
    {post : Census → α → Prop} {refuse : Fault → Prop} {result : Except Fault α}
    (meets : session.Meets (K.note store.loads) post refuse)
    (sound : Sound K store.loads store.ledger) (run : session.outcome store = (result, after)) :
    ∃ L, K ≤ L ∧ Sound L after.loads after.ledger ∧ Ends result (post L) refuse ∧
      store.loads.payloads.Grows after.loads.payloads := by
  obtain ⟨L, le, later, ends⟩ := meets store sound.note
  rw [run] at later ends
  exact ⟨L, Census.le_trans sound.le_note le, later, ends,
    fun cell content held ↦ later.delivered.past _ _ (le.seen cell content held)⟩

/-- **What is revealed is what the block comes to from then on.** -/
theorem Block.face?_of_reveal {K : Census} {b : Block} {store after : Store}
    (sound : Sound K store.loads store.ledger) (mem : b ∈ K) {face : Face b.depth}
    (run : b.reveal.outcome store = (.ok face, after)) :
    b.face? after.loads = some face := by
  induction b using Block.walk generalizing K store with
  | step b ih =>
    rcases b with leaf | leaf | ⟨lists, elements⟩ | ⟨keys, entries⟩ | ⟨⟨root, windows⟩, payload⟩
    all_goals
      rw [reveal] at run
      rw [face?]
    case «lazy» =>
      obtain ⟨content, middle, loaded, run⟩ := Session.exists_of_outcome_bind run
      obtain ⟨inner, _, shown, ⟨⟩⟩ := Session.exists_of_outcome_bind run
      obtain ⟨L, -, later, brought, -⟩ :=
        (Root.load_meets (K := K.note store.loads) mem).leaves sound loaded
      have held := Root.content?_of_load sound mem loaded
      obtain ⟨-, -, -, -, grows⟩ :=
        (reveal_meets (K := L.note middle.loads) brought.mem).leaves later shown
      rw [Loads.content?_of_grows grows held]
      exact Option.map_eq_some_iff.2
        ⟨inner, ih content.1 (Nat.lt_succ_of_le content.2) later brought.mem shown, rfl⟩
    all_goals
      cases run
      rfl

/-! ### Runs -/

/-- In a later world a content is still loaded, its loader has not been called again, and every
block with its cell has loaded it. -/
structure World.Rests (w : World) (cell : Nat) (content : Block) (later : World) : Prop where
  /-- The content stays. -/
  kept : later.store.loads.payloads.get? cell = some content
  /-- The loader rests. -/
  calls : later.store.loads.callCount cell = w.store.loads.callCount cell
  /-- Clones see the content, at every depth of every block held. -/
  clones : ∀ c ∈ later.blocks, ∀ promise payload,
    Block.Part later.store.loads (.lazy promise payload) c → promise.cell = cell →
      (Block.lazy promise payload).content? later.store.loads = some content

/-- **What is loaded stays loaded** along every run. -/
theorem World.Leads.grows {w later : World} {allowed : Call → Prop} (leads : w.Leads allowed later)
    (reachable : Reachable w) : w.store.loads.payloads.Grows later.store.loads.payloads := by
  obtain ⟨K, given, sound, known⟩ := reachable.counts
  have noted : w.Counts (K.note w.store.loads) := ⟨sound.note, known⟩
  have free : w.Leads (Call.Gives (K.note w.store.loads).given) later :=
    leads.mono fun call _ ↦ (show (K.note w.store.loads).given = .univ from given) ▸ call.gives_univ
  obtain ⟨L, le, after, -⟩ := free.counts noted
  exact fun cell content loaded ↦ after.delivered.past _ _ (le.seen cell content loaded)

section Runs

variable {w : World} (reachable : Reachable w) {b : Block} (held : b ∈ w.blocks)
  {promise : Promise} {payload : Block}

include reachable held

/-- **What is loaded stays loaded, and its loader is not called again**, along every run. -/
theorem World.Leads.rests (part : Block.Part w.store.loads (.lazy promise payload) b)
    {content : Block} (loaded : w.store.loads.payloads.get? promise.root.cell = some content)
    {allowed : Call → Prop} {later : World} (leads : w.Leads allowed later) :
    w.Rests promise.root.cell content later := by
  obtain ⟨K, given, sound, known⟩ := reachable.counts
  have mem := sound.suffix_mem (sound.part_mem part (known b held)) List.nil_suffix
  -- What is loaded now is noted, so the census of the later world has seen it.
  have noted : w.Counts (K.note w.store.loads) := ⟨sound.note, known⟩
  have free : w.Leads (Call.Gives (K.note w.store.loads).given) later :=
    leads.mono fun call _ ↦ (show (K.note w.store.loads).given = .univ from given) ▸ call.gives_univ
  obtain ⟨L, le, after, there⟩ := free.counts noted
  have kept := after.delivered.past _ _ (le.seen _ _ loaded)
  refine ⟨kept, ?_, fun c inside other others found same ↦ ?_⟩
  · exact (sound.delivered.produced _ _ mem).callCount_eq
      (after.delivered.produced _ _ (Census.mem_of_le le mem)) loaded kept
  · obtain ⟨within, seen⟩ := after.delivered.content?_eq
      (after.part_mem found (there c inside)) (same ▸ kept)
    rw [Block.content?, seen]
    rfl

end Runs

end BatchColumn
