import BatchColumn.Proofs.Availability
import BatchColumn.Proofs.Loading
import BatchColumn.Proofs.Nullness

/-!
# Loading a block throughout

Materialising a block is complete: afterwards nothing is left to load in the result, nor in the
block itself, with which it shares its cells (`Block.isLoaded_of_materialise`, by induction on
depth). So every position of both is read, in every later world, and no call on them calls a loader
(`Reachable.materialise_settles`).

The layers above a block that was not loaded are made anew. Of a dictionary block these are keys
with the same ids, under a handle that was just given out and an identity that was just minted
(`Block.of_outcome_materialise`). The layer above a block that was loaded is duplicated, with its
handle and its identity (`Block.outcome_materialise_of_isLoaded`); the result of materialising is
such a block.
-/

namespace BatchColumn

variable {α : Type} {K : Census} {b r : Block} {store after : Store}

namespace Block

/-! ### Nothing is left to load -/

/-- A block is loaded throughout if what it comes to is. -/
theorem isLoaded_of_face {loads : Loads} {face : Face b.depth} (shown : b.face? loads = some face) :
    b.isLoaded loads = face.toBlock.isLoaded loads := by
  rw [isLoaded, shown]
  rcases face with leaf | leaf | ⟨lists, elements, below⟩ | ⟨keys, entries, below⟩
  all_goals rw [Face.toBlock, isLoaded, face?]

/-- **Materialising is complete**: the result is loaded throughout, and so is the block. -/
theorem isLoaded_of_materialise (sound : Sound K store.loads store.ledger) (mem : b ∈ K)
    (run : b.materialise.outcome store = (.ok r, after)) :
    r.isLoaded after.loads = true ∧ b.isLoaded after.loads = true := by
  induction b using Block.walk generalizing K store after r with
  | step b ih =>
    rw [materialise] at run
    obtain ⟨face, middle, revealed, run⟩ := Session.exists_of_outcome_bind run
    have shown := face?_of_reveal sound mem revealed
    obtain ⟨L, -, later, ⟨present, -, -⟩, -⟩ :=
      (reveal_meets (K := K.note store.loads) mem).leaves sound revealed
    -- What the block comes to is loaded in the end, and with it the block.
    have throughout : middle.loads.payloads.Grows after.loads.payloads →
        face.toBlock.isLoaded after.loads = true → b.isLoaded after.loads = true :=
      fun grows ↦ (isLoaded_of_face (face?_of_grows grows shown)).trans
    rcases face with leaf | leaf | ⟨lists, elements, below⟩ | ⟨keys, entries, below⟩
    · cases run
      have loaded : (ints leaf).isLoaded after.loads = true := by rw [isLoaded, face?]
      exact ⟨loaded, throughout (fun _ _ ↦ id) loaded⟩
    · cases run
      have loaded : (slices leaf).isLoaded after.loads = true := by rw [isLoaded, face?]
      exact ⟨loaded, throughout (fun _ _ ↦ id) loaded⟩
    · rw [Session.outcome_get_bind] at run
      rw [Face.toBlock, isLoaded_array] at throughout
      split at run
      next loaded =>
        cases run
        exact ⟨(isLoaded_array _ _ _).trans loaded, throughout (fun _ _ ↦ id) loaded⟩
      next =>
        have mem := later.elements_mem present
        obtain ⟨others, last, inner, run⟩ := Session.exists_of_outcome_bind run
        obtain ⟨-, -, -, -, grows⟩ :=
          (materialise_meets (K := L.note middle.loads) mem).leaves later inner
        obtain ⟨made, loaded⟩ := ih elements below later mem inner
        cases run
        exact ⟨(isLoaded_array _ _ _).trans made, throughout grows loaded⟩
    · rw [Session.outcome_get_bind] at run
      rw [Face.toBlock, isLoaded_dictionary] at throughout
      split at run
      next loaded =>
        cases run
        exact ⟨(isLoaded_dictionary _ _ _).trans loaded, throughout (fun _ _ ↦ id) loaded⟩
      next =>
        have mem := later.entries_mem present
        obtain ⟨others, last, inner, run⟩ := Session.exists_of_outcome_bind run
        obtain ⟨-, -, -, -, grows⟩ :=
          (materialise_meets (K := L.note middle.loads) mem).leaves later inner
        obtain ⟨made, loaded⟩ := ih entries below later mem inner
        obtain ⟨handle, _, ⟨⟩, run⟩ := Session.exists_of_outcome_bind run
        obtain ⟨source, _, ⟨⟩, run⟩ := Session.exists_of_outcome_bind run
        obtain ⟨keys, _, built, ⟨⟩⟩ := Session.exists_of_outcome_bind run
        have same : after.loads = last.loads := congrArg (fun ended ↦ ended.2.loads) built.symm
        refine ⟨?_, throughout (same ▸ grows) (same ▸ loaded)⟩
        rw [isLoaded_dictionary, same]
        exact made

/-! ### What becomes of keys -/

variable {keys : Keys} {entries : Block}

/-- Keys to entries that are loaded throughout are duplicated. -/
theorem outcome_materialise_of_isLoaded (loaded : entries.isLoaded store.loads = true) :
    (dictionary keys entries).materialise.outcome store =
      (.ok (dictionary { keys with memory := store.ledger.next } entries),
        { store with ledger := store.ledger.carried keys.memory }) := by
  rw [materialise, reveal, pure_bind]
  show ((if entries.isLoaded store.loads then do
      return dictionary (← keys.duplicate) entries
    else _ : Session Block).outcome store) = _
  rw [if_pos loaded]
  rfl

/-- **Keys to entries that are not loaded get a new handle and a new identity**, and keep their
ids. -/
theorem of_outcome_materialise (sound : Sound K store.loads store.ledger) (tracked : K.tracks)
    (mem : dictionary keys entries ∈ K) (unloaded : entries.isLoaded store.loads = false)
    (run : (dictionary keys entries).materialise.outcome store = (.ok r, after)) :
    ∃ made others, r = dictionary made others ∧
      (made.ids = keys.ids ∧ made.offset = keys.offset ∧ made.count = keys.count) ∧
      keys.handle < made.handle ∧
        ∃ n, store.ledger.minted ≤ n ∧ n < after.ledger.minted ∧ made.source = ⟨.own, n⟩ := by
  rw [materialise, reveal, pure_bind] at run
  change ((if entries.isLoaded store.loads then do
      return dictionary (← keys.duplicate) entries
    else _ : Session Block).outcome store) = _ at run
  rw [if_neg (Bool.eq_false_iff.1 unloaded)] at run
  have mem := Census.mem_of_le (K.le_raise store.ledger.minted) mem
  obtain ⟨others, middle, inner, run⟩ := Session.exists_of_outcome_bind run
  obtain ⟨L, le, later, -, -⟩ := (materialise_meets
    (K := (K.raise store.ledger.minted).note store.loads) (sound.raise.entries_mem mem)).leaves
    sound.raise inner
  obtain ⟨handle, _, ⟨⟩, run⟩ := Session.exists_of_outcome_bind run
  obtain ⟨source, _, ⟨⟩, run⟩ := Session.exists_of_outcome_bind run
  obtain ⟨made, _, built, ⟨⟩⟩ := Session.exists_of_outcome_bind run
  obtain ⟨⟩ := (Session.outcome_query (Keys.outcome_make_none keys.fits _ others _ _ _)).symm.trans
    built
  have early : store.ledger.minted ≤ middle.ledger.minted :=
    ((Nat.le_max_right _ _).trans le.floor).trans later.sourced.floor
  have tracked : L.tracks := le.tracks ▸ tracked
  exact ⟨_, others, rfl, ⟨rfl, rfl, rfl⟩, later.handle_lt tracked (Census.mem_of_le le mem), _,
    early, Nat.lt_succ_self _, rfl⟩

/-! ### What is read of a block that is loaded throughout -/

/-- **The value of every position is read, and whether it is null.** Both are those of the datum
that the position holds. -/
theorem exists_datum_of_isLoaded (sound : Sound K store.loads store.ledger) (mem : b ∈ K)
    (loaded : b.isLoaded store.loads = true) {position : Nat}
    (inside : position < b.positionCount) :
    ∃ datum, b.datum? position = some datum ∧
      ((b.value position).outcome store).1 = .ok datum.value ∧
      ((b.isNull position).outcome store).1 = .ok datum.isNull := by
  obtain ⟨v, _, answer⟩ := (value_answers (K := K.note store.loads) mem (fun _ _ ↦ id) loaded
    inside).exists_answer sound.note fun _ ↦ id
  have run := congrArg Prod.fst answer
  obtain ⟨null, flag⟩ := exists_isNull_of_value run
  obtain ⟨L, -, -, valued⟩ := value_reads mem position store sound
  obtain ⟨M, -, -, flagged⟩ := isNull_reads mem position store sound
  rw [run] at valued
  rw [flag] at flagged
  obtain ⟨datum, found, value⟩ := valued
  obtain ⟨other, same, marked⟩ := flagged
  obtain rfl : datum = other := Option.some.inj (found.symm.trans same)
  exact ⟨datum, found, run.trans (congrArg _ (Except.ok.inj value).symm),
    flag.trans (congrArg _ (Except.ok.inj marked).symm)⟩

end Block

/-! ### In reachable worlds -/

/-- A datum is null just if its value is the null value. -/
theorem Datum.isNull_eq_decide (datum : Datum) : datum.isNull = decide (datum.value = .null) :=
  Bool.eq_iff_iff.2 (datum.value_eq_null_iff.symm.trans decide_eq_true_iff.symm)

/-- What is loaded throughout is read in every later world. -/
theorem Reachable.reads_of_isLoaded {w : World} (reachable : Reachable w) (held : b ∈ w.blocks)
    (loaded : b.isLoaded w.store.loads = true) {position : Nat} {datum : Datum}
    (found : b.datum? position = some datum) {allowed : Call → Prop} {later : World}
    (leads : w.Leads allowed later) :
    ((b.value position).outcome later.store).1 = .ok datum.value ∧
      ((b.isNull position).outcome later.store).1 = .ok (decide (datum.value = .null)) := by
  obtain ⟨K, sound, known⟩ := (leads.reachable reachable).sound
  have inside : position < b.positionCount := by
    by_contra outside
    rw [Block.datum?_of_le (Nat.le_of_not_lt outside)] at found
    cases found
  obtain ⟨other, same, value, flag⟩ := Block.exists_datum_of_isLoaded sound
    (known b (leads.mem held)) (Block.isLoaded_of_grows (leads.grows reachable) loaded) inside
  obtain rfl := Option.some.inj (found.symm.trans same)
  exact ⟨value, flag.trans (congrArg _ datum.isNull_eq_decide)⟩

/-- What becomes of keys to entries when their block is materialised, from one world to another. -/
structure Keys.MaterialisedAs (keys : Keys) (entries : Block) (made : Keys) (others : Block)
    (w after : World) : Prop where
  /-- They are a view of the same ids. -/
  ids : made.ids = keys.ids ∧ made.offset = keys.offset ∧ made.count = keys.count
  /-- They keep the identity and the handle just if the entries were loaded. -/
  kept : made.source = keys.source ∧ made.handle = keys.handle ↔
    entries.isLoaded w.store.loads = true
  /-- Otherwise the handle is a later one, and the identity is newly minted. -/
  fresh : entries.isLoaded w.store.loads = false → keys.handle < made.handle ∧
    ∃ n, w.store.ledger.minted ≤ n ∧ n < after.store.ledger.minted ∧ made.source = ⟨.own, n⟩
  /-- Materialised again they keep the identity and the handle. -/
  again : ∀ allowed later, after.Leads allowed later → ∃ copy store,
    (Block.dictionary made others).materialise.outcome later.store =
        (.ok (.dictionary copy others), store) ∧
      copy.source = made.source ∧ copy.handle = made.handle

/-- What becomes of a block that is materialised, from one world to another. -/
structure Block.MaterialisedAs (b r : Block) (w after : World) : Prop where
  /-- The result is held. -/
  held : r ∈ after.blocks
  /-- It has as many positions. -/
  count : r.positionCount = b.positionCount
  /-- Nothing is left to load in it. -/
  result : r.isLoaded after.store.loads = true
  /-- Nor is there in the block. -/
  block : b.isLoaded after.store.loads = true
  /-- Every position has a value. The block has answered with no other value before, and from now on
  both answer with it, and are null where it is the null value. -/
  reads : ∀ position < b.positionCount, ∃ v,
    (∀ other, b.MayAnswer (b.value position) other → other = v) ∧
    (∀ null, b.MayAnswer (b.isNull position) null → null = decide (v = .null)) ∧
    ∀ allowed later, after.Leads allowed later → ∀ c, c = b ∨ c = r →
      ((c.value position).outcome later.store).1 = .ok v ∧
      ((c.isNull position).outcome later.store).1 = .ok (decide (v = .null))
  /-- No call on the two of them calls a loader any more. -/
  rests : ∀ allowed later, after.Leads allowed later → ∀ call : Call,
    (∀ c ∈ call.operands, c = b ∨ c = r) →
      (call.run.outcome later.store).2.loads = later.store.loads
  /-- Of a dictionary block there is a dictionary block made. -/
  keys : ∀ keys entries, b = .dictionary keys entries → ∃ made others,
    r = .dictionary made others ∧ keys.MaterialisedAs entries made others w after

/-- **A dictionary block that was loaded keeps its identity**, and one that was not gets a new
one. -/
theorem Keys.exists_materialisedAs {w after : World} (sound : Sound K w.store.loads w.store.ledger)
    (tracked : K.tracks) {keys : Keys} {entries : Block} (mem : .dictionary keys entries ∈ K)
    (reachable : Reachable after)
    (run : (Block.dictionary keys entries).materialise.outcome w.store = (.ok r, after.store))
    (throughout : r.isLoaded after.store.loads = true) :
    ∃ made others, r = .dictionary made others ∧
      keys.MaterialisedAs entries made others w after := by
  -- Materialising the result again finds nothing to load.
  have again : ∀ made others, r = .dictionary made others → ∀ allowed later,
      after.Leads allowed later → ∃ copy store,
        (Block.dictionary made others).materialise.outcome later.store =
            (.ok (.dictionary copy others), store) ∧
          copy.source = made.source ∧ copy.handle = made.handle := by
    intro made others shape allowed later leads
    have loaded : others.isLoaded after.store.loads = true := by
      rwa [shape, Block.isLoaded_dictionary] at throughout
    exact ⟨_, _, Block.outcome_materialise_of_isLoaded
      (Block.isLoaded_of_grows (leads.grows reachable) loaded), rfl, rfl⟩
  rcases loaded : entries.isLoaded w.store.loads
  · obtain ⟨made, others, shape, ids, handle, source⟩ :=
      Block.of_outcome_materialise sound tracked mem loaded run
    have kept : made.source = keys.source ∧ made.handle = keys.handle ↔
        entries.isLoaded w.store.loads = true := by
      rw [loaded]
      exact ⟨fun same ↦ absurd same.2 handle.ne', fun no ↦ nomatch no⟩
    exact ⟨made, others, shape, ids, kept, fun _ ↦ ⟨handle, source⟩, again made others shape⟩
  · obtain ⟨same, -⟩ :=
      Prod.mk.inj ((Block.outcome_materialise_of_isLoaded loaded).symm.trans run)
    have shape := (Except.ok.inj same).symm
    exact ⟨_, _, shape, ⟨rfl, rfl, rfl⟩, ⟨fun _ ↦ loaded, fun _ ↦ ⟨rfl, rfl⟩⟩,
      fun unloaded ↦ absurd (loaded.symm.trans unloaded) (by decide), again _ _ shape⟩

/-- **Materialising is complete, keeps the values and is stable.** It answers if all promises will
be kept; and whenever it answers, nothing is left to load, every position is read as before, no call
on the block or on the result calls a loader any more, and a dictionary that was loaded already
keeps its identity. -/
theorem Reachable.materialise_settles {w : World} (reachable : Reachable w) {b : Block}
    (held : b ∈ w.blocks) :
    (b.Loadable → ∃ r store, b.materialise.outcome w.store = (.ok r, store)) ∧
      ∀ r store, b.materialise.outcome w.store = (.ok r, store) →
        b.MaterialisedAs r w (w.after (.materialise b)) := by
  obtain ⟨K, tracked, sound, known⟩ := reachable.tracked
  have mem := known b held
  refine ⟨fun kept ↦ (Block.materialise_meets mem).exists_answer sound fun _ ↦ not_not.2 kept,
    fun r store run ↦ ?_⟩
  · obtain ⟨made, throughout⟩ := Block.isLoaded_of_materialise sound mem run
    obtain ⟨L, le, later, ⟨-, mirrors⟩, -⟩ :=
      (Block.materialise_meets (K := K.note w.store.loads) mem).leaves sound run
    have operands : ∀ c ∈ (Call.materialise b).operands, c ∈ w.blocks := by
      simpa [Call.operands] using held
    have call : (Call.materialise b).run.outcome w.store = (.ok [r], store) :=
      Session.outcome_one run
    have next : Reachable ⟨store, r :: w.blocks⟩ := reachable.of_outcome _ operands trivial call
    rw [World.after_of_outcome call]
    -- The block and the result are held, loaded throughout, and hold the same data.
    have both : ∀ c, c = b ∨ c = r →
        c ∈ r :: w.blocks ∧ c.isLoaded store.loads = true ∧ c.datum? = b.datum? := by
      rintro c (rfl | rfl)
      · exact ⟨List.mem_cons_of_mem _ held, throughout, rfl⟩
      · exact ⟨List.mem_cons_self, made, mirrors.datum⟩
    refine ⟨List.mem_cons_self, mirrors.count, made, throughout, fun position inside ↦ ?_,
      fun allowed final leads call operands ↦ ?_, fun keys entries shape ↦ ?_⟩
    · obtain ⟨datum, found, -⟩ :=
        Block.exists_datum_of_isLoaded later (Census.mem_of_le le mem) throughout inside
      refine ⟨datum.value, fun other may ↦ ?_, fun null may ↦ ?_,
        fun allowed final leads c which ↦ ?_⟩
      · have value := may.answer_eq found fun K mem ↦ Block.value_reads mem position
        exact (Except.ok.inj value).symm
      · have flag := may.answer_eq found fun K mem ↦ Block.isNull_reads mem position
        exact (Except.ok.inj flag).symm.trans datum.isNull_eq_decide
      · obtain ⟨there, loaded, same⟩ := both c which
        exact next.reads_of_isLoaded there loaded (same ▸ found) leads
    · refine Call.run_quiet (fun c operand ↦ ?_) final.store.ledger
      obtain ⟨-, loaded, -⟩ := both c (operands c operand)
      exact Block.isLoaded_of_grows (leads.grows next) loaded
    · subst shape
      exact Keys.exists_materialisedAs sound tracked mem next run made

/-- The keys to promised integers are materialised: the integers are loaded, and the keys have the
same ids under a new handle. -/
theorem World.materialise_settles_referred : ∃ r store,
    (Block.dictionary deferredKeys deferredBlock).materialise.outcome referred.store =
        (.ok r, store) ∧
      r.isLoaded store.loads = true ∧
      (Block.dictionary deferredKeys deferredBlock).isLoaded store.loads = true ∧
      ∃ made others, r = .dictionary made others ∧ made.ids = deferredKeys.ids ∧
        deferredKeys.handle < made.handle := by
  have held : .dictionary deferredKeys deferredBlock ∈ referred.blocks := by
    simp [blocks_referred]
  have unloaded : deferredBlock.isLoaded referred.store.loads = false := by
    rw [deferredBlock, Block.isLoaded_lazy]
    rfl
  obtain ⟨answers, settles⟩ := reachable_referred.materialise_settles held
  obtain ⟨r, store, run⟩ := answers loadable_deferredBlock
  have settled := settles r store run
  obtain ⟨made, others, shape, becomes⟩ := settled.keys _ _ rfl
  have result := settled.result
  have block := settled.block
  rw [World.store_after,
    show (Call.materialise (.dictionary deferredKeys deferredBlock)).run.outcome referred.store =
      (.ok [r], store) from Session.outcome_one run] at result block
  exact ⟨r, store, run, result, block, made, others, shape, becomes.ids.1,
    (becomes.fresh unloaded).1⟩

end BatchColumn
