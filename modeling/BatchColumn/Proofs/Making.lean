import BatchColumn.Block.Select
import BatchColumn.Proofs.Ownership
import BatchColumn.Proofs.Sizing

/-!
# Makers make blocks that are well formed

What a maker checks is what makes its block well formed, so a block that is made joins the census.
`Keys.make` checks less than the others: it takes ids as they are, and statistics on the word of its
caller. `Keys.make_meets` says what its callers must know of the ids — that they are positions of
entries, and as distinct and ordered as the hints say. Who vouches for keys as compact and not as
sequential says that their ids do not grow. A selection says so without looking, so where selections
are made ids that grow may be missed (`Keys.Noted`).
-/

namespace BatchColumn

variable {K : Census} {loads : Loads}

/-- Lists that are laid out anew have a new array, beside that of their flags. -/
theorem Lists.stored_ofEnds {storage flags handle memory first : Nat} {ends old : List Nat}
    {nulls : Nulls} {elements : Block} (within : nulls.arrays ⊆ flags :: old)
    (known : ∀ n ∈ old, n ∈ K.issued) :
    (Block.array (ofEnds storage handle memory first ends nulls) elements).Stored
      ((K.issue flags).issue storage).issued := by
  refine .array fun n mem ↦ ?_
  rcases List.mem_cons.1 mem with rfl | mem
  · exact .inl rfl
  · exact .inr ((List.mem_cons.1 (within mem)).imp_right (known n))

/-! ### Keys -/

namespace Keys

/-- Keys that were made of ids. -/
structure Made (K : Census) (handle : Nat) (entries : Block) (ids : List Nat) (source : SourceId)
    (hints : Hints) (keys : Keys) : Prop where
  /-- The dictionary block exists. -/
  mem : .dictionary keys entries ∈ K
  /-- The keys are the ids. -/
  ids : keys.toList = ids
  /-- They refer to the entries by the handle. -/
  handle : keys.handle = handle
  /-- They have the identity. -/
  source : keys.source = source
  /-- Keys that are vouched for as compact remember their statistics. -/
  known : hints.compacted = true → keys.memory ∈ K.known

/-- **Keys made of ids of entries are well formed**, and their statistics are exact if the hints are
right. -/
theorem make_meets {handle : Nat} {entries : Block} {ids : View Nat} {offset count : Nat}
    {source : SourceId} {hints : Hints} (mem : entries ∈ K) (issued : ids.storage ∈ K.issued)
    (inside : ∀ id ∈ stretch ids.toList offset count, id < entries.positionCount)
    (offered : K.Offers source handle entries)
    (compacted : hints.compacted = true →
      (stretch ids.toList offset count).eraseDups.length = entries.positionCount)
    (sequential : hints.sequential = true →
      increasing (stretch ids.toList offset count) = true)
    (missed : hints.compacted = true → increasing (stretch ids.toList offset count) = true →
      hints.sequential = false → K.selects) :
    (make handle entries ids offset count source hints).Meets K loads
      (fun L keys ↦ Made L handle entries (stretch ids.toList offset count) source hints keys ∧
        keys.ids = ids ∧ keys.offset = offset ∧ keys.count = count)
      (fun _ ↦ offset + count ≤ ids.length →
        ¬ ((hints.sequential = true → hints.compacted = true) ∧ (hints.compacted = true →
          entries.isNested loads = false ∧ (entries.Roomy loads ∨ entries.Sized K)))) := by
  rw [make]
  split
  next fits =>
    refine .read_bind (.check_bind (fun _ vouched ↦ ?_) fun _ refused _ good ↦ ?_)
    · refine .check_bind (fun _ _ ↦ ?_) fun _ refused _ good ↦ ?_
      · let built (n : Nat) : Keys := ⟨offset, count, ids, source, handle, n, fits⟩
        refine .fresh_add_bind (fun n ↦ .dictionary (built n) entries) (fun _ ↦ rfl)
          (fun _ ↦ by simpa [Block.parts] using mem) (fun _ ↦ inside) (fun _ ↦ .dictionary issued)
          (fun _ ↦ offered) fun n ↦ ?_
        have present := K.mem_add_self (.dictionary (built n) entries)
        dsimp only
        split
        next hinted =>
          have flat : entries.isNested loads = false := by
            simpa [hinted] using verifyArgument_eq_ok_iff.1 vouched
          -- The statistics are published on the word of the caller, who keeps it.
          refine .bind ((Block.size_meets (Census.mem_of_le (K.le_add _) mem)).refusing
            fun _ refused _ good ↦ ?_) fun L size le confirms ↦ ?_
          · rcases (good.2 hinted).2 with roomy | sized
            · exact refused.1 roomy
            · exact refused.2 (sized.mono (K.le_add _))
          · have missed : increasing (built n).toList = true → hints.sequential = false →
                L.selects := fun grow unsaid ↦ le.selects.mp (missed hinted grow unsaid)
            have told :=
              (built n).exact_of_covers flat (compacted hinted) sequential missed confirms
            refine .publish_bind rfl (Census.mem_of_le le present) told (.pure ?_)
            exact ⟨⟨Census.mem_of_le (Census.le_trans le (L.le_learn _)) present, rfl, rfl, rfl,
              fun _ ↦ .inl rfl⟩, rfl, rfl, rfl⟩
        next unsure =>
          exact .pure ⟨⟨present, rfl, rfl, rfl, fun hinted ↦ absurd hinted unsure⟩, rfl, rfl, rfl⟩
      · rw [verifyArgument_of_imp good.1] at refused
        cases refused
    · rw [verifyArgument_of_imp fun vouched ↦ by simpa using (good.2 vouched).1] at refused
      cases refused
  next beyond => exact .throw fun fits ↦ absurd fits beyond

theorem ofIds_meets {handle : Nat} {entries : Block} {ids : List Nat} {source : SourceId}
    {hints : Hints} (mem : entries ∈ K) (inside : ∀ id ∈ ids, id < entries.positionCount)
    (offered : K.Offers source handle entries)
    (compacted : hints.compacted = true → ids.eraseDups.length = entries.positionCount)
    (sequential : hints.sequential = true → increasing ids = true)
    (missed : hints.compacted = true → increasing ids = true → hints.sequential = false →
      K.selects) :
    (ofIds handle entries ids source hints).Meets K loads
      (fun L keys ↦ Made L handle entries ids source hints keys ∧ keys.Tight ∧
        keys.ids.storage ∉ K.issued)
      (fun _ ↦ ¬ ((hints.sequential = true → hints.compacted = true) ∧ (hints.compacted = true →
        entries.isNested loads = false ∧ (entries.Roomy loads ∨ entries.Sized K)))) := by
  refine .issue_bind fun n new ↦ ?_
  have all : stretch (View.ofList n ids).toList 0 ids.length = ids := by simp
  have made : (make handle entries (.ofList n ids) 0 ids.length source hints).Meets (K.issue n)
      loads _ _ :=
    make_meets mem (.inl rfl) (all.symm ▸ inside) (offered.issue n) (all.symm ▸ compacted)
      (all.symm ▸ sequential) (all.symm ▸ missed)
  rw [all] at made
  refine made.mono (fun L keys _ ⟨made, view, first, count⟩ ↦ ⟨made, ⟨?_, first, ?_⟩, ?_⟩)
    fun _ refused good ↦ refused (Nat.zero_add _).le (good.imp_right fun vouched hinted ↦
      (vouched hinted).imp_right (Or.imp_right (.mono (K.le_issue n))))
  · rw [view, View.isWhole_ofList]
  · rw [count, view, View.length_ofList]
  · rw [view]
    exact new

/-- Keys that nothing is vouched for are always made. -/
theorem ofIds_none_meets {handle : Nat} {entries : Block} {ids : List Nat} {source : SourceId}
    (mem : entries ∈ K) (inside : ∀ id ∈ ids, id < entries.positionCount)
    (offered : K.Offers source handle entries) :
    (ofIds handle entries ids source .none).Meets K loads
      (fun L keys ↦ Made L handle entries ids source .none keys ∧ keys.Tight ∧
        keys.ids.storage ∉ K.issued) (fun _ ↦ False) :=
  (ofIds_meets mem inside offered (by rintro ⟨⟩) (by rintro ⟨⟩) (by rintro ⟨⟩)).refusing
    fun _ refused ↦ refused ⟨by rintro ⟨⟩, by rintro ⟨⟩⟩

/-- Keys that nothing is vouched for are made without asking for anything. -/
theorem outcome_make_none {ids : View Nat} {offset count : Nat}
    (fits : offset + count ≤ ids.length) (handle : Nat) (entries : Block) (source : SourceId)
    (loads : Loads) (ledger : Ledger) :
    (make handle entries ids offset count source .none).outcome loads ledger =
      (.ok ⟨offset, count, ids, source, handle, ledger.next, fits⟩,
        { ledger with next := ledger.next + 1 }) := by
  rw [make, dif_pos fits]
  rfl

end Keys

/-- Offsets and flags that pass the checks cut elements into lists. -/
theorem Lists.intact_of_checks {storage handle memory flags first size : Nat} {ends : List Nat}
    {nulls : Option (List Bool)} (cut : checkOffsets (first :: ends) ends.length size = .ok ())
    (counted : nulls.all (·.length == ends.length) = true)
    (empty : ((nulls.getD []).zip ((first :: ends).zip ends)).all
      (fun (null, start, stop) ↦ !null || start == stop) = true)
    (narrow : ∀ offset ∈ first :: ends, offset < 2 ^ 32) :
    (ofEnds storage handle memory first ends (.ofFlags? flags nulls)).Intact size := by
  obtain ⟨-, sorted, within⟩ := checkOffsets_eq_ok_iff.1 cut
  have start := start_ofEnds storage handle memory first ends (.ofFlags? flags nulls)
  refine .of_starts rfl rfl (fun i inside ↦ ?_) ?_ ?_ (fun i inside marked ↦ ?_) ?_
  · rw [start, start]
    exact getD_le_getD_of_nondecreasing sorted (Nat.le_succ i) (Nat.succ_lt_succ inside)
  · rw [start]
    exact within
  · refine Nulls.spans_ofFlags? _ fun given same ↦ ?_
    show given.length = ends.length
    simpa [same] using counted
  · replace inside : i < ends.length := inside
    have flag : (nulls.getD []).getD i false = true := by rwa [← Nulls.marks_ofFlags? flags]
    have listed : (nulls.getD [])[i]? = some true := by
      rcases given : (nulls.getD [])[i]? with - | null
      · simp [List.getD_eq_getElem?_getD, given] at flag
      · simpa [List.getD_eq_getElem?_getD, given] using flag
    have stored : (first :: ends)[i]? = some ((first :: ends).getD i 0) :=
      getElem?_eq_getD (Nat.lt_succ_of_lt inside)
    have next : ends[i]? = some ((first :: ends).getD (i + 1) 0) :=
      getElem?_eq_getD inside
    rw [start, start]
    exact all_hollow_iff.1 empty i _ _ listed stored next
  · have stored : (first :: ends)[ends.length]? = some ((first :: ends).getD ends.length 0) :=
      getElem?_eq_getD (Nat.lt_succ_self _)
    rw [start]
    exact narrow _ (List.mem_of_getElem? stored)

/-! ### Leaves and promises -/

namespace Block

theorem mkInts_meets (width : Width) (values : List Int) (nulls : Option (List Bool)) :
    (mkInts width values nulls).Meets K loads (fun L b ↦ b ∈ L) (fun _ ↦ True) := by
  refine .issue_bind fun cells _ ↦ .issue_bind fun flags _ ↦ ?_
  refine .check_bind (fun leaf made ↦ ?_) fun _ _ ↦ trivial
  exact .add_leaf (b := ints leaf) rfl rfl (Ints.intact_of_ofFlags? made)
    (.ints (Ints.arrays_of_ofFlags? made) (by simp)) (.pure (Census.mem_add_self _ _))

theorem mkIntsOfOptions_meets (width : Width) (values : List (Option Int)) :
    (mkIntsOfOptions width values).Meets K loads (fun L b ↦ b ∈ L) (fun _ ↦ False) :=
  .issue_bind fun cells _ ↦ .issue_bind fun flags _ ↦
    .add_leaf (b := ints (.ofOptions width cells flags values)) rfl rfl
      (Ints.intact_ofOptions width cells flags values)
      (.ints (Ints.arrays_ofOptions width cells flags values) (by simp))
      (.pure (Census.mem_add_self _ _))

theorem mkSlices_meets (bytes : List UInt8) {offsets : List Nat} (nulls : Option (List Bool))
    (narrow : ∀ offset ∈ offsets, offset < 2 ^ 32) :
    (mkSlices bytes offsets nulls).Meets K loads (fun L b ↦ b ∈ L) (fun _ ↦ True) := by
  refine .storages_bind fun storages _ ↦ .check_bind (fun leaf made ↦ ?_) fun _ _ ↦ trivial
  obtain ⟨whole, within⟩ := Slices.of_ofBytes?_eq_ok made
  exact .add_leaf (b := slices leaf) rfl rfl (Slices.intact_of_ofBytes? made narrow)
    (.slices whole.2.1 within fun _ ↦ K.mem_issueAll) (.pure (Census.mem_add_self _ _))

theorem mkSlicesOfOptions_meets {values : List (Option (List UInt8))}
    (narrow : ∀ octets, some octets ∈ values → octets.length < 2 ^ 32) :
    (mkSlicesOfOptions values).Meets K loads (fun L b ↦ b ∈ L)
      (fun _ ↦ 2 ^ 32 ≤ ((values.map (·.getD [])).map List.length).sum) := by
  refine .storages_bind fun storages _ ↦ ?_
  rcases Nat.lt_or_ge ((values.map (·.getD [])).map List.length).sum (2 ^ 32) with room | past
  · obtain ⟨leaf, run, intact, -⟩ := Slices.ofSlices_eq_ok room
    obtain ⟨whole, within⟩ := Slices.of_ofSlices_eq_ok run
    exact .attempt_ok_bind run (.add_leaf (b := slices leaf) rfl rfl intact
      (.slices whole.2.1 within fun _ ↦ K.mem_issueAll) (.pure (Census.mem_add_self _ _)))
  · exact .attempt_error_bind (Slices.ofSlices_eq_error narrow past) past

theorem mkLazy_meets {payload : Block} (mem : payload ∈ K) (count : Nat)
    (refusal : Nat → Option Error) : (payload.mkLazy count refusal).Meets K loads
      (fun L b ↦ b ∈ L) (fun _ ↦ False) := by
  refine .bind (duplicate_meets mem) fun L copy _ duplicated ↦ ?_
  refine .fresh_add_bind (fun n ↦ «lazy» ⟨⟨n, count, refusal⟩, []⟩ copy) (fun _ ↦ rfl) (fun _ ↦ ?_)
    (fun _ ↦ trivial) (fun _ ↦ .lazy) (fun _ ↦ trivial) fun n ↦ .pure (L.mem_add_self _)
  simpa [parts] using duplicated.1

/-! ### Lists -/

theorem mkArray_meets {elements : Block} (mem : elements ∈ K) {offsets : List Nat}
    (nulls : Option (List Bool)) (narrow : ∀ offset ∈ offsets, offset < 2 ^ 32) :
    (elements.mkArray offsets nulls).Meets K loads (fun L b ↦ b ∈ L) (fun _ ↦ True) := by
  rw [mkArray.eq_def]
  rcases offsets with - | ⟨first, ends⟩
  · exact .throw trivial
  · refine .check_bind (fun _ cut ↦ ?_) fun _ _ ↦ trivial
    refine .check_bind (fun _ counted ↦ ?_) fun _ _ ↦ trivial
    refine .check_bind (fun _ empty ↦ ?_) fun _ _ ↦ trivial
    refine .bind ((duplicate_meets mem).refusing fun _ ↦ False.elim) fun L copy _ duplicated ↦ ?_
    obtain ⟨present, mirrors⟩ := duplicated
    refine .issue_bind fun flags _ ↦ .issue_bind fun storage _ ↦ .fresh_bind fun handle ↦ ?_
    refine .fresh_add_bind (fun n ↦ array (.ofEnds storage handle n first ends
      (.ofFlags? flags nulls)) copy) (fun _ ↦ rfl) (fun _ ↦ by simpa [parts] using present)
      (fun _ ↦ Lists.intact_of_checks (mirrors.count ▸ cut) (verifyArgument_eq_ok_iff.1 counted)
        (verifyArgument_eq_ok_iff.1 empty) narrow)
      (fun _ ↦ Lists.stored_ofEnds (Nulls.arrays_ofFlags? flags nulls) (by simp)) (fun _ ↦ trivial)
      fun n ↦ .pure (Census.mem_add_self _ _)

/-! ### Dictionaries -/

/-- **A dictionary block shows its entries through the ids**, if they are positions of entries. -/
theorem mkDictionary_meets {entries : Block} (mem : entries ∈ K) (ids : List Nat)
    {source : SourceId} (spare : K.Spare source) :
    (entries.mkDictionary ids source).Meets K loads
      (fun L b ↦ b ∈ L ∧ b.Shows entries ids ∧ ∀ id ∈ ids, id < entries.positionCount)
      (fun fault ↦ fault.Rejects (∀ id ∈ ids, id < entries.positionCount)) := by
  refine .check_bind (fun _ passed ↦ ?_) fun _ refused ↦ rejects_of_checkIds refused
  have inside := checkIds_eq_ok_iff.1 passed
  refine .duplicate_bind mem fun copy L _ present mirrors still ↦ .issue_bind fun handle _ ↦ ?_
  have offered : (L.issue handle).Offers source handle copy :=
    .inl ⟨still source spare, fun _ ↦ .inl rfl⟩
  have present : copy ∈ L.issue handle := present
  refine .bind ((Keys.ofIds_none_meets present (mirrors.count.symm ▸ inside) offered).refusing
    fun _ ↦ False.elim) fun M keys _ ⟨made, _⟩ ↦ .pure ⟨made.mem, ?_, inside⟩
  rw [← made.ids]
  exact (keys.shows_toList copy).trans_mirrors mirrors

end Block

/-! ### Selections -/

/-- **Keys are compact just if they refer to every entry** and the entries are no dictionary
block. -/
theorem Keys.isCompact_meets {keys : Keys} {entries : Block} (mem : .dictionary keys entries ∈ K) :
    (keys.isCompact entries).Meets K loads
      (fun _ compact ↦ compact = true ↔ entries.isNested loads = false ∧
        keys.toList.eraseDups.length = entries.positionCount)
      (fun _ ↦ ¬ entries.Roomy loads) := by
  refine .read_bind ?_
  split
  next nested => exact .pure (by simp [nested])
  next flat =>
    refine .bind ((stats_meets mem).refusing fun _ ↦ And.right) fun _ stats _ told ↦ .pure ?_
    simp [flat, told.unique]

/-- Keys are those of other keys at some positions, under the same handle and identity. -/
structure Keys.Picks (selected keys : Keys) (positions : List Nat) : Prop where
  /-- There is one key for each position. -/
  count : selected.count = positions.length
  /-- Its id is that at the position. -/
  ids : ∀ i : Nat, selected.toList[i]? = positions[i]?.bind (keys.toList[·]?)
  /-- The entries go by the same handle. -/
  handle : selected.handle = keys.handle
  /-- They have the same identity. -/
  source : selected.source = keys.source

/-- What is selected of a block. -/
structure Block.Selected (K : Census) (b w : Block) (positions : List Nat) : Prop where
  /-- It exists. -/
  mem : w ∈ K
  /-- It shows the positions. -/
  shows : w.Shows b positions
  /-- They are positions of the block. -/
  inside : ∀ position ∈ positions, position < b.positionCount
  /-- Of a dictionary block, keys to the same entries are selected. -/
  picks : ∀ keys entries, b = .dictionary keys entries →
    ∃ selected : Keys, w = .dictionary selected entries ∧ selected.Picks keys positions

/-- The ids at some positions, looked up one by one. -/
theorem Keys.select_ids_meets {keys : Keys} {entries : Block} (selects : K.selects)
    (mem : .dictionary keys entries ∈ K) (positions : List Nat) {compact : Bool}
    (flat : compact = true → entries.isNested loads = false) :
    (do
      let ids ← positions.mapM fun position => do
        let id ← liftM (keys.id position)
        if compact && entries.positionCount ≤ id then throw .panic
        return id
      let hints : Hints := ⟨compact && (List.range entries.positionCount).all ids.contains, false⟩
      Keys.ofIds keys.handle entries ids keys.source hints : Query Keys).Meets K loads
      (fun L selected ↦ Block.Selected L (.dictionary keys entries) (.dictionary selected entries)
        positions)
      (fun fault ↦ entries.Small loads →
        fault.Rejects (∀ position ∈ positions, position < keys.count)) := by
  refine .of_sound fun ledger sound ↦ ?_
  refine .bind (.mapM (R := fun position id ↦ keys.toList[position]? = some id)
    fun L _ position listed ↦ ?_) fun L ids le found ↦ ?_
  · refine .check_bind (fun id run ↦ ?_) fun _ refused _ ↦
      (Keys.rejects_of_id refused).mono fun inside ↦ inside position listed
    have listed := getElem?_of_id_eq_ok run
    dsimp only
    split
    next beyond =>
      -- Every id is the position of an entry, so this is not reached.
      have room : id < entries.positionCount := sound.formed _ mem id (List.mem_of_getElem? listed)
      simp only [Bool.and_eq_true, decide_eq_true_eq] at beyond
      exact absurd beyond.2 (Nat.not_le.2 room)
    next => exact .pure listed
  · obtain ⟨size, each, among, there⟩ := getElem?_of_forall₂ found
    have inside : ∀ id ∈ ids, id < entries.positionCount :=
      fun id listed ↦ sound.formed _ mem id (among id listed)
    have offered : L.Offers keys.source keys.handle entries :=
      .inr ⟨keys, Census.mem_of_le le mem, rfl, rfl⟩
    refine (Keys.ofIds_meets (Census.mem_of_le le (sound.entries_mem mem)) inside offered
      (fun vouched ↦ ?_) (by rintro ⟨⟩) fun _ _ _ ↦ le.selects.mp selects).mono
        (fun M selected _ ⟨made, _⟩ ↦ ⟨made.mem, ?_, ?_, ?_⟩)
        fun _ refused small ↦ absurd ⟨by rintro ⟨⟩, fun vouched ↦ ⟨?_, .inl small.roomy⟩⟩ refused
    · refine length_eraseDups_of_covers inside fun id room ↦ ?_
      have all := (Bool.and_eq_true_iff.1 vouched).2
      simpa using List.all_eq_true.1 all id (List.mem_range.2 room)
    · refine shows_of_ids ?_ (fun i ↦ ?_) (.refl entries)
      · rw [← length_toList, made.ids, size]
      · rw [made.ids, each]
    · exact fun position listed ↦ (there position listed).trans_eq keys.length_toList
    · rintro _ _ ⟨⟩
      refine ⟨selected, rfl, ?_, fun i ↦ ?_, made.handle, made.source⟩
      · rw [← length_toList, made.ids, size]
      · rw [made.ids, each]
    · exact flat (Bool.and_eq_true_iff.1 vouched).1

/-- **Selected keys show the positions selected.** -/
theorem Keys.select_meets {keys : Keys} {entries : Block} (selects : K.selects)
    (mem : .dictionary keys entries ∈ K) (positions : List Nat) :
    (keys.select entries positions).Meets K loads
      (fun L selected ↦ Block.Selected L (.dictionary keys entries) (.dictionary selected entries)
        positions)
      (fun fault ↦ entries.Small loads →
        fault.Rejects (∀ position ∈ positions, position < keys.count)) := by
  rw [Keys.select]
  split
  · refine .bind ((isCompact_meets mem).refusing fun _ refused small ↦ absurd small.roomy refused)
      fun L compact le told ↦ ?_
    exact select_ids_meets (le.selects.mp selects) (Census.mem_of_le le mem) positions
      fun vouched ↦ (told.1 vouched).1
  · exact .pure_bind (select_ids_meets selects mem positions (by rintro ⟨⟩))

/-- **A selection shows the positions selected**, and every selection of positions can be made, of
a dictionary block if its entries are small. -/
theorem Block.select_meets {b : Block} (selects : K.selects) (mem : b ∈ K) (positions : List Nat)
    (offset length : Nat) :
    (b.select positions offset length).Meets K loads
      (fun L c ↦ Selected L b c (stretch positions offset length) ∧
        offset + length ≤ positions.length)
      (fun fault ↦ (∀ keys entries, b = dictionary keys entries → entries.Small loads) →
        fault.Rejects (offset + length ≤ positions.length ∧
          ∀ position ∈ stretch positions offset length, position < b.positionCount)) := by
  rw [select.eq_def]
  refine .check_bind (fun _ passed ↦ ?_) fun _ refused _ ↦
    (rejects_of_checkStretch refused).mono And.left
  have fits := checkStretch_eq_ok_iff.1 passed
  rcases b with leaf | leaf | ⟨lists, elements⟩ | ⟨keys, entries⟩ | ⟨promise, payload⟩
  case dictionary =>
    exact .bind ((Keys.select_meets selects mem _).refusing fun _ refused small ↦
      (refused (small keys entries rfl)).mono And.right) fun L selected _ made ↦ .pure ⟨made, fits⟩
  all_goals
    refine .check_bind (fun _ _ ↦ .mint_bind fun n _ spare ↦ ?_) fun _ refused _ ↦
      (rejects_of_checkPositions refused).mono And.right
    exact (mkDictionary_meets (Census.mem_of_le (K.le_raise _) mem) _ spare).mono
      (fun L c _ made ↦ ⟨⟨made.1, made.2.1, made.2.2, nofun⟩, fits⟩)
      fun _ refused _ ↦ refused.mono And.right

end BatchColumn
