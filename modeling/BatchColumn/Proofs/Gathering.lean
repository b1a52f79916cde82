import BatchColumn.Proofs.Making
import BatchColumn.Proofs.Totals

/-!
# Gathering shows the positions gathered

A gather shows the positions that it is asked for, in their order and with their repetitions, and
what stands under a null as well. It fails for positions that are not good before anything else, and
for good ones only if something in the way of the leaf is unloaded or the values do not fit together
(`Block.Ungathered`). This is one induction on depth (`Block.gather_meets`): an array gathers the
members of its lists, a dictionary either gathers its entries or renumbers the distinct ones.

The induction carries more facts. What is gathered can be sized without room, and it is no
dictionary block unless the block is one. The second is what lets the hint of a new dictionary say
that it is compact, and the hint is what makes the first true of it. Nothing is promised in what is
gathered, and where there are no keys there are none in it either. And all of it is owned: every
layer is laid out over arrays that were given out for it.
-/

namespace BatchColumn

variable {K : Census} {loads : Loads}

namespace Block

@[simp] theorem isNested_ints (loads : Loads) (leaf : Ints) :
    (ints leaf).isNested loads = false := by
  rw [isNested, resolved?, face?]
  rfl

@[simp] theorem isNested_slices (loads : Loads) (leaf : Slices) :
    (slices leaf).isNested loads = false := by
  rw [isNested, resolved?, face?]
  rfl

@[simp] theorem isNested_array (loads : Loads) (lists : Lists) (elements : Block) :
    (array lists elements).isNested loads = false := by
  rw [isNested, resolved?, face?]
  rfl

@[simp] theorem isNested_dictionary (loads : Loads) (keys : Keys) (entries : Block) :
    (dictionary keys entries).isNested loads = true := by
  rw [isNested, resolved?, face?]
  rfl

/-- Distinct positions of a block are no more than there are. -/
theorem Shows.positionCount_lt {w b : Block} {positions : List Nat} {bound : Nat}
    (shows : w.Shows b positions) (bounded : b.Bounded bound loads)
    (inside : ∀ position ∈ positions, position < b.positionCount)
    (distinct : positions.Nodup) : w.positionCount < bound := by
  rw [shows.count]
  exact Nat.lt_of_le_of_lt (length_le_of_nodup distinct inside) bounded.positionCount_lt

/-- The result of a gather. -/
structure Gathered (K : Census) (loads : Loads) (b w : Block) (positions : List Nat) : Prop where
  /-- It exists. -/
  mem : w ∈ K
  /-- It shows the positions. -/
  shows : w.Shows b positions
  /-- They are positions of the block. -/
  inside : ∀ position ∈ positions, position < b.positionCount
  /-- The block can be gathered. -/
  able : b.supportsGather loads = true
  /-- It can be sized without room. -/
  sized : w.Sized K
  /-- It is a dictionary block only if the block is. -/
  flat : b.isNested loads = false → w.isNested loads = false
  /-- Nothing is promised in it. -/
  eager : w.Eager
  /-- It has keys only if the block has. -/
  keyless : b.Keyless loads → w.Keyless loads
  /-- It has no more positions at any depth if no position is gathered twice. -/
  bounded : b.Keyless loads → ∀ bound, b.Bounded bound loads → positions.Nodup →
    w.Bounded bound loads

theorem Gathered.mono {K L : Census} {b w : Block} {positions : List Nat} (le : K ≤ L)
    (gathered : Gathered K loads b w positions) : Gathered L loads b w positions :=
  { gathered with
    mem := Census.mem_of_le le gathered.mem
    sized := gathered.sized.mono le }

/-- Why a gather fails: for the positions, or else because the block cannot be gathered or the
values do not fit together. -/
def Ungathered (loads : Loads) (b : Block) (positions : List Nat) (fault : Fault) : Prop :=
  fault.Rejects (∀ position ∈ positions, position < b.positionCount) ∨
    (∀ position ∈ positions, position < b.positionCount) ∧
      (fault.isUnsupported = true ∧ b.supportsGather loads = false ∨
        fault = .panic ∧ ¬ b.Fits loads positions)

/-- Good positions are refused only by a block that cannot be gathered, or for values that do not
fit together. -/
theorem Ungathered.unable_or {b : Block} {positions : List Nat} {fault : Fault}
    (refused : b.Ungathered loads positions fault)
    (inside : ∀ position ∈ positions, position < b.positionCount) :
    fault.isUnsupported = true ∧ b.supportsGather loads = false ∨
      fault = .panic ∧ ¬ b.Fits loads positions :=
  refused.elim (fun rejects ↦ absurd inside rejects.2) And.right

/-- Good positions of values that fit together are refused only by a block that cannot be
gathered. -/
theorem Ungathered.unable {b : Block} {positions : List Nat} {fault : Fault}
    (refused : b.Ungathered loads positions fault)
    (inside : ∀ position ∈ positions, position < b.positionCount)
    (fits : b.Fits loads positions) :
    fault.isUnsupported = true ∧ b.supportsGather loads = false :=
  (refused.unable_or inside).resolve_right fun beyond ↦ beyond.2 fits

/-- A gather shows the positions gathered, in a block that is owned, and fails only for positions
that are not good, for what is not loaded or for values that do not fit together. -/
def Gathers (K : Census) (loads : Loads) (b : Block) (positions : List Nat) : Prop :=
  (b.gather positions).Meets K loads
    (fun L w ↦ Gathered L loads b w positions ∧ w.Owned K.issued loads)
    (b.Ungathered loads positions)

/-- A gather is one of what the block comes to. -/
theorem Gathers.of_face {b : Block} {face : Face b.depth} (shown : b.face? loads = some face)
    (mirrors : face.toBlock.Mirrors b) {positions : List Nat}
    (gathers : Gathers K loads face.toBlock positions) : Gathers K loads b positions := by
  have able : b.supportsGather loads = face.toBlock.supportsGather loads := by
    rw [supportsGather, shown]
    rcases face with leaf | leaf | ⟨lists, elements, below⟩ | ⟨keys, entries, below⟩
    all_goals
      rw [Face.toBlock, supportsGather, face?]
  have nested : b.isNested loads = face.toBlock.isNested loads := by
    rw [isNested, resolved?, shown]
    rcases face with leaf | leaf | ⟨lists, elements, below⟩ | ⟨keys, entries, below⟩
    all_goals
      rw [Face.toBlock, isNested, resolved?, face?]
  have same : ∀ ledger, (b.gather positions).outcome loads ledger =
      (face.toBlock.gather positions).outcome loads ledger := by
    intro ledger
    rw [gather, Query.outcome_read_bind, shown]
    rcases face with leaf | leaf | ⟨lists, elements, below⟩ | ⟨keys, entries, below⟩
    all_goals
      rw [Face.toBlock, gather, Query.outcome_read_bind, face?]
  intro ledger sound
  rw [same]
  obtain ⟨grows, L, le, later, ends⟩ := gathers ledger sound
  refine ⟨grows, L, le, later, ends.mono (fun w made ↦ ?_) fun _ refused ↦ ?_⟩
  · obtain ⟨gathered, owned⟩ := made
    exact ⟨⟨gathered.mem, gathered.shows.trans_mirrors mirrors, mirrors.count ▸ gathered.inside,
      able ▸ gathered.able, gathered.sized, nested ▸ gathered.flat, gathered.eager,
      fun keyless ↦ gathered.keyless (keyless.face shown),
      fun keyless bound few ↦ gathered.bounded (keyless.face shown) bound (few.face shown)⟩, owned⟩
  · rwa [Ungathered, able, ← mirrors.count, ← fits_of_face shown]

end Block

/-- New keys that count through entries gathered at some positions. -/
structure Keys.Renumbered (K : Census) (old : Set Nat) (handle : Nat) (entries others : Block)
    (positions : List Nat) (source : SourceId) (hints : Hints) (keys : Keys) : Prop
    extends Made K handle others (renumber positions) source hints keys where
  /-- They show the entries at the positions. -/
  shows : (Block.dictionary keys others).Shows entries positions
  /-- They keep no ids alive but their own. -/
  tight : keys.Tight
  /-- Their array is none of the old ones. -/
  new : keys.ids.storage ∉ old
  /-- They refer to every gathered entry. -/
  covers : ∀ position < others.positionCount, position ∈ keys.toList

/-- **Keys that count through gathered entries show the entries at the ids.** They can be vouched
for as compact, and as sequential just if the ids are distinct. -/
theorem Keys.renumber_meets {entries others : Block} {ids : List Nat} {handle : Nat}
    {source : SourceId} {hints : Hints} (spare : K.Spare source) (issued : handle ∈ K.issued)
    (gathered : Block.Gathered K loads entries others ids.eraseDups)
    (flat : entries.isNested loads = false) (compacted : hints.compacted = true)
    (distinct : hints.sequential = true ↔ ids.Nodup) :
    (ofIds handle others (renumber ids) source hints).Meets K loads
      (fun L keys ↦ Renumbered L K.issued handle entries others ids source hints keys)
      (fun _ ↦ False) := by
  have count : others.positionCount = ids.eraseDups.length := gathered.shows.count
  have low : ∀ id ∈ renumber ids, id < others.positionCount := fun id mem ↦
    count ▸ lt_of_mem_renumber mem
  have covers : ∀ id < others.positionCount, id ∈ renumber ids := fun id room ↦
    mem_renumber_of_lt (count ▸ room)
  refine (ofIds_meets gathered.mem low (.inl ⟨spare, fun _ ↦ issued⟩)
    (fun _ ↦ length_eraseDups_of_covers low covers) (fun vouched ↦ ?_)
    fun _ grows unsaid ↦ ?_).mono (fun L keys _ ⟨made, tight, new⟩ ↦
      ⟨made, shows_of_renumber made.ids gathered.shows, tight, new, made.ids ▸ covers⟩)
    fun _ refused ↦ refused ⟨fun _ ↦ compacted, fun _ ↦ ⟨gathered.flat flat, .inr gathered.sized⟩⟩
  · -- Distinct ids are renumbered in the order in which they stand.
    rw [renumber_of_nodup (distinct.1 vouched)]
    exact increasing_range _
  · have said := distinct.2 (nodup_of_increasing_renumber grows)
    rw [unsaid] at said
    cases said

/-- Keys that are remembered to have as many distinct ids as ids do not repeat one. -/
theorem Sound.nodup_of_known {ledger : Ledger} (sound : Sound K loads ledger) {keys : Keys}
    {entries : Block} (mem : .dictionary keys entries ∈ K)
    (known : (ledger.stats.get? keys.memory).any (·.unique == keys.count) = true) :
    keys.toList.Nodup := by
  obtain ⟨stats, found, unique⟩ := (Option.any_eq_true _ _).1 known
  refine nodup_of_length_eraseDups ?_
  rw [keys.length_toList, ← (sound.truthful keys entries mem stats found).unique]
  exact beq_iff_eq.1 unique

namespace Block

/-- A block that is not loaded is not gathered. -/
theorem gathers_unloaded {b : Block} (shown : b.face? loads = none) (positions : List Nat) :
    Gathers K loads b positions := by
  have unable : b.supportsGather loads = false := by rw [supportsGather, shown]
  rw [Gathers, gather]
  refine .read_bind ?_
  rw [shown]
  exact .check_bind
    (fun _ passed ↦ .throw (.inr ⟨checkPositions_eq_ok_iff.1 passed, .inl ⟨rfl, unable⟩⟩))
    fun _ refused ↦ .inl (rejects_of_checkPositions refused)

/-- Integers are gathered over new arrays. -/
theorem gathers_ints {leaf : Ints} (formed : leaf.Intact) (positions : List Nat) :
    Gathers K loads (ints leaf) positions := by
  have able : (ints leaf).supportsGather loads = true := by rw [supportsGather, face?]
  rw [Gathers, gather]
  refine .read_bind ?_
  rw [face?]
  refine .check_bind (fun _ passed ↦ .issue_bind fun cells cells_new ↦
    .issue_bind fun flags flags_new ↦ ?_) fun _ refused ↦ .inl (rejects_of_checkPositions refused)
  have inside := checkPositions_eq_ok_iff.1 passed
  obtain ⟨w, run, intact, shows⟩ := Ints.gather_eq_ok formed inside
  obtain ⟨whole, within⟩ := Ints.of_gather_eq_ok run
  refine .attempt_ok_bind run (.add_leaf (b := ints w) rfl rfl intact
    (.ints within (by simp)) (.pure ?_))
  refine ⟨⟨Census.mem_add_self _ _, shows, inside, able, trivial, fun _ ↦ isNested_ints _ _,
    trivial, fun _ ↦ keyless_ints _ _, fun _ bound few distinct ↦
      bounded_ints (shows.positionCount_lt few inside distinct)⟩,
    owned_ints whole fun n mem known ↦ ?_⟩
  rcases List.mem_pair.1 (within mem) with rfl | rfl
  · exact cells_new known
  · exact flags_new ((K.le_issue cells).issued known)

/-- Byte strings are gathered over new arrays. -/
theorem gathers_slices {leaf : Slices} (formed : leaf.Intact) (positions : List Nat) :
    Gathers K loads (slices leaf) positions := by
  have able : (slices leaf).supportsGather loads = true := by rw [supportsGather, face?]
  rw [Gathers, gather]
  refine .read_bind ?_
  rw [face?]
  refine .check_bind (fun _ passed ↦ .storages_bind fun storages new ↦ ?_)
    fun _ refused ↦ .inl (rejects_of_checkPositions refused)
  have inside := checkPositions_eq_ok_iff.1 passed
  rcases Nat.lt_or_ge (leaf.total positions) (2 ^ 32) with room | past
  case inr =>
    -- The bytes are more than offsets reach.
    exact .attempt_error_bind (Slices.gather_eq_error formed inside past)
      (.inr ⟨inside, .inr ⟨rfl, fun fits ↦ Nat.not_lt.2 past (fits_slices.1 fits)⟩⟩)
  obtain ⟨w, run, intact, filled, shows⟩ := Slices.gather_eq_ok formed inside room
  obtain ⟨whole, within⟩ := Slices.of_gather_eq_ok run
  refine .attempt_ok_bind run (.add_leaf (b := slices w) rfl rfl intact
    (.slices whole.2.1 within fun _ ↦ K.mem_issueAll) (.pure ?_))
  exact ⟨⟨Census.mem_add_self _ _, shows, inside, able, trivial,
    fun _ ↦ isNested_slices _ _, trivial, fun _ ↦ keyless_slices _ _, fun _ bound few distinct ↦
      bounded_slices (shows.positionCount_lt few inside distinct)⟩,
    owned_slices ⟨whole, filled⟩ fun n mem ↦ new n (within mem)⟩

/-- A gather of lists is one gather of the elements in them, once they are laid out. -/
theorem gathers_array {lists : Lists} {elements : Block}
    (formed : lists.Intact elements.positionCount)
    (gathers : ∀ positions, Gathers K loads elements positions) (positions : List Nat) :
    Gathers K loads (array lists elements) positions := by
  have able : (array lists elements).supportsGather loads = elements.supportsGather loads := by
    rw [supportsGather, face?]
  rw [Gathers, gather]
  refine .read_bind ?_
  rw [face?]
  refine .attempt_bind (fun spans run ↦ ?_) fun _ refused ↦
    .inl (Lists.rejects_of_filledSpans formed refused)
  have inside := Lists.lt_count_of_filledSpans_eq_ok run
  obtain rfl := Except.ok.inj ((Lists.filledSpans_eq_ok formed inside).symm.trans run)
  rcases Nat.lt_or_ge (positions.map lists.members).flatten.length (2 ^ 32) with room | past
  case inr =>
    -- The elements are more than offsets reach.
    exact .attempt_error_bind (Lists.ofLengths_gather_eq_error formed inside past)
      (.inr ⟨inside, .inr ⟨rfl, fun fits ↦ Nat.not_lt.2 past (fits_array.1 fits).1⟩⟩)
  obtain ⟨laid, collected, filled, sums⟩ := Lists.exists_ofLengths_gather formed inside room
  refine .attempt_ok_bind collected (.read_bind ?_)
  dsimp only
  split
  next unloaded =>
    refine .bind (.throw (.inr ⟨inside, .inl ⟨rfl, ?_⟩⟩)) fun _ _ _ impossible ↦ impossible
    rw [able, supportsGather, Option.isNone_iff_eq_none.1 unloaded]
  next =>
    -- A null list has no members, so the filled lists bring all of them.
    rw [Lists.flatMap_filledSpan formed inside]
    have members : ∀ i ∈ (positions.map lists.members).flatten, i < elements.positionCount :=
      fun i mem ↦ formed.lt_of_mem_flatten_members inside mem
    refine .bind ((gathers _).refusing fun _ refused ↦ ?_) fun L others since made ↦ ?_
    · exact .inr ⟨inside, (refused.unable_or members).imp (And.imp_right able.trans)
        (And.imp_right fun beyond fits ↦ beyond (fits_array.1 fits).2)⟩
    · obtain ⟨gathered, owned⟩ := made
      refine .issue_bind fun flags flags_new ↦ .issue_bind fun storage storage_new ↦
        .fresh_bind fun handle ↦ ?_
      have built := fun n ↦
        Lists.ofEnds_gather formed inside room gathered.shows filled sums storage handle n flags
      refine .fresh_add_bind (fun n ↦ array _ others) (fun n ↦ rfl)
        (fun _ ↦ by simpa [parts] using gathered.mem) (fun n ↦ (built n).1)
        (fun _ ↦ Lists.stored_ofEnds (Nulls.arrays_ofFlags? _ _) (by simp)) (fun _ ↦ trivial)
        fun n ↦ .pure ?_
      obtain ⟨-, shows, first, last⟩ := built n
      have le : L ≤ (L.issue flags).issue storage :=
        Census.le_trans (L.le_issue _) (Census.le_issue _ _)
      refine ⟨⟨Census.mem_add_self _ _, shows, inside, able.trans gathered.able,
        ⟨first, last, gathered.sized.mono (Census.le_trans le (Census.le_add _ _))⟩,
        fun _ ↦ isNested_array _ _ _, gathered.eager, by simpa using gathered.keyless,
        fun keyless bound few distinct ↦ ?_⟩,
        owned_array (Lists.tight_ofEnds (Nulls.whole_ofFlags? _ _) last) (fun m mem ↦ ?_) owned⟩
      · exact bounded_array (shows.positionCount_lt few inside distinct)
          (gathered.bounded (by simpa using keyless) bound few.elements
            (formed.nodup_flatten_members distinct inside))
      · rcases List.mem_cons.1 mem with rfl | mem
        · exact fun known ↦ storage_new ((L.le_issue flags).issued (since.issued known))
        · obtain rfl := List.mem_singleton.1 (Nulls.arrays_ofFlags? _ _ mem)
          exact fun known ↦ flags_new (since.issued known)

/-- Entries that are gathered at the ids as they are fit if the block does. -/
theorem Fits.picked_of_plain {keys : Keys} {entries : Block} {positions : List Nat}
    {ledger : Ledger} (fits : (dictionary keys entries).Fits loads positions)
    (sound : Sound K loads ledger) (mem : dictionary keys entries ∈ K)
    (plain : (decide ((keys.picked positions).length ≤ 1) || entries.isNested loads ||
      (ledger.stats.get? keys.memory).any (·.unique == keys.count)) = true) :
    entries.Fits loads (keys.picked positions) := by
  simp only [Bool.or_eq_true, decide_eq_true_eq] at plain
  obtain (single | nested) | known := plain
  · refine fits.picked ?_
    match keys.picked positions, single with
    | [], _ => exact List.nodup_nil
    | [id], _ => exact List.nodup_singleton id
  · exact (fits_dictionary.1 fits).1 (.inl nested)
  · exact (fits_dictionary.1 fits).1 (.inr (sound.nodup_of_known mem known))

section Entries

variable {keys : Keys} {entries : Block} {positions ids : List Nat}
  (inside : ∀ position ∈ positions, position < keys.count)

include inside

/-- What is gathered for keys may be a dictionary block, and may have keys. -/
theorem Gathered.of_keys {w : Block} (mem : w ∈ K)
    (shows : w.Shows (dictionary keys entries) positions)
    (able : entries.supportsGather loads = true) (sized : w.Sized K) (eager : w.Eager) :
    Gathered K loads (dictionary keys entries) w positions := by
  have keyed := not_keyless_dictionary loads keys entries
  refine ⟨mem, shows, inside, ?_, sized, fun flat ↦ absurd flat (by simp), eager,
    fun keyless ↦ absurd keyless keyed, fun keyless ↦ absurd keyless keyed⟩
  rwa [supportsGather, face?]

/-- Entries are gathered at ids of entries, so only they can be the reason to fail. -/
theorem Ungathered.of_entries {fault : Fault} (refused : entries.Ungathered loads ids fault)
    (good : ∀ id ∈ ids, id < entries.positionCount)
    (fits : (dictionary keys entries).Fits loads positions → entries.Fits loads ids) :
    (dictionary keys entries).Ungathered loads positions fault := by
  have able : (dictionary keys entries).supportsGather loads = entries.supportsGather loads := by
    rw [supportsGather, face?]
  exact .inr ⟨inside, (refused.unable_or good).imp (And.imp_right able.trans)
    (And.imp_right (mt fits))⟩

end Entries

/-- A gather of keys is one gather of entries: of each entry referred to, or of each distinct one
under new keys. -/
theorem gathers_dictionary {keys : Keys} {entries : Block}
    (mem : dictionary keys entries ∈ K) (formed : keys.Intact entries.positionCount)
    (gathers : ∀ positions, Gathers K loads entries positions) (positions : List Nat) :
    Gathers K loads (dictionary keys entries) positions := by
  rw [Gathers, gather]
  refine .read_bind ?_
  rw [face?]
  refine .check_bind (fun ids run ↦ .ledger_bind fun ledger sound ↦ .read_bind ?_)
    fun _ refused ↦ .inl (Keys.rejects_of_idsAt refused)
  have inside := Keys.lt_count_of_idsAt_eq_ok run
  obtain ⟨found, same, size, among, listed⟩ := Keys.idsAt_eq_ok inside
  obtain rfl : found = ids := Except.ok.inj (same.symm.trans run)
  have picked : found = keys.picked positions :=
    Except.ok.inj (same.symm.trans (Keys.idsAt_eq_filterMap inside))
  have good : ∀ id ∈ found, id < entries.positionCount := fun id mem ↦ formed id (among id mem)
  have through : ∀ {w : Block}, w.Shows entries found →
      w.Shows (dictionary keys entries) positions :=
    fun shows ↦ Keys.shows_of_entries shows size listed
  dsimp only
  split
  next plain =>
    refine (gathers found).mono (fun L w _ made ↦ ?_)
      fun _ refused ↦ refused.of_entries inside good fun fits ↦ ?_
    · obtain ⟨gathered, owned⟩ := made
      exact ⟨.of_keys inside gathered.mem (through gathered.shows) gathered.able gathered.sized
        gathered.eager, owned⟩
    · rw [picked] at plain ⊢
      exact fits.picked_of_plain sound mem plain
  next many =>
    simp only [Bool.or_eq_true, not_or, Bool.not_eq_true] at many
    have flat : entries.isNested loads = false := many.1.2
    have distinct : ∀ id ∈ found.eraseDups, id < entries.positionCount := fun id mem ↦
      good id (List.mem_eraseDups.1 mem)
    refine .bind ((gathers found.eraseDups).refusing fun _ refused ↦
      refused.of_entries inside distinct fun fits ↦ picked ▸ (fits_dictionary.1 fits).2 flat)
      fun L others since made ↦ ?_
    obtain ⟨gathered, owned⟩ := made
    split
    next unique =>
      -- No id occurs twice, so the distinct ids are the ids.
      have whole := eraseDups_of_nodup (nodup_of_length_eraseDups unique)
      exact .pure ⟨.of_keys inside gathered.mem (through (whole ▸ gathered.shows)) gathered.able
        gathered.sized gathered.eager, owned⟩
    next some =>
      refine .read_bind (.issue_bind fun handle _ ↦ .mint_bind fun n _ spare ↦ ?_)
      have le : L ≤ (L.issue handle).raise (n + 1) :=
        Census.le_trans (L.le_issue _) (Census.le_raise _ _)
      have hinted : (!others.isNested loads) = true := by simp [gathered.flat flat]
      refine .bind ((Keys.renumber_meets spare (.inl rfl) (gathered.mono le) flat hinted
        ⟨by rintro ⟨⟩, fun distinct ↦ absurd (length_eraseDups_iff_nodup.2 distinct) some⟩).refusing
          fun _ ↦ False.elim) fun M keys _ made ↦ .pure ⟨.of_keys inside made.mem
            (through made.shows) gathered.able (made.known hinted) gathered.eager,
            owned_dictionary made.tight (fun known ↦ made.new (le.issued (since.issued known)))
              ⟨gathered.flat flat, made.covers, ?_⟩ owned⟩
      -- Some id occurs twice, so there are fewer entries than keys.
      rw [gathered.shows.count, ← keys.length_toList, made.ids, length_renumber]
      exact Nat.lt_of_le_of_ne (length_eraseDups_le found) some

/-- **A gather shows the positions gathered**, in a block that is owned, and fails only for
positions that are not good, for what is not loaded or for values that do not fit together. -/
theorem gather_owns {b : Block} (mem : b ∈ K) (positions : List Nat) :
    Gathers K loads b positions := by
  induction b using Block.walk generalizing positions with
  | step b ih =>
    refine .of_sound fun ledger sound ↦ ?_
    rcases shown : b.face? loads with - | face
    · exact gathers_unloaded shown positions
    · obtain ⟨present, mirrors⟩ := sound.face mem shown
      refine Gathers.of_face shown mirrors ?_
      have formed := sound.formed _ present
      rcases face with leaf | leaf | ⟨lists, elements, below⟩ | ⟨keys, entries, below⟩
      · exact gathers_ints formed positions
      · exact gathers_slices formed positions
      · exact gathers_array formed
          (fun positions ↦ ih elements below (sound.elements_mem present) positions) positions
      · exact gathers_dictionary present formed
          (fun positions ↦ ih entries below (sound.entries_mem present) positions) positions

/-- **A gather shows the positions gathered**, and fails only for positions that are not good, for
what is not loaded or for values that do not fit together. -/
theorem gather_meets {b : Block} (mem : b ∈ K) (positions : List Nat) :
    (b.gather positions).Meets K loads (fun L w ↦ Gathered L loads b w positions)
      (b.Ungathered loads positions) :=
  (gather_owns mem positions).mono (fun _ _ _ ↦ And.left) fun _ ↦ id

/-- Positions listed in a stretch are gathered, and owned. -/
theorem copyPositions_owns {b : Block} (mem : b ∈ K) (positions : List Nat) (offset length : Nat) :
    (b.copyPositions positions offset length).Meets K loads
      (fun L w ↦ Gathered L loads b w (stretch positions offset length) ∧ w.Owned K.issued loads)
      (fun fault ↦ fault.Rejects (offset + length ≤ positions.length) ∨
        b.Ungathered loads (stretch positions offset length) fault) :=
  .check_bind (fun _ _ ↦ (gather_owns mem _).refusing fun _ ↦ .inr)
    fun _ refused ↦ .inl (rejects_of_checkStretch refused)

/-- Positions listed in a stretch are gathered. -/
theorem copyPositions_meets {b : Block} (mem : b ∈ K) (positions : List Nat) (offset length : Nat) :
    (b.copyPositions positions offset length).Meets K loads
      (fun L w ↦ Gathered L loads b w (stretch positions offset length))
      (fun fault ↦ fault.Rejects (offset + length ≤ positions.length) ∨
        b.Ungathered loads (stretch positions offset length) fault) :=
  (copyPositions_owns mem positions offset length).mono (fun _ _ _ ↦ And.left) fun _ ↦ id

end Block

end BatchColumn
