import BatchColumn.Block.Copy
import BatchColumn.Block.Materialise
import BatchColumn.Proofs.Compacting

/-!
# Copying shows the positions copied

Which way a copy of a dictionary block takes depends on what is remembered and what is loaded
(`Sound.outcome_copy_ways`). `Block.copy_meets` states one result for all ways, by one induction
on depth: a copy that answers shows the positions asked for. Where the ids are known to count up
through all entries, every id is its own position (`Keys.Truthful.getElem?_of_counting`), and the
entries may be copied instead.

A copy of good positions can fail: some ways gather entries, and entries behind a promise are not
gathered. What is in the way is a dictionary block in the block that is copied
(`Block.Uncopied`), so a failure further down is one of the whole block (`Block.Uncopied.of_part`).

A copy of one position and a block loaded throughout have results of the same form
(`Block.single_meets`, `Block.materialise_meets`).
-/

namespace BatchColumn

variable {K : Census} {loads : Loads}

/-! ### Lists -/

namespace Lists

variable {lists : Lists} {elements others : Block}

/-- **Lists copied over copied elements show the lists**, and use every element. -/
theorem copy_meets (intact : lists.Intact elements.positionCount)
    (stored : ∀ n ∈ lists.arrays, n ∈ K.issued) (mem : others ∈ K) {offset length : Nat}
    (fits : offset + length ≤ lists.count)
    (shows : others.Shows elements (List.range' (lists.start offset)
      (lists.start (offset + length) - lists.start offset))) :
    (lists.copy offset length).Meets K loads
      (fun L copied ↦ .array copied others ∈ L ∧
        (Block.array copied others).Shows (.array lists elements) (List.range' offset length) ∧
          copied.Tight others.positionCount)
      (fun _ ↦ False) := by
  have room := lists.fits
  obtain ⟨rebased, moved, items, starts⟩ := rebase?_eq_some intact.sorted
    (show lists.base + offset + length < lists.offsets.toList.length by
      rw [View.length_toList]; omega)
  have run : orPanic (rebase? lists.offsets.toList (lists.base + offset) length) = .ok rebased := by
    rw [moved]
    rfl
  refine .attempt_ok_bind run (.issue_bind fun flags _ ↦ ?_)
  obtain ⟨nulls, run, spans, marks⟩ := Nulls.copy_eq_ok flags (intact.flagged.mono
    (show lists.base + offset + length ≤ lists.base + lists.count by omega))
  refine .attempt_ok_bind run (.issue_bind fun storage _ ↦ .fresh_bind fun handle ↦ ?_)
  let built (n : Nat) : Lists := ofEnds storage handle n 0 rebased.ends.toList nulls
  have start : ∀ n, ∀ i ≤ length,
      (built n).start i = lists.start (offset + i) - lists.start offset := by
    intro n i le
    rw [start_ofEnds, Lists.start, Lists.start, ← Nat.add_assoc]
    exact starts i le
  have copied := fun n ↦
    shows_of_copy intact fits shows rfl items (congrArg (· + 1) items) (start n) spans marks
  have tight : ∀ n, (built n).Tight others.positionCount := by
    intro n
    refine tight_ofEnds (Nulls.of_copy_eq_ok run).1 ?_
    rw [show rebased.ends.toList.length = length from items, shows.count, List.length_range']
    exact start n length (Nat.le_refl _)
  refine .fresh_add_bind (fun n ↦ .array (built n) others) (fun _ ↦ rfl)
    (fun _ ↦ by simpa [Block.parts] using mem) (fun n ↦ (copied n).1)
    (fun _ ↦ stored_ofEnds (Nulls.of_copy_eq_ok run).2 fun n old ↦
      stored n (List.mem_cons_of_mem _ old)) (fun _ ↦ trivial)
    fun n ↦ .pure ⟨Census.mem_add_self _ _, (copied n).2, tight n⟩

/-- **One list over its copied elements shows the list.** -/
theorem ofOne_meets (intact : lists.Intact elements.positionCount) (mem : others ∈ K)
    {position : Nat} (inside : position < lists.count)
    (shows : others.Shows elements (lists.members position)) :
    (ofOne (lists.start (position + 1) - lists.start position)
        (lists.nulls.marks (lists.base + position))).Meets K loads
      (fun L copied ↦ .array copied others ∈ L ∧
        (Block.array copied others).Shows (.array lists elements) [position])
      (fun _ ↦ False) := by
  refine .issue_bind fun flags _ ↦ .issue_bind fun storage _ ↦ .fresh_bind fun handle ↦ ?_
  let null := lists.nulls.marks (lists.base + position)
  let built (n : Nat) : Lists := ofEnds storage handle n 0
    [lists.start (position + 1) - lists.start position] (.ofFlags flags [null])
  have start : ∀ n, ∀ i ≤ 1,
      (built n).start i = lists.start (position + i) - lists.start position := by
    intro n i le
    rw [start_ofEnds]
    rcases Nat.le_one_iff_eq_zero_or_eq_one.1 le with rfl | rfl
    · exact (Nat.sub_self _).symm
    · rfl
  have marks : ∀ i < 1, (Nulls.ofFlags flags [null]).marks i =
      lists.nulls.marks (lists.base + position + i) := by
    intro i inside
    rw [Nulls.marks_ofFlags, Nat.lt_one_iff.1 inside]
    rfl
  have copied := fun n ↦ shows_of_copy intact inside shows rfl rfl rfl (start n)
    (Nulls.spans_ofFlags flags [null]) marks
  refine .fresh_add_bind (fun n ↦ .array (built n) others) (fun _ ↦ rfl)
    (fun _ ↦ by simpa [Block.parts] using mem) (fun n ↦ (copied n).1)
    (fun _ ↦ stored_ofEnds (Nulls.arrays_ofFlags flags [null]) (by simp)) (fun _ ↦ trivial)
    fun n ↦ .pure ⟨Census.mem_add_self _ _, (copied n).2⟩

end Lists

/-! ### Ids that count up -/

/-- **Ids that grow and refer to every entry are their positions.** There are as many of them as
there are entries. -/
theorem Keys.Truthful.getElem?_of_counting {keys : Keys} {stats : Stats} {size : Nat}
    (truth : keys.Truthful stats) (intact : keys.Intact size)
    (counting : stats.unique = size ∧ stats.sequential = true) {position : Nat}
    (inside : position < keys.count) : keys.toList[position]? = some position := by
  have grows := truth.sequential counting.2
  have distinct : keys.toList.Nodup := (increasing_iff_pairwise.1 grows).imp Nat.ne_of_lt
  have count : keys.toList.length = size := by
    rw [← counting.1, truth.unique, eraseDups_of_nodup distinct]
  rw [eq_range_of_increasing grows fun id mem ↦ count ▸ intact id mem, keys.length_toList]
  exact List.getElem?_range inside

/-- **Ids that are taken for positions are positions**: there is one of them, or it is remembered
that they count up. -/
theorem Sound.getElem?_of_direct {store : Store} (sound : Sound K store.loads store.ledger)
    {keys : Keys} {entries : Block} (mem : .dictionary keys entries ∈ K) {offset length first : Nat}
    (fits : offset + length ≤ keys.count) (filled : length ≠ 0)
    (direct : (decide (length = 1) || (store.ledger.stats.get? keys.memory).any fun known ↦
      known.unique == entries.positionCount && known.sequential) = true)
    (listed : keys.toList[offset]? = some first) :
    first + length ≤ entries.positionCount ∧
      ∀ i < length, keys.toList[offset + i]? = some (first + i) := by
  have formed : keys.Intact entries.positionCount := sound.formed _ mem
  rcases Bool.or_eq_true_iff.1 direct with one | counting
  · obtain rfl : length = 1 := of_decide_eq_true one
    refine ⟨formed first (List.mem_of_getElem? listed), fun i inside ↦ ?_⟩
    obtain rfl := Nat.lt_one_iff.1 inside
    exact listed
  · obtain ⟨stats, known, counting⟩ := (Option.any_eq_true _ _).1 counting
    have counts : ∀ p < keys.count, keys.toList[p]? = some p := fun p ↦
      (sound.truthful _ _ mem stats known).getElem?_of_counting formed (by simpa using counting)
    obtain rfl : offset = first :=
      Option.some.inj ((counts offset (by omega)).symm.trans listed)
    refine ⟨?_, fun i inside ↦ counts (offset + i) (by omega)⟩
    have last := formed _ (List.mem_of_getElem? (counts (offset + length - 1) (by omega)))
    omega

/-! ### Copies that answer, and copies that fail -/

namespace Block

/-- The dictionary blocks in a block, before anything is loaded, refer to entries of the set. -/
def EntriesIn (able : Set Block) (b : Block) : Prop :=
  ∀ keys entries, Part .empty (dictionary keys entries) b → entries ∈ able

/-- What is cut from a block refers to the same entries. -/
theorem CutFrom.entriesIn {c b : Block} (cut : c.CutFrom b) {able more : Set Block}
    (le : able ⊆ more) (within : b.EntriesIn able) : c.EntriesIn more := by
  intro keys entries part
  obtain ⟨y, found, -, same⟩ := cut _ part
  obtain ⟨others, rfl⟩ := same keys entries rfl
  exact le (within others entries found)

/-- The result of a copy. -/
structure Copied (K : Census) (b c : Block) (positions : List Nat) (valid : Prop) : Prop where
  /-- It exists. -/
  mem : c ∈ K
  /-- It shows the positions. -/
  shows : c.Shows b positions
  /-- They are positions of the block. -/
  valid : valid

/-- Why a small block that can be loaded is not copied: for the positions, or else because there is
a dictionary block in it with entries that are not known to be gatherable, or because something
gathered on the way does not fit together. -/
def Uncopied (K : Census) (b : Block) (valid : Prop) (fault : Fault) : Prop :=
  b.Loadable → b.Small .empty → fault.Rejects valid ∨
    valid ∧ (fault.isUnsupported = true ∧ ¬ b.EntriesIn K.able ∨ fault = .panic)

theorem Uncopied.of_rejects {b : Block} {valid : Prop} {fault : Fault}
    (rejects : fault.Rejects valid) : b.Uncopied K valid fault :=
  fun _ _ ↦ .inl rejects

/-- A block is not copied if what is cut from it is not. -/
theorem Uncopied.of_cut {L : Census} {c b : Block} {p q : Prop} {fault : Fault} (le : K ≤ L)
    (cut : c.CutFrom b) (loadable : b.Loadable → c.Loadable)
    (rejects : fault.Rejects q → fault.Rejects p) (valid : q → p)
    (refused : c.Uncopied L q fault) : b.Uncopied K p fault := by
  intro kept small
  exact (refused (loadable kept) (cut.small small)).imp rejects (And.imp valid
    (Or.imp_left (And.imp_right (mt (cut.entriesIn le.able)))))

/-- A block is not copied if good positions of a part of it are not. -/
theorem Uncopied.of_part {L : Census} {c b : Block} {p q : Prop} {fault : Fault} (le : K ≤ L)
    (part : Part .empty c b) (loadable : b.Loadable → c.Loadable) (valid : p) (good : q)
    (refused : c.Uncopied L q fault) : b.Uncopied K p fault :=
  refused.of_cut le (.of_part part) loadable (fun bad ↦ absurd good bad.2) fun _ ↦ valid

end Block

/-- A session that makes a block which shows some positions of another one, or fails. -/
def Session.Copies (session : Session Block) (K : Census) (b : Block) (positions : List Nat)
    (valid : Prop) : Prop :=
  session.Meets K (fun L c ↦ b.Copied L c positions valid) (b.Uncopied K valid)

/-- Positions are copied through the lazy blocks in front of a block. -/
theorem Session.Copies.reveal {b : Block} {positions : List Nat} {valid : Prop}
    {rest : Face b.depth → Session Block} (mem : b ∈ K)
    (next : ∀ (L : Census) (face : Face b.depth) (store : Store),
      Sound L store.loads store.ledger → face.toBlock ∈ L →
        face.toBlock.positionCount = b.positionCount →
          (rest face).Copies L face.toBlock positions valid) :
    (b.reveal >>= rest).Copies K b positions valid := by
  refine .bind ((Block.reveal_meets mem).refusing fun _ refused kept ↦ absurd kept refused)
    fun L face le shown ↦ .of_sound fun store sound ↦ ?_
  obtain ⟨present, mirrors, cut⟩ := shown
  exact (next L face store sound present mirrors.count).mono
    (fun M c _ copied ↦ { copied with shows := copied.shows.trans_mirrors mirrors })
    fun _ ↦ .of_cut le cut mirrors.loadable id id

namespace Block

variable {offset length : Nat}

/-- Regions are copied. -/
def CopiesRegion (K : Census) (b : Block) (offset length : Nat) : Prop :=
  (b.copy offset length).Copies K b (List.range' offset length) (offset + length ≤ b.positionCount)

/-- A copy is one of what the block reveals. -/
theorem copy_eq_bind (b : Block) (offset length : Nat) :
    b.copy offset length = (b.reveal >>= fun face ↦ face.toBlock.copy offset length) := by
  rw [copy]
  refine bind_congr fun face ↦ ?_
  rcases face with leaf | leaf | ⟨lists, elements, below⟩ | ⟨keys, entries, below⟩
  all_goals
    rw [Face.toBlock, copy, reveal, pure_bind]

/-- Regions of leaves are copied just if they are there. -/
theorem copy_ints {leaf : Ints} (intact : leaf.Intact) (stored : (ints leaf).Stored K.issued) :
    ((ints leaf).copy offset length).Meets K
      (fun L c ↦ (ints leaf).Copied L c (List.range' offset length) (offset + length ≤ leaf.count))
      (fun fault ↦ fault.Rejects (offset + length ≤ leaf.count)) := by
  rw [copy, reveal, pure_bind]
  refine .check_bind (fun _ passed ↦ .issue_bind fun cells _ ↦ .issue_bind fun flags _ ↦ ?_)
    fun _ refused ↦ rejects_of_checkRegion refused
  have fits := checkRegion_eq_ok_iff.1 passed
  obtain ⟨w, run, formed, shows⟩ := Ints.copy_eq_ok intact fits
  refine .attempt_ok_bind run (.add_leaf (b := ints w) rfl rfl formed
    (.ints (Ints.of_copy_eq_ok run).2 fun n mem ↦ ?_)
    (.pure ⟨Census.mem_add_self _ _, shows, fits⟩))
  rcases List.mem_append.1 mem with new | old
  · rcases List.mem_pair.1 new with rfl | rfl <;> simp
  · exact .inr (.inr (stored.issued n old))

theorem copy_slices {leaf : Slices} (intact : leaf.Intact)
    (stored : (slices leaf).Stored K.issued) :
    ((slices leaf).copy offset length).Meets K
      (fun L c ↦ (slices leaf).Copied L c (List.range' offset length)
        (offset + length ≤ leaf.count))
      (fun fault ↦ fault.Rejects (offset + length ≤ leaf.count)) := by
  rw [copy, reveal, pure_bind]
  refine .check_bind (fun _ passed ↦ .storages_bind fun storages _ ↦ ?_)
    fun _ refused ↦ rejects_of_checkRegion refused
  have fits := checkRegion_eq_ok_iff.1 passed
  obtain ⟨w, run, formed, -, shows⟩ := Slices.copy_eq_ok intact fits
  refine .attempt_ok_bind run (.add_leaf (b := slices w) rfl rfl formed
    (.slices (Slices.isWhole_bytes_of_copy run (stored.packed leaf rfl))
      (Slices.arrays_of_copy run) fun n mem ↦ ?_)
    (.pure ⟨Census.mem_add_self _ _, shows, fits⟩))
  rcases List.mem_append.1 mem with new | old
  · exact K.mem_issueAll new
  · exact (K.le_issueAll storages).issued (stored.issued n old)

/-- Lists are copied over a copy of the elements in them. -/
theorem copy_array {lists : Lists} {elements : Block} (intact : lists.Intact elements.positionCount)
    (stored : (array lists elements).Stored K.issued)
    (copies : ∀ offset length, CopiesRegion K elements offset length) :
    CopiesRegion K (array lists elements) offset length := by
  rw [CopiesRegion, copy, reveal, pure_bind]
  refine .check_bind (fun span run ↦ ?_) fun _ refused ↦ .of_rejects (Lists.rejects_of_cut refused)
  obtain ⟨fits, rfl⟩ := Lists.of_cut_eq_ok run
  have room := intact.span_le_size fits
  refine .bind ((copies _ _).refusing fun _ ↦
    .of_part (Census.le_refl K) (.elements .refl) id fits room) fun L others le copied ↦ ?_
  have stored := (stored.mono le.issued).issued
  exact .query_bind (fun loads ↦ (Lists.copy_meets intact stored copied.mem fits
    copied.shows).refusing
    fun _ ↦ False.elim) fun M lists _ made ↦ .pure ⟨made.1, made.2.1, fits⟩

/-- What is gathered for a copy of keys shows them. -/
theorem copy_gather {keys : Keys} {entries : Block} (mem : dictionary keys entries ∈ K)
    (fits : offset + length ≤ keys.count) :
    (entries.gather (stretch keys.toList offset length)).Meets K loads
      (fun L c ↦ (dictionary keys entries).Copied L c (List.range' offset length)
        (offset + length ≤ keys.count))
      ((dictionary keys entries).Uncopied K (offset + length ≤ keys.count)) := by
  refine .of_sound fun ledger sound ↦ ?_
  have good : ∀ id ∈ stretch keys.toList offset length, id < entries.positionCount :=
    fun id listed ↦ sound.formed _ mem id (mem_of_mem_stretch listed)
  refine (gather_meets (sound.entries_mem mem) _).mono (fun M c _ gathered ↦
    ⟨gathered.mem, Keys.shows_of_region gathered.shows fits, fits⟩) fun _ refused _ _ ↦ ?_
  refine .inr ⟨fits, (refused.unable_or good).imp (And.imp_right fun unable within ↦ ?_) And.left⟩
  simp [sound.able entries (within keys entries .refl)] at unable

/-- The last way to copy keys: the ids are copied under a new identity, and compacted. -/
def compactCopy (keys : Keys) (entries : Block) (offset length : Nat) : Query Block := do
  let copied ← Keys.ofIds keys.handle entries (stretch keys.toList offset length)
    (← Ledger.mint) .none
  let (compacted, entries) ← copied.compact entries
  return dictionary compacted entries

/-- Copied ids that are compacted show the keys copied. Small blocks that are not nested are
compacted, if what is gathered fits together. -/
theorem compactCopy_meets {keys : Keys} {entries : Block} (mem : dictionary keys entries ∈ K)
    (flat : entries.isNested loads = false) (fits : offset + length ≤ keys.count) :
    (compactCopy keys entries offset length).Meets K loads
      (fun L c ↦ (dictionary keys entries).Copied L c (List.range' offset length)
        (offset + length ≤ keys.count))
      (fun fault ↦ (dictionary keys entries).Small .empty → fault = .panic ∧
        ¬ entries.FitsShrunk loads (stretch keys.toList offset length)) := by
  refine .of_sound fun ledger sound ↦ .mint_bind fun n _ spare ↦ ?_
  have there := Census.mem_of_le (K.le_raise (n + 1)) (sound.entries_mem mem)
  have issued : K.tracks → keys.handle ∈ K.issued :=
    fun tracked ↦ sound.sourced.handles tracked keys entries mem
  refine .bind ((Keys.ofIds_none_meets there
    (fun id listed ↦ sound.formed _ mem id (mem_of_mem_stretch listed))
      (.inl ⟨spare, issued⟩)).refusing fun _ ↦ False.elim) fun L copied _ ⟨made, _⟩ ↦
        .of_sound fun ledger later ↦ ?_
  refine .bind ((Keys.compact_meets made.mem).refusing fun _ refused small ↦ ?_)
    fun M out _ ⟨there, mirrors, _⟩ ↦ .pure ⟨there, ?_, fits⟩
  · have refused := refused (later.small (later.entries_mem made.mem) small.entries)
    rwa [Keys.FitsCompacted, bottom_of_isNested_eq_false flat,
      Keys.landed_of_isNested_eq_false flat, made.ids] at refused
  · have shows := mirrors.trans_shows (copied.shows_toList entries)
    exact Keys.shows_of_region (made.ids ▸ shows) fits

/-- Ids that are not taken for positions are gathered, or copied and compacted. -/
theorem outcome_copy_dictionary {keys : Keys} {entries : Block} {store : Store}
    (fits : offset + length ≤ keys.count) (filled : length ≠ 0)
    (indirect : ¬ (decide (length = 1) || (store.ledger.stats.get? keys.memory).any fun known ↦
      known.unique == entries.positionCount && known.sequential) = true) :
    ((dictionary keys entries).copy offset length).outcome store =
      (if entries.isNested store.loads ||
          (store.ledger.stats.get? keys.memory).any (·.unique == keys.count) then
        liftM (entries.gather (stretch keys.toList offset length))
      else liftM (compactCopy keys entries offset length) : Session Block).outcome store := by
  rw [copy, reveal, pure_bind, Session.outcome_check_bind (checkRegion_eq_ok_iff.2 fits),
    Session.outcome_get_bind]
  dsimp only
  rw [if_neg filled, if_neg indirect, Session.outcome_get_bind]
  simp only [compactCopy, Session.liftM_bind]
  rfl

end Block

/-- **A copy of keys goes one of three ways**, whatever is remembered: it is a copy of entries that
the keys count through, a gather of entries that are nested or to which no key is repeated, or, of
entries that are not nested, copied ids that are compacted. -/
theorem Sound.outcome_copy_ways {store : Store} (sound : Sound K store.loads store.ledger)
    {keys : Keys} {entries : Block} (mem : .dictionary keys entries ∈ K) {offset length : Nat}
    (fits : offset + length ≤ keys.count) :
    (∃ first, first + length ≤ entries.positionCount ∧
      (∀ i < length, keys.toList[offset + i]? = some (first + i)) ∧
      ((Block.dictionary keys entries).copy offset length).outcome store =
        (entries.copy first length).outcome store) ∨
    ((entries.isNested store.loads = true ∨ keys.toList.Nodup) ∧
      ((Block.dictionary keys entries).copy offset length).outcome store =
        (liftM (entries.gather (stretch keys.toList offset length)) : Session Block).outcome
          store) ∨
    (entries.isNested store.loads = false ∧
      ((Block.dictionary keys entries).copy offset length).outcome store =
        (liftM (Block.compactCopy keys entries offset length) : Session Block).outcome store) := by
  have checked := checkRegion_eq_ok_iff.2 fits
  rcases Nat.eq_zero_or_pos length with rfl | filled
  · refine .inl ⟨0, Nat.zero_le _, fun i inside ↦ absurd inside (Nat.not_lt_zero i), ?_⟩
    rw [Block.copy, Block.reveal, pure_bind, Session.outcome_check_bind checked]
    rfl
  have filled := Nat.ne_of_gt filled
  by_cases direct : (decide (length = 1) ||
    (store.ledger.stats.get? keys.memory).any fun known ↦
      known.unique == entries.positionCount && known.sequential) = true
  · obtain ⟨first, listed⟩ := keys.exists_getElem?_toList (show offset < keys.count by omega)
    obtain ⟨room, ids⟩ := sound.getElem?_of_direct mem fits filled direct listed
    refine .inl ⟨first, room, ids, ?_⟩
    rw [Block.copy, Block.reveal, pure_bind, Session.outcome_check_bind checked,
      Session.outcome_get_bind]
    dsimp only
    rw [if_neg filled, if_pos direct, Session.outcome_check_bind (Keys.id_eq_ok listed)]
  · rw [Block.outcome_copy_dictionary fits filled direct]
    split
    next gathers =>
      exact .inr (.inl ⟨(Bool.or_eq_true_iff.1 gathers).imp_right (sound.nodup_of_known mem), rfl⟩)
    next other =>
      simp only [Bool.or_eq_true, not_or, Bool.not_eq_true] at other
      exact .inr (.inr ⟨other.1, rfl⟩)

namespace Block

variable {offset length : Nat}

/-- What holds of each way to copy keys holds of the copy. -/
theorem copy_dictionary_ways {keys : Keys} {entries : Block} (mem : dictionary keys entries ∈ K)
    {post : Census → Block → Prop} {refuse : Fault → Prop}
    (rejects : ∀ fault, fault.Rejects (offset + length ≤ keys.count) → refuse fault)
    (copies : offset + length ≤ keys.count → ∀ first, first + length ≤ entries.positionCount →
      (∀ i < length, keys.toList[offset + i]? = some (first + i)) →
        (entries.copy first length).Meets K post refuse)
    (gathers : offset + length ≤ keys.count → ∀ loads,
      entries.isNested loads = true ∨ keys.toList.Nodup →
        (entries.gather (stretch keys.toList offset length)).Meets K loads post refuse)
    (compacts : offset + length ≤ keys.count → ∀ loads, entries.isNested loads = false →
      (compactCopy keys entries offset length).Meets K loads post refuse) :
    ((dictionary keys entries).copy offset length).Meets K post refuse := by
  intro store sound
  by_cases fits : offset + length ≤ keys.count
  · obtain ⟨first, room, ids, run⟩ | ⟨plain, run⟩ | ⟨flat, run⟩ :=
      sound.outcome_copy_ways mem fits
    all_goals rw [run]
    · exact copies fits first room ids store sound
    · exact (gathers fits store.loads plain store.ledger sound).2
    · exact (compacts fits store.loads flat store.ledger sound).2
  · rw [copy, reveal, pure_bind]
    exact Session.Meets.check_bind (fun _ passed ↦ absurd (checkRegion_eq_ok_iff.1 passed) fits)
      (fun _ refused ↦ rejects _ (rejects_of_checkRegion refused)) store sound

/-- Every way leads to the positions asked for. -/
theorem copy_dictionary {keys : Keys} {entries : Block} (mem : dictionary keys entries ∈ K)
    (copies : ∀ offset length, CopiesRegion K entries offset length) :
    CopiesRegion K (dictionary keys entries) offset length := by
  refine copy_dictionary_ways mem (fun _ ↦ .of_rejects) (fun fits first room ids ↦ ?_)
    (fun fits _ _ ↦ copy_gather mem fits) fun fits _ flat ↦
      (compactCopy_meets mem flat fits).refusing fun _ refused _ small ↦
        .inr ⟨fits, .inr (refused small).1⟩
  -- Copies of entries refuse no more than the entries themselves.
  refine (copies first length).mono (fun M c _ copied ↦ ⟨copied.mem,
    Keys.shows_of_stretch copied.shows List.length_range' fun i inside ↦ ?_, fits⟩)
      fun _ ↦ .of_part (Census.le_refl K) (.entries .refl) id fits room
  rw [List.getElem?_range' inside, Nat.one_mul, ids i inside]

/-- **A copy shows the positions copied**, whatever is loaded or remembered. -/
theorem copy_meets {b : Block} (mem : b ∈ K) (offset length : Nat) :
    CopiesRegion K b offset length := by
  induction b using Block.walk generalizing K offset length with
  | step b ih =>
    rw [CopiesRegion, copy_eq_bind]
    refine .reveal mem fun L face store sound present count ↦ ?_
    rw [← count]
    have formed := sound.formed _ present
    have stored := sound.stored _ present
    rcases face with leaf | leaf | ⟨lists, elements, below⟩ | ⟨keys, entries, below⟩
    · exact (copy_ints formed stored).refusing fun _ ↦ .of_rejects
    · exact (copy_slices formed stored).refusing fun _ ↦ .of_rejects
    · exact copy_array formed stored (ih elements below (sound.elements_mem present))
    · exact copy_dictionary present (ih entries below (sound.entries_mem present))

/-- **A copy of one position shows it.** -/
theorem single_meets {b : Block} (mem : b ∈ K) (position : Nat) :
    (b.single position).Copies K b [position] (position < b.positionCount) := by
  induction b using Block.walk generalizing K position with
  | step b ih =>
    rw [single]
    refine .reveal mem fun L face store sound present count ↦ ?_
    rw [← count]
    have formed := sound.formed _ present
    rcases face with leaf | leaf | ⟨lists, elements, below⟩ | ⟨keys, entries, below⟩
    · exact .check_bind (fun _ _ ↦ copy_meets present position 1)
        fun _ refused ↦ .of_rejects (rejects_of_checkPosition refused)
    · exact .check_bind (fun _ _ ↦ copy_meets present position 1)
        fun _ refused ↦ .of_rejects (rejects_of_checkPosition refused)
    · refine .check_bind (fun span run ↦ ?_)
        fun _ refused ↦ .of_rejects (Lists.rejects_of_span refused)
      obtain ⟨inside, rfl⟩ := Lists.of_span_eq_ok run
      have room := formed.span_le_size (show position + 1 ≤ lists.count from inside)
      refine .bind ((copy_meets (sound.elements_mem present) _ _).refusing fun _ ↦
        .of_part (Census.le_refl L) (.elements .refl) id inside room) fun M others _ copied ↦ ?_
      refine .attempt_ok_bind (formed.isNull_eq_ok inside) ?_
      exact .query_bind (fun loads ↦ (Lists.ofOne_meets formed copied.mem inside
        copied.shows).refusing fun _ ↦ False.elim) fun N lists _ made ↦
          .pure ⟨made.1, made.2, inside⟩
    · refine .check_bind (fun id run ↦ ?_) fun _ refused ↦ .of_rejects (Keys.rejects_of_id refused)
      have listed := Keys.getElem?_of_id_eq_ok run
      have inside := (List.getElem?_eq_some_iff.1 listed).1.trans_eq keys.length_toList
      have room : id < entries.positionCount := formed id (List.mem_of_getElem? listed)
      refine (ih entries below (sound.entries_mem present) id).mono (fun M c _ copied ↦
        ⟨copied.mem, Keys.shows_of_stretch copied.shows rfl fun i first ↦ ?_, inside⟩)
          fun _ ↦ .of_part (Census.le_refl L) (.entries .refl) (fun kept ↦ kept) inside room
      rw [Nat.lt_one_iff.1 first]
      exact listed.symm

/-! ### Blocks loaded throughout -/

/-- A block is loaded throughout as what it reveals. -/
theorem materialise_eq_bind (b : Block) :
    b.materialise = (b.reveal >>= fun face ↦ face.toBlock.materialise) := by
  rw [materialise]
  refine bind_congr fun face ↦ ?_
  rcases face with leaf | leaf | ⟨lists, elements, below⟩ | ⟨keys, entries, below⟩
  all_goals
    rw [Face.toBlock, materialise, reveal, pure_bind]

/-- A block that is loaded throughout, made from another one, or a loader's refusal. -/
def Materialises (K : Census) (b : Block) : Prop :=
  b.materialise.Meets K (fun L c ↦ c ∈ L ∧ c.Mirrors b) fun _ ↦ ¬ b.Loadable

theorem materialise_array {lists : Lists} {elements : Block} (mem : array lists elements ∈ K)
    (materialises : Materialises K elements) : Materialises K (array lists elements) := by
  rw [Materialises, materialise, reveal, pure_bind]
  refine .get_bind fun store sound ↦ ?_
  split
  next =>
    refine .query_bind (fun loads ↦ (Lists.duplicate_meets mem).refusing
      fun _ ↦ False.elim) fun M copy _ duplicated ↦ ?_
    obtain ⟨there, memory, rfl⟩ := duplicated
    exact .pure ⟨there, ⟨rfl, rfl, fun kept ↦ kept⟩⟩
  next =>
    refine .bind (materialises.refusing fun _ refused ↦ refused) fun M others le loaded ↦ ?_
    obtain ⟨there, mirrors⟩ := loaded
    have formed : lists.Intact others.positionCount := mirrors.count.symm ▸ sound.formed _ mem
    have stored := ((sound.stored _ mem).mono le.issued).issued
    refine .fresh_bind fun handle ↦ ?_
    refine .fresh_add_bind (fun n ↦ array { lists with handle := handle, memory := n } others)
      (fun _ ↦ rfl) (fun _ ↦ by simpa [parts] using there) (formed.renamed handle)
      (fun _ ↦ .array stored) (fun _ ↦ trivial) fun n ↦
        .pure ⟨M.mem_add_self _, ⟨rfl, ?_, mirrors.loadable⟩⟩
    funext p
    rw [datum?, mirrors.datum]
    rfl

/-- **Keys are loaded throughout under a new identity**, unless their entries are loaded already. -/
theorem materialise_dictionary {keys : Keys} {entries : Block} (mem : dictionary keys entries ∈ K)
    (materialises : Materialises K entries) :
    (dictionary keys entries).materialise.Meets K
      (fun L c ↦ (c ∈ L ∧ c.Mirrors (dictionary keys entries)) ∧ ∃ made others,
        c = dictionary made others ∧ keys.Minted K.floor entries (made, others))
      (fun _ ↦ ¬ entries.Loadable) := by
  rw [materialise, reveal, pure_bind]
  refine .get_bind fun store sound ↦ ?_
  split
  next =>
    refine .query_bind (fun loads ↦ (Keys.duplicate_meets mem).refusing
      fun _ ↦ False.elim) fun M copy _ duplicated ↦ ?_
    obtain ⟨there, memory, rfl⟩ := duplicated
    exact .pure ⟨⟨there, ⟨rfl, rfl, fun kept ↦ kept⟩⟩, _, _, rfl, .inl ⟨rfl, rfl⟩⟩
  next =>
    refine .bind materialises fun M others le loaded ↦ ?_
    obtain ⟨there, mirrors⟩ := loaded
    refine .issue_bind fun handle _ ↦ .mint_bind fun n late spare ↦ ?_
    have since : M ≤ (M.issue handle).raise (n + 1) :=
      Census.le_trans (M.le_issue _) (Census.le_raise _ _)
    refine .query_bind (fun loads ↦ (Keys.make_meets (Census.mem_of_le since there)
      (since.issued (le.issued (sound.ids_issued mem)))
      (fun id listed ↦ mirrors.count.symm ▸ sound.formed _ mem id listed)
        (.inl ⟨spare, fun _ ↦ .inl rfl⟩)
        (by rintro ⟨⟩) (by rintro ⟨⟩) (by rintro ⟨⟩)).refusing fun _ refused ↦ absurd
          ⟨by rintro ⟨⟩, by rintro ⟨⟩⟩ (refused keys.fits)) fun N made _ ended ↦ .pure ?_
    obtain ⟨built, -⟩ := ended
    refine ⟨⟨built.mem, ⟨?_, ?_, mirrors.loadable⟩⟩, _, _, rfl,
      .inr ⟨n, Nat.le_trans le.floor late, built.source⟩⟩
    · rw [positionCount, ← Keys.length_toList, built.ids]
      exact keys.length_toList
    · funext p
      rw [datum?, built.ids, mirrors.datum]
      rfl

/-- **A block loaded throughout mirrors the block**, and there is one if all promises are kept. -/
theorem materialise_meets {b : Block} (mem : b ∈ K) : Materialises K b := by
  induction b using Block.walk generalizing K with
  | step b ih =>
    rw [Materialises, materialise_eq_bind]
    refine .bind (reveal_meets mem) fun L face _ shown ↦ .of_sound fun store sound ↦ ?_
    obtain ⟨present, mirrors, -⟩ := shown
    have materialises : Materialises L face.toBlock := by
      rcases face with leaf | leaf | ⟨lists, elements, below⟩ | ⟨keys, entries, below⟩
      · rw [Face.toBlock, Materialises, materialise, reveal, pure_bind]
        exact .pure ⟨present, .refl _⟩
      · rw [Face.toBlock, Materialises, materialise, reveal, pure_bind]
        exact .pure ⟨present, .refl _⟩
      · exact materialise_array present (ih elements below (sound.elements_mem present))
      · exact (materialise_dictionary present (ih entries below (sound.entries_mem present))).mono
          (fun _ _ _ ↦ And.left) fun _ ↦ id
    exact materialises.mono (fun M c _ loaded ↦ ⟨loaded.1, loaded.2.trans mirrors⟩)
      fun _ refused kept ↦ refused (mirrors.loadable kept)

end Block

end BatchColumn
