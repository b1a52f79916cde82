import BatchColumn.Proofs.Runs
import BatchColumn.Proofs.Weights
import BatchColumn.Proofs.Windows

/-!
# Sizing answers what is worked out, and when it cannot fail

Sizing a block computes figures and remembers them. As long as nothing below a block is loaded, what
is answered is what would be worked out with nothing remembered (`Block.sizeOf_meets`,
`Block.logicalSize_meets`), and the statistics of a dictionary block, on which other calls rely, are
always those of its keys (`Keys.statsWith_meets`).

A size can only fail for want of room: a mask over the entries of a dictionary needs as many bytes
as there are entries. Two kinds of blocks have it. In a `Roomy` block no block at any depth has more
positions than a mask can have. A `Sized` block needs no room, because its layers are leaves, lists
that cover all of their elements and keys whose statistics are remembered; gathering makes such
blocks, however many elements come together in them. A logical size takes more room for each entry,
and a `Small` block has that as well.
-/

namespace BatchColumn

variable {K : Census} {loads : Loads} {ledger : Ledger}

/-! ### Statistics -/

/-- **Statistics are exact.** They can be had if they are known to be remembered, or if the entries
can be sized and there is room for a mask. -/
theorem Keys.statsWith_meets {keys : Keys} {entries : Block} {entriesSize : Query Nat}
    (mem : .dictionary keys entries ∈ K)
    (sized : entriesSize.Meets K loads
      (fun L ↦ L.ConfirmsSize loads entries .all)
      (fun _ ↦ ¬ entries.Roomy loads)) :
    (keys.statsWith entries entriesSize).Meets K loads (fun L ↦ keys.Exact L loads entries)
      (fun _ ↦ keys.memory ∉ K.known ∧ ¬ entries.Roomy loads) := by
  refine .remembered_stats mem ?_
  refine .of_sound fun ledger sound ↦ .read_bind ?_
  have ids : ∀ id ∈ keys.toList, id < entries.positionCount := sound.formed _ mem
  refine .attempt_bind (fun used marked ↦ ?_) fun fault refused roomy ↦ ?_
  · -- What is worked out at any time when the entries were the same is the size told.
    have told : ∀ {L : Census} {size : Nat},
        (∀ since, L.Follows since loads (.dictionary keys entries) →
          keys.plainSize since entries (entries.plainSize since .all) = .ok size) →
        keys.Exact L loads entries ⟨size, keys.toList.eraseDups.length,
          (entries.resolved? loads).isNone && increasing keys.toList⟩ := fun worked ↦
      { unique := rfl
        sequential := fun grows ↦ (Bool.and_eq_true_iff.1 grows).2
        noted := fun grows ↦ by
          rcases alone : entries.resolved? loads with - | inner
          · exact .inl (by simp [grows])
          · exact .inr (.inl (by simp [Block.isNested, alone]))
        size := fun since follows ↦
          (Block.plainSize_dictionary_of_isWhole (Extent.isWhole_all _) since entries).trans
            (worked since follows) }
    dsimp only
    split
    next all =>
      refine .bind sized fun L size _ confirms ↦ ?_
      split
      next nested =>
        refine .pure (told fun since follows ↦ ?_)
        rw [Keys.plainSize, if_pos all, confirms since follows.entries,
          ← follows.entries.2.resolved?, nested]
        rfl
      next flat =>
        refine .pure (told fun since follows ↦ ?_)
        rw [Keys.plainSize, if_pos all, confirms since follows.entries,
          ← follows.entries.2.resolved?, flat]
        rfl
    next some =>
      refine .attempt_bind (fun size run ↦ .pure (told fun since follows ↦ ?_))
        fun fault refused roomy ↦ ?_
      · rw [Keys.plainSize, if_neg some, marked, ok_bind, ← follows.entries.2.flatMaskSize, run]
        rfl
      · rw [sound.flatMaskSize_eq_flatWeight (sound.entries_mem mem) roomy] at refused
        cases refused
  · rw [markUsed_eq_ok roomy.positionCount_lt ids] at refused
    cases refused

/-- What is told of keys that refer to all of their entries, which are no dictionary block. Ids that
grow may be missed where selections are made. -/
theorem Keys.exact_of_covers (keys : Keys) {entries : Block} {size : Nat} {sequential : Bool}
    (flat : entries.isNested loads = false)
    (covers : keys.toList.eraseDups.length = entries.positionCount)
    (grows : sequential = true → increasing keys.toList = true)
    (missed : increasing keys.toList = true → sequential = false → K.selects)
    (confirms : K.ConfirmsSize loads entries .all size) :
    keys.Exact K loads entries ⟨size + idSize * keys.count, entries.positionCount, sequential⟩ where
  unique := covers.symm
  sequential := grows
  noted grow := by
    rcases told : sequential
    · exact .inr (.inr ⟨missed grow told, rfl⟩)
    · exact .inl rfl
  size since follows := by
    have alone : entries.resolved? since = none := by
      rw [← follows.entries.2.resolved?]
      simpa [Block.isNested] using flat
    rw [Block.plainSize_dictionary_of_isWhole (Extent.isWhole_all _), plainSize, if_pos covers,
      confirms since follows.entries, alone]
    rfl

/-! ### Extents -/

namespace Block

/-- Sizing all of the block takes no room. -/
def Sized (K : Census) : Block → Prop
  | ints _ | slices _ => True
  | array lists elements =>
    lists.start 0 = 0 ∧ lists.start lists.count = elements.positionCount ∧ elements.Sized K
  | dictionary keys _ => keys.memory ∈ K.known
  | «lazy» _ _ => False

theorem Sized.mono {K L : Census} (le : K ≤ L) {b : Block} (sized : b.Sized K) : b.Sized L := by
  induction b with
  | ints | slices => trivial
  | array lists elements ih => exact ⟨sized.1, sized.2.1, ih sized.2.2⟩
  | dictionary keys entries => exact Census.known_of_le le sized
  | «lazy» promise payload => exact sized.elim

/-- An extent lies within a block, and there is room to size it, or none is needed. -/
def Sizable (K : Census) (loads : Loads) (b : Block) (extent : Extent) : Prop :=
  extent.offset + extent.length b.positionCount ≤ b.positionCount ∧
    (b.Roomy loads ∨ b.Sized K ∧ extent.isWhole b.positionCount = true)

/-- What stands behind a block can be sized if the block can. -/
theorem Sizable.face (sound : Sound K loads ledger) {b : Block} (mem : b ∈ K) {extent : Extent}
    {face : Face b.depth} (found : b.face? loads = some face) (sizable : b.Sizable K loads extent) :
    face.toBlock.Sizable K loads extent := by
  obtain ⟨-, mirrors⟩ := sound.face mem found
  obtain ⟨fits, roomy | ⟨sized, whole⟩⟩ := sizable
  · exact ⟨by rwa [mirrors.count], .inl (roomy.face found)⟩
  · refine ⟨by rwa [mirrors.count], .inr ⟨?_, by rwa [mirrors.count]⟩⟩
    rcases b with leaf | leaf | ⟨lists, elements⟩ | ⟨keys, entries⟩ | ⟨promise, payload⟩
    case «lazy» => exact sized.elim
    all_goals
      rw [face?] at found
      obtain rfl := Option.some.inj found
      exact sized

/-- The elements of an extent of lists can be sized if the lists can. -/
theorem Sizable.elements {lists : Lists} {elements : Block}
    (intact : lists.Intact elements.positionCount) {extent : Extent}
    (sizable : (array lists elements).Sizable K loads extent) :
    elements.Sizable K loads (.region (lists.start extent.offset)
      (lists.start (extent.offset + extent.length lists.count) - lists.start extent.offset)) := by
  obtain ⟨fits, room⟩ := sizable
  change extent.offset + extent.length lists.count ≤ lists.count at fits
  change _ ∨ _ ∧ extent.isWhole lists.count = true at room
  refine ⟨intact.span_le_size fits, ?_⟩
  rcases room with roomy | ⟨⟨first, last, sized⟩, whole⟩
  · exact .inl roomy.elements
  · have all : extent.offset = 0 ∧ extent.length lists.count = lists.count := by
      simpa [Extent.isWhole] using whole
    refine .inr ⟨sized, ?_⟩
    rw [all.1, all.2, Nat.zero_add, first, last]
    simp [Extent.isWhole, Extent.offset, Extent.length]

/-- Sizing an extent of a block answers what is worked out, as long as nothing in the block is
loaded, and fails only for want of room. -/
def Sizes (K : Census) (loads : Loads) (b : Block) (extent : Extent) : Prop :=
  (b.sizeOf extent).Meets K loads (fun L ↦ L.ConfirmsSize loads b extent)
    (fun _ ↦ ¬ b.Sizable K loads extent)

/-- The size of lists is that of the elements in them, and their overhead. -/
theorem sizes_array {lists : Lists} {elements : Block}
    (formed : lists.Intact elements.positionCount)
    (sizes : ∀ extent, Sizes K loads elements extent) {extent : Extent}
    (fits : extent.offset + extent.length lists.count ≤ lists.count) :
    (do
      let span ← liftM (lists.cut extent.offset (extent.length lists.count))
      return (← elements.sizeOf (.region span.1 (span.2 - span.1))) +
        Lists.overhead * extent.length lists.count : Query Nat).Meets K loads
      (fun L ↦ L.ConfirmsSize loads (array lists elements) extent)
      (fun _ ↦ ¬ (array lists elements).Sizable K loads extent) := by
  refine .check_ok_bind (Lists.cut_eq_ok fits) ?_
  refine .bind ((sizes _).refusing fun _ refused sizable ↦ refused (sizable.elements formed))
    fun L size _ confirms ↦ .pure fun since follows ↦ ?_
  rw [plainSize_array fits, confirms since follows.elements]
  rfl

/-- The size of keys at all positions is one of their statistics. -/
theorem sizes_dictionary_of_isWhole {keys : Keys} {entries : Block}
    (mem : dictionary keys entries ∈ K) (sizes : Sizes K loads entries .all) {extent : Extent}
    (whole : extent.isWhole keys.count = true) :
    (do return (← keys.statsWith entries (entries.sizeOf .all)).size : Query Nat).Meets K loads
      (fun L ↦ L.ConfirmsSize loads (dictionary keys entries) extent)
      (fun _ ↦ ¬ (dictionary keys entries).Sizable K loads extent) := by
  have sized := sizes.refusing fun _ refused (roomy : entries.Roomy loads) ↦
    refused ⟨Extent.fits_all _, .inl roomy⟩
  refine .bind ((Keys.statsWith_meets mem sized).refusing fun _ refused sizable ↦ ?_)
    fun L stats _ told ↦ .pure fun since follows ↦ ?_
  · rcases sizable.2 with roomy | ⟨known, -⟩
    · exact refused.2 roomy.entries
    · exact refused.1 known
  · have same : (dictionary keys entries).plainSize since extent =
        (dictionary keys entries).plainSize since .all := by
      rw [plainSize_dictionary_of_isWhole whole,
        plainSize_dictionary_of_isWhole (Extent.isWhole_all _)]
    exact same.trans (told.size since follows)

/-- The size of keys at some positions is that of the entries they refer to, and of their ids. -/
theorem sizes_dictionary_of_part {keys : Keys} {entries : Block}
    (mem : dictionary keys entries ∈ K) {extent : Extent}
    (fits : extent.offset + extent.length keys.count ≤ keys.count)
    (part : ¬ extent.isWhole keys.count = true) :
    (do
      let used ← liftM (markUsed entries.positionCount
        (stretch keys.toList extent.offset (extent.length keys.count)))
      return (← liftM (entries.maskSize (← read) used)) +
        idSize * extent.length keys.count : Query Nat).Meets K loads
      (fun L ↦ L.ConfirmsSize loads (dictionary keys entries) extent)
      (fun _ ↦ ¬ (dictionary keys entries).Sizable K loads extent) := by
  refine .of_sound fun ledger sound ↦ ?_
  have ids : ∀ id ∈ keys.toList, id < entries.positionCount := sound.formed _ mem
  have roomy : (dictionary keys entries).Sizable K loads extent → entries.Roomy loads :=
    fun sizable ↦ (sizable.2.resolve_right fun sized ↦ part sized.2).entries
  refine .attempt_bind (fun used marked ↦ .read_bind ?_) fun _ refused sizable ↦ ?_
  · refine .attempt_bind (fun size run ↦ .pure fun since follows ↦ ?_)
      fun _ refused sizable ↦ ?_
    · rw [plainSize_dictionary_of_part fits part, marked, ok_bind,
        ← follows.entries.2.maskSize, run]
      rfl
    · rw [sound.maskSize_eq_weight (sound.entries_mem mem) (roomy sizable)] at refused
      cases refused
  · rw [markUsed_eq_ok (roomy sizable).positionCount_lt
      fun id mem ↦ ids id (mem_of_mem_stretch mem)] at refused
    cases refused

/-- **Sizing a block answers what is worked out**, as long as nothing in it is loaded, and fails
only for want of room. -/
theorem sizeOf_meets {b : Block} (mem : b ∈ K) (extent : Extent) : Sizes K loads b extent := by
  induction b using Block.walk generalizing K extent with
  | step b ih =>
    rw [Sizes, sizeOf]
    refine .check_bind (fun _ passed ↦ .read_bind (.of_sound fun ledger sound ↦ ?_))
      fun _ refused sizable ↦ not_le_of_checkRegion_eq_error refused sizable.1
    rcases shown : b.face? loads with - | face
    · refine .pure fun since follows ↦ ?_
      rw [plainSize, ← follows.2.face?, shown, passed]
      rfl
    · obtain ⟨present, mirrors⟩ := sound.face mem shown
      refine .mono ?_ (fun L _ _ (confirms : L.ConfirmsSize loads face.toBlock extent _) ↦
          confirms.of_face shown mirrors.count)
        fun _ (refused : ¬ face.toBlock.Sizable K loads extent) sizable ↦
          refused (sizable.face sound mem shown)
      rw [← mirrors.count] at passed
      have fits := checkRegion_eq_ok_iff.1 passed
      have formed := sound.formed _ present
      rcases face with leaf | leaf | ⟨lists, elements, below⟩ | ⟨keys, entries, below⟩
      · exact .pure fun since _ ↦ plainSize_ints fits since
      · have run := Slices.windowSize_eq_ok formed fits
        exact .attempt (run ▸ fun since _ ↦ (plainSize_slices fits since).trans run)
      · have cut := sizes_array formed
          (fun extent ↦ ih elements below (sound.elements_mem present) extent) fits
        rcases extent with - | ⟨offset, length⟩
        · exact .remembered_sizes present cut
        · exact cut
      · dsimp only
        split
        next whole =>
          exact sizes_dictionary_of_isWhole present
            (ih entries below (sound.entries_mem present) .all) whole
        next part => exact sizes_dictionary_of_part present fits part

theorem size_meets {b : Block} (mem : b ∈ K) : b.size.Meets K loads
    (fun L ↦ L.ConfirmsSize loads b .all)
    (fun _ ↦ ¬ b.Roomy loads ∧ ¬ b.Sized K) := by
  refine (sizeOf_meets mem .all).refusing fun _ refused ↦ ⟨fun roomy ↦ ?_, fun sized ↦ ?_⟩
  · exact refused ⟨Extent.fits_all _, .inl roomy⟩
  · exact refused ⟨Extent.fits_all _, .inr ⟨sized, Extent.isWhole_all _⟩⟩

end Block

/-- **The statistics of a dictionary block are exact.** -/
theorem Keys.stats_meets {keys : Keys} {entries : Block} (mem : .dictionary keys entries ∈ K) :
    (keys.stats entries).Meets K loads (fun L ↦ keys.Exact L loads entries)
      (fun _ ↦ keys.memory ∉ K.known ∧ ¬ entries.Roomy loads) :=
  .of_sound fun _ sound ↦ statsWith_meets mem
    ((Block.size_meets (sound.entries_mem mem)).refusing fun _ refused ↦ refused.1)

/-- An id of an entry is sized as the entry. -/
theorem Block.entrySize_meets {entries : Block} {id : Nat} (mem : entries ∈ K)
    (inside : id < entries.positionCount) : (entries.entrySize id).Meets K loads
      (fun L ↦ L.ConfirmsSize loads entries (.region id 1)) (fun _ ↦ ¬ entries.Roomy loads) := by
  rw [entrySize, if_neg (Nat.not_le.2 inside)]
  exact (sizeOf_meets mem (.region id 1)).refusing fun _ refused roomy ↦
    refused ⟨inside, .inl roomy⟩

/-- The entries referred to are sized one by one. A sum that is no word is none worked out anew. -/
theorem Keys.logicalSize_meets {keys : Keys} {entries : Block}
    (mem : .dictionary keys entries ∈ K) :
    (do
      liftM (allocate entries.positionCount optionalSize)
      sumOver keys.toList entries.entrySize : Query Nat).Meets K loads
      (fun L ↦ L.ConfirmsLogicalSize loads (.dictionary keys entries))
      (fun fault ↦ entries.Small loads → fault = .panic ∧
        ∀ since, K.Follows since loads (.dictionary keys entries) →
          (Block.dictionary keys entries).plainLogicalSize since = .error .panic) := by
  refine .of_sound fun ledger sound ↦ ?_
  have entries_mem := sound.entries_mem mem
  have inside : ∀ id ∈ keys.toList, id < entries.positionCount := sound.formed _ mem
  refine .attempt_bind (fun _ room ↦ ?_) fun _ refused small ↦ ?_
  · -- The plain sums are those under the loads that the block is followed from.
    have plain : ∀ since, (Block.dictionary keys entries).plainLogicalSize since =
        sumOver keys.toList (entries.plainEntrySize since) := fun since ↦ by
      rw [Block.plainLogicalSize, Block.face?]
      simp only [room, ok_bind]
    refine (Query.Meets.sumOver (entries.Small loads)
      {plainly | ∃ since, K.Follows since loads (.dictionary keys entries) ∧
        plainly = entries.plainEntrySize since} fun L le id listed ↦ ?_).mono
          (fun L size le same since follows ↦ ?_) fun fault refused small ↦ ?_
    · refine (Block.entrySize_meets (Census.mem_of_le le entries_mem) (inside id listed)).mono
        (fun M size later confirms plainly agrees ↦ ?_) fun _ refused small ↦ refused small.roomy
      obtain ⟨since, follows, rfl⟩ := agrees
      rw [Block.plainEntrySize, if_neg (Nat.not_le.2 (inside id listed))]
      exact confirms since ((Census.follows_iff_of_le (Census.le_trans le later)).1 follows.entries)
    · rw [plain]
      exact same _ ⟨since, (Census.follows_iff_of_le le).2 follows, rfl⟩
    · refine (refused small).imp_right fun beyond since follows ↦ ?_
      rw [plain]
      exact beyond _ ⟨since, follows, rfl⟩
  · rw [allocate_of_lt] at refused
    · cases refused
    · have := small entries .refl
      rw [optionalSize]
      omega

/-- **The logical size of a block is what is worked out**, as long as nothing in it is loaded. Of a
small block it is refused only if the sizes of the entries are no word together. -/
theorem Block.logicalSize_meets {b : Block} (mem : b ∈ K) :
    b.logicalSize.Meets K loads (fun L ↦ L.ConfirmsLogicalSize loads b)
      (fun fault ↦ b.Small loads → fault = .panic ∧
        ∀ since, K.Follows since loads b → b.plainLogicalSize since = .error .panic) := by
  refine .of_sound fun ledger sound ↦ .read_bind ?_
  have shows : ∀ {L : Census} {since : Loads}, L.Follows since loads b →
      b.face? since = b.face? loads := fun follows ↦ follows.2.face?.symm
  rcases shown : b.face? loads with - | face
  · refine .pure fun since follows ↦ ?_
    rw [plainLogicalSize, shows follows, shown]
    rfl
  · obtain ⟨present, mirrors⟩ := sound.face mem shown
    rcases face with leaf | leaf | ⟨lists, elements, below⟩ | ⟨keys, entries, below⟩
    case dictionary =>
      have anew : ∀ {L : Census} {since : Loads}, L.Follows since loads b →
          b.plainLogicalSize since = (dictionary keys entries).plainLogicalSize since :=
        fun follows ↦ plainLogicalSize_of_face ((shows follows).trans shown)
      refine (Query.Meets.remembered_logicalSizes present (Keys.logicalSize_meets present)).mono
        (fun L size _ confirms since follows ↦ ?_) fun _ refused small ↦ ?_
      · exact (anew follows).trans (confirms since (follows.of_face shown))
      · refine (refused (small.face shown).entries).imp_right fun beyond since follows ↦ ?_
        exact (anew follows).trans (beyond since (follows.of_face shown))
    all_goals
      refine (size_meets mem).mono (fun L size _ confirms since follows ↦ ?_)
        fun _ refused small ↦ absurd small.roomy refused.1
      rw [plainLogicalSize, shows follows, shown]
      exact confirms since follows

/-- **Sizes that are a word together are added up**: a small block has a logical size if those of
the entries referred to are. -/
theorem Sound.runs_logicalSize {loads : Loads} {ledger : Ledger} (sound : Sound K loads ledger)
    {b : Block} (mem : b ∈ K) (small : b.Small loads)
    (addable : ∀ keys entries, b.resolved? loads = some (keys, entries) →
      Query.Addable keys.toList entries.entrySize loads ledger) :
    b.logicalSize.Runs loads ledger (fun _ _ ↦ True) fun _ _ ↦ False := by
  refine .read_bind ?_
  rcases shown : b.face? loads with - | face
  · exact .pure trivial
  · obtain ⟨present, -⟩ := sound.face mem shown
    rcases face with leaf | leaf | ⟨lists, elements, below⟩ | ⟨keys, entries, below⟩
    case dictionary =>
      have few := (small.face shown).entries
      have sizes : (keys.toList.mapM entries.entrySize).Meets K loads (fun _ _ ↦ True)
          fun _ ↦ False :=
        .mono (.mapM (R := fun _ _ ↦ True) fun L le id listed ↦
          (Block.entrySize_meets (Census.mem_of_le le (sound.entries_mem present))
            (sound.formed _ present id listed)).mono (fun _ _ _ _ ↦ trivial)
              fun _ refused ↦ refused few.roomy) (fun _ _ _ _ ↦ trivial) fun _ ↦ id
      obtain ⟨-, _, _, _, ends⟩ := sizes ledger sound
      rcases known : ledger.logicalSizes.get? keys.memory with - | size
      · refine .remembered_of_none known (P := fun _ _ ↦ True) ?_ fun _ _ _ ↦ trivial
        refine .attempt_bind (P := fun _ ↦ True) ?_ fun _ _ ↦ .sumOver ?_ ends
        · rw [allocate_of_lt]
          · trivial
          · have := few entries .refl
            rw [optionalSize]
            omega
        · exact addable keys entries (by rw [Block.resolved?, shown])
      · exact .remembered_of_some known trivial
    all_goals
      obtain ⟨-, _, _, _, ends⟩ := Block.size_meets mem ledger sound
      exact ends.mono (fun _ _ ↦ trivial) fun _ refused ↦ absurd small.roomy refused.1

end BatchColumn
