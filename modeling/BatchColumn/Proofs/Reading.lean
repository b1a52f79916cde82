import BatchColumn.Block.Read
import BatchColumn.Proofs.Windows

/-!
# Readers compute functions of the datum

Every reader of a block answers with a function of the datum at the position, whatever is loaded and
remembered: this is `Session.Reads`, and a reader whose promises will be kept fails only where the
function of the datum is an error. So two positions that hold the same datum cannot be told apart by
reading, in the same state or in different ones.

The proofs follow the readers: reveal, then answer from a leaf, pass the question on to the entry
that a key refers to, or walk the members of a list.
-/

namespace BatchColumn

variable {α : Type} {K : Census}

/-- The session answers with a function of what the position holds. -/
def Session.Reads (session : Session α) (K : Census) (b : Block) (position : Nat)
    (answer : Datum → Except Fault α) : Prop :=
  session.Meets K
    (fun _ a ↦ ∃ datum, b.datum? position = some datum ∧ answer datum = .ok a)
    (fun fault ↦ b.Loadable → ∀ datum, b.datum? position = some datum →
      answer datum = .error fault)

namespace Session.Reads

variable {b : Block} {position : Nat} {answer : Datum → Except Fault α}

/-- A leaf that answers with a function of the datum, or reports the position, reads it. -/
theorem leaf {attempt : Except Fault α} {fault : Fault}
    (run : attempt = (b.datum? position).elim (.error fault) answer) :
    (liftM attempt : Session α).Reads K b position answer := by
  rcases held : b.datum? position with - | datum
  · rw [run, held]
    exact .throw fun _ datum found ↦ by simp [held] at found
  · rw [run, held, Option.elim_some]
    rcases reply : answer datum with cause | a
    · refine .throw fun _ other found ↦ ?_
      rwa [← Option.some.inj (held.symm.trans found)]
    · exact .pure ⟨datum, held, reply⟩

/-- What is read is a matter of the datum that is there. -/
theorem congr {session : Session α} {reply : Datum → Except Fault α}
    (reads : session.Reads K b position reply)
    (same : ∀ datum, b.datum? position = some datum → answer datum = reply datum) :
    session.Reads K b position answer :=
  reads.mono (fun _ _ _ ⟨datum, found, read⟩ ↦ ⟨datum, found, (same datum found).trans read⟩)
    fun _ refused kept datum found ↦ (same datum found).trans (refused kept datum found)

/-- A position is read through the lazy blocks in front of it. -/
theorem reveal {rest : Face b.depth → Session α} (mem : b ∈ K)
    (next : ∀ (L : Census) (face : Face b.depth) (store : Store),
      Sound L store.loads store.ledger → face.toBlock ∈ L →
        (rest face).Reads L face.toBlock position answer) :
    (b.reveal >>= rest).Reads K b position answer := by
  refine .bind ((Block.reveal_meets mem).refusing fun _ refused kept ↦
    absurd kept refused) fun L face _ shown ↦ .of_sound fun store sound ↦ ?_
  obtain ⟨present, mirrors, -⟩ := shown
  refine (next L face store sound present).mono (fun _ _ _ read ↦ ?_)
    fun _ refused kept datum found ↦ ?_
  · rwa [mirrors.datum] at read
  · exact refused (mirrors.loadable kept) datum (mirrors.datum ▸ found)

/-- A position of a dictionary block is read at the entry that it refers to. -/
theorem entry {keys : Keys} {entries : Block} {rest : Nat → Session α}
    (next : ∀ id, keys.toList[position]? = some id → (rest id).Reads K entries id answer) :
    (liftM (keys.id position) >>= rest).Reads K (.dictionary keys entries) position answer := by
  rcases listed : keys.toList[position]? with - | id
  · have beyond : (Block.dictionary keys entries).datum? position = none := by
      rw [Block.datum?, listed, Option.bind_none]
    refine .check_bind (fun id found ↦ ?_) fun _ _ _ datum held ↦ by simp [beyond] at held
    rw [Keys.id_eq_error (by simpa using List.getElem?_eq_none_iff.1 listed)] at found
    cases found
  · have there : (Block.dictionary keys entries).datum? position = entries.datum? id := by
      rw [Block.datum?, listed, Option.bind_some]
    refine .check_ok_bind (Keys.id_eq_ok listed) ?_
    refine (next id listed).mono (fun _ _ _ read ↦ ?_) fun _ refused kept datum held ↦ ?_
    · rwa [there]
    · exact refused kept datum (there ▸ held)

/-- A reader that answers from every datum answers at every position of a block that can be
loaded. -/
theorem total {session : Session α} {g : Datum → α} (mem : b ∈ K)
    (inside : position < b.positionCount)
    (reads : session.Reads K b position fun datum ↦ .ok (g datum)) :
    session.Meets K (fun _ a ↦ ∃ datum, b.datum? position = some datum ∧ g datum = a)
      (fun _ ↦ ¬ b.Loadable) := by
  refine .of_sound fun store sound ↦ reads.mono (fun _ a _ read ↦ ?_) fun _ refused kept ↦ ?_
  · obtain ⟨datum, found, reply⟩ := read
    exact ⟨datum, found, Except.ok.inj reply⟩
  · obtain ⟨datum, found⟩ := sound.exists_datum mem kept inside
    cases refused kept datum found

/-- A block of another kind refuses. -/
theorem refuse {cause : Error} (other : ∀ datum, b.datum? position = some datum →
    answer datum = .error (.error cause)) :
    (throw (.error cause) : Session α).Reads K b position answer :=
  .throw fun _ ↦ other

end Session.Reads

namespace Block

variable {b : Block} (mem : b ∈ K) (position : Nat)

include mem

/-! ### Nulls and stored data -/

theorem isNull_reads : (b.isNull position).Reads K b position fun datum ↦ .ok datum.isNull := by
  induction b using Block.walk generalizing K position with
  | step b ih =>
    rw [isNull]
    refine .reveal mem fun L face store sound present ↦ ?_
    have formed := sound.formed _ present
    rcases face with leaf | leaf | ⟨lists, elements, below⟩ | ⟨keys, entries, below⟩
    · exact .leaf (Ints.isNull_eq formed position)
    · exact .leaf (Slices.isNull_eq formed position)
    · exact .leaf (formed.isNull_eq elements.datum? position)
    · refine .entry fun id listed ↦ ?_
      refine .get_bind fun store sound ↦ ?_
      split
      next => exact ih entries below (sound.entries_mem present) id
      -- Entries without nulls are not asked, and need not be.
      next none =>
        obtain ⟨datum, found, marked⟩ := sound.exists_datum_of_mayHaveNull_eq_false
          (sound.entries_mem present) (by simpa using none)
          (formed id (List.mem_of_getElem? listed))
        exact .pure ⟨datum, found, congrArg Except.ok marked⟩

theorem readInt_reads (width : Width) :
    (b.readInt width position).Reads K b position fun datum ↦ liftM (datum.readInt width) := by
  induction b using Block.walk generalizing K position with
  | step b ih =>
    rw [readInt]
    refine .reveal mem fun L face store sound present ↦ ?_
    rcases face with leaf | leaf | ⟨lists, elements, below⟩ | ⟨keys, entries, below⟩
    · exact .leaf (Ints.read_eq position width)
    · refine .refuse fun datum found ↦ ?_
      obtain ⟨-, ⟨⟩⟩ := Option.ite_none_right_eq_some.1 found
      rfl
    · refine .refuse fun datum found ↦ ?_
      obtain ⟨-, ⟨⟩⟩ := Option.ite_none_right_eq_some.1 found
      rfl
    · exact .entry fun id _ ↦ ih entries below (sound.entries_mem present) id

theorem readSlice_reads :
    (b.readSlice position).Reads K b position fun datum ↦ liftM datum.readSlice := by
  induction b using Block.walk generalizing K position with
  | step b ih =>
    rw [readSlice]
    refine .reveal mem fun L face store sound present ↦ ?_
    rcases face with leaf | leaf | ⟨lists, elements, below⟩ | ⟨keys, entries, below⟩
    · refine .refuse fun datum found ↦ ?_
      obtain ⟨n, -, rfl⟩ := Option.map_eq_some_iff.1 found
      rfl
    · exact .leaf (Slices.slice_eq (sound.formed _ present) position)
    · refine .refuse fun datum found ↦ ?_
      obtain ⟨-, ⟨⟩⟩ := Option.ite_none_right_eq_some.1 found
      rfl
    · exact .entry fun id _ ↦ ih entries below (sound.entries_mem present) id

theorem sliceLength_reads :
    (b.sliceLength position).Reads K b position fun datum ↦ liftM datum.sliceLength := by
  induction b using Block.walk generalizing K position with
  | step b ih =>
    rw [sliceLength]
    refine .reveal mem fun L face store sound present ↦ ?_
    rcases face with leaf | leaf | ⟨lists, elements, below⟩ | ⟨keys, entries, below⟩
    · refine .refuse fun datum found ↦ ?_
      obtain ⟨n, -, rfl⟩ := Option.map_eq_some_iff.1 found
      rfl
    · exact .leaf (Slices.sliceLength_eq (sound.formed _ present) position)
    · refine .refuse fun datum found ↦ ?_
      obtain ⟨-, ⟨⟩⟩ := Option.ite_none_right_eq_some.1 found
      rfl
    · exact .entry fun id _ ↦ ih entries below (sound.entries_mem present) id

end Block

/-! ### Values and data sizes -/

/-- Answers at all positions where there is a datum are a function of the data. -/
theorem map_filterMap_of_forall₂ {β : Type} {datum? : Nat → Option Datum} {g : Datum → β}
    {positions : List Nat} {answers : List β}
    (each : List.Forall₂ (fun i a ↦ ∃ datum, datum? i = some datum ∧ g datum = a)
      positions answers) :
    (positions.filterMap datum?).map g = answers := by
  induction each with
  | nil => rfl
  | cons here _ ih =>
    obtain ⟨datum, found, rfl⟩ := here
    rw [List.filterMap_cons_some found, List.map_cons, ih]

/-- The data that are there are added up position by position. -/
theorem sum_map_filterMap (datum? : Nat → Option Datum) (size : Datum → Nat)
    (positions : List Nat) : ((positions.filterMap datum?).map size).sum =
      (positions.map fun i ↦ (datum? i).elim 0 size).sum := by
  induction positions with
  | nil => rfl
  | cons i rest ih =>
    rcases found : datum? i with - | datum
    · simp [List.filterMap_cons_none found, found, ih]
    · simp [List.filterMap_cons_some found, found, ih]

/-- Consecutive positions are read one by one. -/
theorem Session.Reads.mapFrom {b : Block} {call : Nat → Session α} {g : Datum → α}
    {start count : Nat} (mem : b ∈ K) (inside : start + count ≤ b.positionCount)
    (reads : ∀ L, K ≤ L → ∀ i, (call i).Reads L b i fun datum ↦ .ok (g datum)) :
    (BatchColumn.mapFrom start count call).Meets K
      (fun _ answers ↦ ((List.range' start count).filterMap b.datum?).map g = answers)
      (fun _ ↦ ¬ b.Loadable) :=
  (Session.Meets.mapFrom fun L later i _ room ↦
    (reads L later i).total (Census.mem_of_le later mem) (by omega)).mono
      (fun _ _ _ each ↦ map_filterMap_of_forall₂ each) fun _ ↦ id

/-- A list is read at its members: a null list at none, another one after its null flag. -/
theorem Session.Reads.members {lists : Lists} {elements : Block} {position : Nat} {null : α}
    {rest : Nat × Nat → Session α} {answer : Datum → Except Fault α}
    (intact : lists.Intact elements.positionCount)
    (nulls : ∀ items, answer (.list true items) = .ok null)
    (next : lists.start position ≤ lists.start (position + 1) →
      lists.start (position + 1) ≤ elements.positionCount →
        (rest (lists.start position, lists.start (position + 1))).Meets K
          (fun _ a ↦ answer (.list false ((lists.members position).filterMap elements.datum?)) =
            .ok a)
          (fun fault ↦ elements.Loadable →
            answer (.list false ((lists.members position).filterMap elements.datum?)) =
              .error fault)) :
    (do
      if ← liftM (lists.isNull position) then return null
      rest (← liftM (lists.span position)) : Session α).Reads K (.array lists elements) position
        answer := by
  rcases Nat.lt_or_ge position lists.count with inside | outside
  · have held : (Block.array lists elements).datum? position =
        some (.list (lists.nulls.marks (lists.base + position))
          ((lists.members position).filterMap elements.datum?)) := Lists.datum?_of_lt inside
    refine .attempt_ok_bind (intact.isNull_eq_ok inside) ?_
    split
    next marked => exact .pure ⟨_, held, marked ▸ nulls _⟩
    next unmarked =>
      refine .check_ok_bind (Lists.span_eq_ok inside) ?_
      refine (next (intact.start_le_start (Nat.le_succ position) inside)
        (intact.start_le_size inside)).mono (fun _ a _ read ↦ ⟨_, held, ?_⟩)
          fun _ refused kept datum found ↦ ?_
      · rwa [Bool.eq_false_iff.2 unmarked]
      · obtain rfl := Option.some.inj (held.symm.trans found)
        rw [Bool.eq_false_iff.2 unmarked]
        exact refused kept
  · refine .attempt_bind (fun null run ↦ ?_) fun _ _ _ datum found ↦ ?_
    · rw [Lists.isNull, checkPosition_of_le outside] at run
      cases run
    · rw [Block.datum?_of_le outside] at found
      cases found

namespace Block

variable {b : Block} (mem : b ∈ K) (position : Nat)

include mem

theorem value_reads : (b.value position).Reads K b position fun datum ↦ .ok datum.value := by
  induction b using Block.walk generalizing K position with
  | step b ih =>
    rw [value]
    refine .reveal mem fun L face store sound present ↦ ?_
    have formed := sound.formed _ present
    rcases face with leaf | leaf | ⟨lists, elements, below⟩ | ⟨keys, entries, below⟩
    · exact .leaf (Ints.value_eq formed position)
    · exact .leaf (Slices.value_eq formed position)
    · refine .members formed (fun _ ↦ by simp) fun ordered within ↦ ?_
      refine .query_bind (fun loads ↦ (windowWithin_meets (sound.elements_mem present) _ _).refusing
        fun _ beyond ↦ absurd (by omega) beyond.2) fun M list le shown ↦ ?_
      obtain ⟨there, -, shows, -⟩ := shown
      have within : list.1.depth < b.depth := Nat.lt_of_le_of_lt list.2 below
      refine .bind ((Session.Reads.mapFrom there (Nat.zero_add _).le fun N later i ↦
        ih list.1 within (Census.mem_of_le later there) i).refusing
          fun _ refused kept ↦ absurd (shows.loadable kept) refused) fun N answers _ each ↦ .pure ?_
      rw [Datum.value_list, if_neg Bool.false_ne_true, ← each]
      congr 3
      rw [shows.count, List.length_range', Lists.members]
      refine filterMap_range'_congr fun j inside ↦ ?_
      rw [shows.datum_range' (by omega), Nat.zero_add]
    · exact .entry fun id _ ↦ ih entries below (sound.entries_mem present) id

theorem dataSize_reads :
    (b.dataSize position).Reads K b position fun datum ↦ checkSize datum.dataSize := by
  induction b using Block.walk generalizing K position with
  | step b ih =>
    rw [dataSize]
    refine .reveal mem fun L face store sound present ↦ ?_
    have formed := sound.formed _ present
    rcases face with leaf | leaf | ⟨lists, elements, below⟩ | ⟨keys, entries, below⟩
    · exact .congr (.leaf (Ints.dataSize_eq formed position)) fun datum found ↦
        checkSize_of_lt (Ints.dataSize_lt found)
    · exact .congr (.leaf (Slices.dataSize_eq formed position)) fun datum found ↦
        checkSize_of_lt (Slices.dataSize_lt formed found)
    · refine .members formed (fun _ ↦ by simp [checkSize_of_lt]) fun ordered within ↦ ?_
      have total : checkSize (Datum.list false
            ((lists.members position).filterMap elements.datum?)).dataSize =
          sumOver (lists.members position)
            fun i ↦ checkSize ((elements.datum? i).elim 0 Datum.dataSize) := by
        rw [sumOver_eq_checkSize fun _ _ ↦ .inr rfl, Datum.dataSize_list,
          if_neg Bool.false_ne_true, sum_map_filterMap]
      rw [total]
      have present := sound.elements_mem present
      refine .sumFrom fun M later i _ room ↦ .of_sound fun store sound ↦ ?_
      have mem := Census.mem_of_le later present
      refine (ih elements below mem i).mono (fun N size _ read ↦ ?_) fun fault refused kept ↦ ?_
      · obtain ⟨datum, found, read⟩ := read
        rwa [found]
      · obtain ⟨datum, found⟩ := sound.exists_datum mem kept (show i < _ by omega)
        rw [found]
        exact refused kept datum found
    · exact .entry fun id _ ↦ ih entries below (sound.entries_mem present) id

omit mem in
/-- The values of all positions, of a block that can be loaded. -/
theorem values_meets (mem : b ∈ K) : b.values.Meets K
    (fun _ answers ↦ ((List.range' 0 b.positionCount).filterMap b.datum?).map Datum.value = answers)
    (fun _ ↦ ¬ b.Loadable) :=
  Session.Reads.mapFrom mem (Nat.zero_add _).le fun _ later i ↦
    value_reads (Census.mem_of_le later mem) i

omit mem in
theorem sameValues_meets {other : Block} (mem : b ∈ K) (present : other ∈ K) :
    (b.sameValues other).Meets K (fun _ _ ↦ True) (fun _ ↦ True) := by
  rw [sameValues]
  split
  · exact .pure trivial
  · refine .allFrom fun L later i _ _ ↦ ?_
    refine .bind ((value_reads (Census.mem_of_le later mem) i).mono (fun _ _ _ _ ↦ trivial)
      fun _ _ ↦ trivial) fun M v latest _ ↦ ?_
    have still := Census.mem_of_le (Census.le_trans later latest) present
    exact .bind ((value_reads still i).mono (fun _ _ _ _ ↦ trivial) fun _ _ ↦ trivial)
      fun _ _ _ _ ↦ .pure trivial

/-- A list, as a window of the elements, holds the items of the datum. -/
theorem readList_meets : (b.readList position).Meets K
    (fun L w ↦ w ∈ L ∧ ∃ null items, b.datum? position = some (.list null items) ∧
      (List.range' 0 w.positionCount).filterMap w.datum? = items)
    (fun _ ↦ True) := by
  induction b using Block.walk generalizing K position with
  | step b ih =>
    rw [readList]
    refine .bind ((reveal_meets mem).refusing fun _ _ ↦ trivial)
      fun L face _ shown ↦ .of_sound fun store sound ↦ ?_
    obtain ⟨present, mirrors, -⟩ := shown
    rw [← mirrors.datum]
    have formed := sound.formed _ present
    rcases face with leaf | leaf | ⟨lists, elements, below⟩ | ⟨keys, entries, below⟩
    · exact .throw trivial
    · exact .throw trivial
    · refine .check_bind (fun span run ↦ ?_) fun _ _ ↦ trivial
      obtain ⟨inside, rfl⟩ := Lists.of_span_eq_ok run
      refine (Session.Meets.query fun loads ↦ window_meets (sound.elements_mem present) _ _).mono
        (fun M w _ shown ↦ ⟨shown.1, _, _, Lists.datum?_of_lt inside, ?_⟩) fun _ _ ↦ trivial
      rw [shown.2.count, List.length_range', Lists.members]
      refine filterMap_range'_congr fun j room ↦ ?_
      rw [shown.2.datum_range' (by omega), Nat.zero_add]
    · refine .check_bind (fun id run ↦ ?_) fun _ _ ↦ trivial
      have listed := Keys.getElem?_of_id_eq_ok run
      refine (ih entries below (sound.entries_mem present) id).mono (fun M w _ shown ↦ ?_)
        fun _ _ ↦ trivial
      rwa [Face.toBlock, datum?, listed]

end Block

end BatchColumn
