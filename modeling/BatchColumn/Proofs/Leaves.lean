import BatchColumn.Proofs.Checks
import BatchColumn.Proofs.Datum

/-!
# Leaves hold what they should

A leaf is **intact** if its arrays agree: as many flags as positions, offsets that never decrease
and stay within the bytes. Every operation on an intact leaf whose positions are in range succeeds,
gives an intact leaf, and shows the data of the positions asked for; every reader computes the
corresponding function of the datum.

Views and null flags come first. A view is met through the list it holds, and flags through
`Nulls.marks`.
-/

namespace BatchColumn

variable {α : Type}

/-! ### Views -/

namespace View

theorem get_eq (v : View α) (i : Nat) : v.get i = orPanic v.toList[i]? := by
  rw [get, get?_eq_getElem?_toList]

theorem get_of_getElem? {v : View α} {i : Nat} {a : α} (found : v.toList[i]? = some a) :
    v.get i = .ok a := by
  rw [get_eq, found]
  rfl

theorem getElem?_toList_item (v : View α) {i : Nat} (inside : i < v.length) :
    v.toList[i]? = some (v.item i inside) := by
  rw [← get?_eq_getElem?_toList, get?_eq_some_item]

theorem exists_getElem?_toList (v : View α) {i : Nat} (inside : i < v.length) :
    ∃ a, v.toList[i]? = some a :=
  ⟨_, v.getElem?_toList_item inside⟩

/-- A window that fits is a view of the stretch. -/
theorem region_eq_ok (v : View α) {offset length : Nat} (fits : offset + length ≤ v.length) :
    ∃ w, v.region offset length = .ok w ∧ w.toList = stretch v.toList offset length ∧
      w.length = length := by
  have found : ∃ w, v.region? offset length = some w ∧ w.length = length := by
    rw [region?, dif_pos fits]
    exact ⟨_, rfl, rfl⟩
  obtain ⟨w, shape, size⟩ := found
  refine ⟨w, ?_, toList_of_region? shape, size⟩
  rw [region, shape]
  rfl

@[simp] theorem length_compact (v : View α) (storage : Nat) :
    (v.compact storage).length = v.length := by
  rw [← length_toList, toList_compact, length_toList]

end View

/-! ### Null flags -/

namespace Nulls

/-- The flags, if any are kept, are as many as there are positions. -/
def Spans (nulls : Nulls) (count : Nat) : Prop :=
  ∀ flags, nulls.flags = some flags → flags.length = count

/-- The flags, if any are kept, reach as far as the positions do. -/
def Reaches (nulls : Nulls) (count : Nat) : Prop :=
  ∀ flags, nulls.flags = some flags → count ≤ flags.length

theorem Spans.reaches {nulls : Nulls} {count : Nat} (spans : nulls.Spans count) :
    nulls.Reaches count :=
  fun flags kept ↦ (spans flags kept).ge

theorem Reaches.mono {nulls : Nulls} {less more : Nat} (reaches : nulls.Reaches more)
    (le : less ≤ more) : nulls.Reaches less :=
  fun flags kept ↦ le.trans (reaches flags kept)

theorem marks_of_mayHaveNull_eq_false {nulls : Nulls} (none : nulls.mayHaveNull = false) (i : Nat) :
    nulls.marks i = false := by
  rw [mayHaveNull, Option.isSome_eq_false_iff, Option.isNone_iff_eq_none] at none
  rw [marks, none]

/-- A flag within reach is read as it is. -/
theorem isNull_eq_ok {nulls : Nulls} {count i : Nat} (reaches : nulls.Reaches count)
    (inside : i < count) : nulls.isNull i = .ok (nulls.marks i) := by
  rcases kept : nulls.flags with - | flags
  · simp [isNull, marks, kept]
  · obtain ⟨flag, found⟩ :=
      flags.exists_getElem?_toList (Nat.lt_of_lt_of_le inside (reaches flags kept))
    simp [isNull, marks, kept, View.get_of_getElem? found, List.getD_eq_getElem?_getD, found]

theorem marks_ofFlags (storage : Nat) (flags : List Bool) (i : Nat) :
    (ofFlags storage flags).marks i = flags.getD i false := by
  rw [ofFlags]
  split
  next => simp [marks]
  next unmarked =>
    have all : ∀ flag ∈ flags, flag = false := by simpa using unmarked
    rw [marks, none, List.getD_eq_getElem?_getD]
    rcases found : flags[i]? with - | flag
    · rfl
    · exact (all flag (List.mem_of_getElem? found)).symm

theorem spans_ofFlags (storage : Nat) (flags : List Bool) :
    (ofFlags storage flags).Spans flags.length := by
  rw [ofFlags]
  split
  · rintro _ ⟨⟩
    rfl
  · rintro _ ⟨⟩

/-- Optional flags mark what they say, and nothing if they are missing. -/
theorem marks_ofFlags? (storage : Nat) (flags? : Option (List Bool)) (i : Nat) :
    (ofFlags? storage flags?).marks i = (flags?.getD []).getD i false := by
  rcases flags? with - | flags
  · simp [ofFlags?, none, marks]
  · exact marks_ofFlags storage flags i

theorem spans_ofFlags? (storage : Nat) {flags? : Option (List Bool)} {count : Nat}
    (size : ∀ flags, flags? = some flags → flags.length = count) :
    (ofFlags? storage flags?).Spans count := by
  rcases flags? with - | flags
  · rintro _ ⟨⟩
  · exact size flags rfl ▸ spans_ofFlags storage flags

/-- A window of flags marks what the flags mark past its offset. -/
theorem window_eq_ok {nulls : Nulls} {offset length : Nat}
    (reaches : nulls.Reaches (offset + length)) :
    ∃ w, nulls.window offset length = .ok w ∧ w.Spans length ∧
      ∀ i < length, w.marks i = nulls.marks (offset + i) := by
  rcases kept : nulls.flags with - | flags
  · refine ⟨none, by simp [window, kept], by rintro _ ⟨⟩, fun i _ ↦ ?_⟩
    simp [marks, kept, none]
  · obtain ⟨w, run, items, size⟩ := flags.region_eq_ok (reaches flags kept)
    refine ⟨⟨some w⟩, by rw [window, kept]; simp only [run]; rfl, ?_, fun i inside ↦ ?_⟩
    · rintro _ ⟨⟩
      exact size
    · simp [marks, kept, items, List.getD_eq_getElem?_getD, getElem?_stretch, inside]

theorem copy_eq_ok {nulls : Nulls} (storage : Nat) {offset length : Nat}
    (reaches : nulls.Reaches (offset + length)) :
    ∃ w, nulls.copy storage offset length = .ok w ∧ w.Spans length ∧
      ∀ i < length, w.marks i = nulls.marks (offset + i) := by
  rcases kept : nulls.flags with - | flags
  · refine ⟨none, by simp [copy, kept], by rintro _ ⟨⟩, fun i _ ↦ ?_⟩
    simp [marks, kept, none]
  · obtain ⟨w, run, items, size⟩ := flags.region_eq_ok (reaches flags kept)
    refine ⟨⟨some (w.compact storage)⟩, by rw [copy, kept]; simp only [run]; rfl, ?_,
      fun i inside ↦ ?_⟩
    · rintro _ ⟨⟩
      rw [View.length_compact, size]
    · simp [marks, kept, items, List.getD_eq_getElem?_getD, getElem?_stretch, inside]

theorem gather_eq_ok {nulls : Nulls} (storage : Nat) {count : Nat} {indices : List Nat}
    (reaches : nulls.Reaches count) (inside : ∀ index ∈ indices, index < count) :
    ∃ w, nulls.gather storage indices = .ok w ∧ w.Spans indices.length ∧
      ∀ i index, indices[i]? = some index → w.marks i = nulls.marks index := by
  rcases kept : nulls.flags with - | flags
  · refine ⟨none, by simp [gather, kept], by rintro _ ⟨⟩, fun i index _ ↦ ?_⟩
    simp [marks, kept, none]
  · have read : ∀ index ∈ indices, flags.get index = .ok (nulls.marks index) := by
      intro index mem
      have := isNull_eq_ok reaches (inside index mem)
      rwa [isNull, kept] at this
    refine ⟨ofFlags storage (indices.map nulls.marks), ?_, ?_, fun i index found ↦ ?_⟩
    · rw [gather, kept]
      simp only [mapM_eq_ok_map read]
      rfl
    · simpa using spans_ofFlags storage (indices.map nulls.marks)
    · simp [marks_ofFlags, List.getD_eq_getElem?_getD, found]

end Nulls

/-! ### Leaves of integers -/

namespace Ints

/-- A leaf keeps as many flags as integers, or none. -/
def Intact (leaf : Ints) : Prop :=
  leaf.nulls.Spans leaf.count

theorem datum?_of_lt {leaf : Ints} {position : Nat} (inside : position < leaf.count) :
    ∃ n, leaf.cells.toList[position]? = some n ∧
      leaf.datum? position = some (.int (leaf.nulls.marks position) leaf.width n) := by
  obtain ⟨n, found⟩ := leaf.cells.exists_getElem?_toList inside
  exact ⟨n, found, by rw [datum?, found, Option.map_some]⟩

theorem datum?_of_le {leaf : Ints} {position : Nat} (outside : leaf.count ≤ position) :
    leaf.datum? position = none := by
  rw [datum?, List.getElem?_eq_none (by rwa [View.length_toList]), Option.map_none]

section Readers

variable {leaf : Ints} (intact : leaf.Intact) (position : Nat)

include intact

theorem isNull_eq : leaf.isNull position = (leaf.datum? position).elim
    (.error (.error (.positionOutOfBounds position leaf.count))) fun datum ↦ .ok datum.isNull := by
  rw [isNull]
  rcases Nat.lt_or_ge position leaf.count with inside | outside
  · obtain ⟨n, -, datum⟩ := datum?_of_lt inside
    rw [checkPosition_of_lt inside, datum]
    exact Nulls.isNull_eq_ok (Nulls.Spans.reaches intact) inside
  · rw [checkPosition_of_le outside, datum?_of_le outside]
    rfl

theorem value_eq : leaf.value position = (leaf.datum? position).elim
    (.error (.error (.positionOutOfBounds position leaf.count))) fun datum ↦ .ok datum.value := by
  rw [value, isNull_eq intact]
  rcases Nat.lt_or_ge position leaf.count with inside | outside
  · obtain ⟨n, found, datum⟩ := datum?_of_lt inside
    rw [datum, View.get_of_getElem? found]
    rcases leaf.nulls.marks position with - | - <;> rfl
  · rw [datum?_of_le outside]
    rfl

theorem dataSize_eq : leaf.dataSize position = (leaf.datum? position).elim
    (.error (.error (.positionOutOfBounds position leaf.count)))
      fun datum ↦ .ok datum.dataSize := by
  rw [dataSize, isNull_eq intact]
  rcases Nat.lt_or_ge position leaf.count with inside | outside
  · obtain ⟨n, -, datum⟩ := datum?_of_lt inside
    rw [datum]
    rfl
  · rw [datum?_of_le outside]
    rfl

omit intact in
/-- The data of one position are a word. -/
theorem dataSize_lt {position : Nat} {datum : Datum} (found : leaf.datum? position = some datum) :
    datum.dataSize < UInt64.size := by
  obtain ⟨n, -, rfl⟩ := Option.map_eq_some_iff.1 found
  have word : ∀ width : Width, width.bytes < UInt64.size := by
    rintro (- | - | - | -) <;> decide
  rcases leaf.nulls.marks position with - | -
  · exact word leaf.width
  · exact (by decide : 0 < UInt64.size)

omit intact in
theorem read_eq (width : Width) : leaf.read width position = (leaf.datum? position).elim
    (.error (.error (.positionOutOfBounds position leaf.count)))
      fun datum ↦ liftM (datum.readInt width) := by
  rw [read]
  rcases Nat.lt_or_ge position leaf.count with inside | outside
  · obtain ⟨n, found, datum⟩ := datum?_of_lt inside
    rw [checkPosition_of_lt inside, datum, View.get_of_getElem? found]
    by_cases own : width = .long ∨ width = leaf.width <;>
      simp [Datum.readInt, own, throw, throwThe, MonadExceptOf.throw]
  · rw [checkPosition_of_le outside, datum?_of_le outside]
    rfl

end Readers

/-- A leaf with the integers and flags of a window of another shows the window. -/
theorem shows_of_window {leaf w : Ints} {offset length : Nat} (width : w.width = leaf.width)
    (size : w.count = length) (cells : w.cells.toList = stretch leaf.cells.toList offset length)
    (marks : ∀ i < length, w.nulls.marks i = leaf.nulls.marks (offset + i)) :
    (Block.ints w).Shows (.ints leaf) (List.range' offset length) := by
  refine .of_window size (fun i inside ↦ ?_) (fun i outside ↦ ?_) id
  · simp only [Block.datum?, datum?, cells, getElem?_stretch, if_pos inside, marks i inside, width]
  · exact datum?_of_le (size ▸ outside)

theorem window_eq_ok {leaf : Ints} (intact : leaf.Intact) {offset length : Nat}
    (fits : offset + length ≤ leaf.count) :
    ∃ w, leaf.window offset length = .ok w ∧ w.Intact ∧
      (Block.ints w).Shows (.ints leaf) (List.range' offset length) := by
  obtain ⟨cells, run, items, size⟩ := leaf.cells.region_eq_ok fits
  obtain ⟨nulls, flagged, spans, marks⟩ := Nulls.window_eq_ok
    ((Nulls.Spans.reaches intact).mono fits)
  refine ⟨⟨leaf.width, cells, nulls⟩, ?_, ?_, shows_of_window rfl size items marks⟩
  · rw [window, run, ok_bind, flagged]
    rfl
  · rwa [Intact, count, size]

theorem copy_eq_ok {leaf : Ints} (intact : leaf.Intact) {cells flags offset length : Nat}
    (fits : offset + length ≤ leaf.count) :
    ∃ w, leaf.copy cells flags offset length = .ok w ∧ w.Intact ∧
      (Block.ints w).Shows (.ints leaf) (List.range' offset length) := by
  obtain ⟨values, run, items, size⟩ := leaf.cells.region_eq_ok fits
  obtain ⟨nulls, flagged, spans, marks⟩ := Nulls.copy_eq_ok flags
    ((Nulls.Spans.reaches intact).mono fits)
  refine ⟨⟨leaf.width, values.compact cells, nulls⟩, ?_, ?_,
    shows_of_window rfl (by simpa [count] using size) (by simpa using items) marks⟩
  · rw [copy, run, ok_bind, flagged]
    rfl
  · rwa [Intact, count, View.length_compact, size]

theorem gather_eq_ok {leaf : Ints} (intact : leaf.Intact) {cells flags : Nat}
    {positions : List Nat} (inside : ∀ position ∈ positions, position < leaf.count) :
    ∃ w, leaf.gather cells flags positions = .ok w ∧ w.Intact ∧
      (Block.ints w).Shows (.ints leaf) positions := by
  have read : ∀ position ∈ positions,
      leaf.cells.get position = .ok (leaf.cells.toList.getD position 0) := by
    intro position mem
    obtain ⟨n, found⟩ := leaf.cells.exists_getElem?_toList (inside position mem)
    rw [View.get_of_getElem? found, List.getD_eq_getElem?_getD, found, Option.getD_some]
  obtain ⟨nulls, flagged, spans, marks⟩ := Nulls.gather_eq_ok flags
    (Nulls.Spans.reaches intact) inside
  refine ⟨⟨leaf.width, .ofList cells (positions.map (leaf.cells.toList.getD · 0)), nulls⟩,
    ?_, ?_, ?_, fun i ↦ ?_, id⟩
  · rw [gather, mapM_eq_ok_map read, ok_bind, flagged]
    rfl
  · simpa [Intact, count] using spans
  · simp [Block.positionCount, count]
  · rcases listed : positions[i]? with - | position
    · simp [Block.datum?, datum?, listed]
    · obtain ⟨n, found, datum⟩ := datum?_of_lt (inside position (List.mem_of_getElem? listed))
      simp [Block.datum?, datum?, listed, found, marks i position listed]

/-- Integers with as many flags make an intact leaf. -/
theorem intact_of_ofFlags? {width : Width} {cells flags : Nat} {values : List Int}
    {nulls : Option (List Bool)} {leaf : Ints}
    (checked : ofFlags? width cells flags values nulls = .ok leaf) : leaf.Intact := by
  rw [ofFlags?, bind_eq_ok_iff] at checked
  obtain ⟨_, flagged, made⟩ := checked
  obtain rfl := Except.ok.inj made
  refine Nulls.spans_ofFlags? _ fun flags given ↦ ?_
  show flags.length = values.length
  simpa [given] using verifyArgument_eq_ok_iff.1 flagged

theorem intact_ofOptions (width : Width) (cells flags : Nat) (values : List (Option Int)) :
    (ofOptions width cells flags values).Intact := by
  have spans := Nulls.spans_ofFlags flags (values.map Option.isNone)
  rwa [List.length_map, ← List.length_map (·.getD 0)] at spans

end Ints

/-! ### Leaves of byte strings -/

namespace Slices

/-- The arrays of a leaf of byte strings agree. -/
structure Intact (leaf : Slices) : Prop where
  /-- There is an offset for the end of the last byte string. -/
  nonempty : 0 < leaf.offsets.length
  /-- No byte string ends before it starts. -/
  sorted : nondecreasing leaf.offsets.toList = true
  /-- Every offset stays within the bytes. -/
  within : ∀ offset ∈ leaf.offsets.toList, offset ≤ leaf.bytes.length
  /-- There are as many flags as positions, or none. -/
  flagged : leaf.nulls.Spans leaf.count
  /-- Every offset is one of 32 bits. -/
  narrow : ∀ offset ∈ leaf.offsets.toList, offset < 2 ^ 32

theorem datum?_of_lt {leaf : Slices} {position : Nat} (inside : position < leaf.count) :
    leaf.datum? position = some (.slice (leaf.nulls.marks position) (leaf.octets position)) :=
  if_pos inside

theorem datum?_of_le {leaf : Slices} {position : Nat} (outside : leaf.count ≤ position) :
    leaf.datum? position = none := if_neg (Nat.not_lt.2 outside)

namespace Intact

variable {leaf : Slices}

/-- Offsets may be checked one by one. -/
theorem of_starts (nonempty : 0 < leaf.offsets.length)
    (ordered : ∀ position < leaf.count, leaf.start position ≤ leaf.start (position + 1))
    (within : leaf.start leaf.count ≤ leaf.bytes.length) (flagged : leaf.nulls.Spans leaf.count)
    (narrow : leaf.start leaf.count < 2 ^ 32) : leaf.Intact := by
  have size : leaf.offsets.toList.length = leaf.count + 1 := by
    rw [View.length_toList, count]
    omega
  have sorted : nondecreasing leaf.offsets.toList = true :=
    nondecreasing_of_getD_le fun i inside ↦ ordered i (by omega)
  exact ⟨nonempty, sorted, fun _ mem ↦ (le_getD_of_mem sorted size mem).trans within, flagged,
    fun _ mem ↦ (le_getD_of_mem sorted size mem).trans_lt narrow⟩

variable (intact : leaf.Intact)

include intact

theorem length_offsets : leaf.offsets.length = leaf.count + 1 := by
  have := intact.nonempty
  rw [count]
  omega

theorem get_offset {position : Nat} (le : position ≤ leaf.count) :
    leaf.offsets.get position = .ok (leaf.start position) := by
  refine View.get_of_getElem? (getElem?_eq_getD ?_)
  rw [View.length_toList, intact.length_offsets]
  omega

theorem start_le_start {p q : Nat} (le : p ≤ q) (inside : q ≤ leaf.count) :
    leaf.start p ≤ leaf.start q := by
  refine getD_le_getD_of_nondecreasing intact.sorted le ?_
  rw [View.length_toList, intact.length_offsets]
  omega

theorem start_mem {position : Nat} (le : position ≤ leaf.count) :
    leaf.start position ∈ leaf.offsets.toList := by
  have inside : position < leaf.offsets.toList.length := by
    rw [View.length_toList, intact.length_offsets]
    omega
  exact List.mem_of_getElem? (getElem?_eq_getD inside)

theorem start_le_length {position : Nat} (le : position ≤ leaf.count) :
    leaf.start position ≤ leaf.bytes.length :=
  intact.within _ (intact.start_mem le)

theorem start_lt {position : Nat} (le : position ≤ leaf.count) : leaf.start position < 2 ^ 32 :=
  intact.narrow _ (intact.start_mem le)

/-- The byte strings fit their offsets. -/
theorem length_octets {position : Nat} (inside : position < leaf.count) :
    (leaf.octets position).length = leaf.start (position + 1) - leaf.start position := by
  have ordered := intact.start_le_start (Nat.le_add_right position 1) inside
  have within := intact.start_le_length (show position + 1 ≤ leaf.count from inside)
  refine length_stretch ?_
  rw [View.length_toList]
  omega

end Intact

section Readers

variable {leaf : Slices} (intact : leaf.Intact) (position : Nat)

include intact

theorem isNull_eq : leaf.isNull position = (leaf.datum? position).elim
    (.error (.error (.positionOutOfBounds position leaf.count))) fun datum ↦ .ok datum.isNull := by
  rw [isNull]
  rcases Nat.lt_or_ge position leaf.count with inside | outside
  · rw [checkPosition_of_lt inside, datum?_of_lt inside]
    exact Nulls.isNull_eq_ok intact.flagged.reaches inside
  · rw [checkPosition_of_le outside, datum?_of_le outside]
    rfl

theorem slice_eq : leaf.slice position = (leaf.datum? position).elim
    (.error (.error (.positionOutOfBounds position leaf.count)))
      fun datum ↦ liftM datum.readSlice := by
  rw [slice]
  rcases Nat.lt_or_ge position leaf.count with inside | outside
  · have ordered := intact.start_le_start (Nat.le_add_right position 1) inside
    have within := intact.start_le_length (show position + 1 ≤ leaf.count from inside)
    obtain ⟨w, run, items, -⟩ := leaf.bytes.region_eq_ok
      (show leaf.start position + (leaf.start (position + 1) - leaf.start position) ≤
        leaf.bytes.length by omega)
    rw [checkPosition_of_lt inside, datum?_of_lt inside, intact.get_offset (Nat.le_of_lt inside),
      intact.get_offset inside]
    show (do return (← leaf.bytes.region _ _).toList) = _
    rw [run, Option.elim_some, Datum.readSlice, octets, ← items]
    rfl
  · rw [checkPosition_of_le outside, datum?_of_le outside]
    rfl

theorem sliceLength_eq : leaf.sliceLength position = (leaf.datum? position).elim
    (.error (.error (.positionOutOfBounds position leaf.count)))
      fun datum ↦ liftM datum.sliceLength := by
  rw [sliceLength]
  rcases Nat.lt_or_ge position leaf.count with inside | outside
  · rw [checkPosition_of_lt inside, datum?_of_lt inside, intact.get_offset (Nat.le_of_lt inside),
      intact.get_offset inside, Option.elim_some, Datum.sliceLength, intact.length_octets inside]
    rfl
  · rw [checkPosition_of_le outside, datum?_of_le outside]
    rfl

theorem value_eq : leaf.value position = (leaf.datum? position).elim
    (.error (.error (.positionOutOfBounds position leaf.count))) fun datum ↦ .ok datum.value := by
  rw [value, isNull_eq intact, slice_eq intact]
  rcases Nat.lt_or_ge position leaf.count with inside | outside
  · rw [datum?_of_lt inside]
    rcases leaf.nulls.marks position with - | - <;> rfl
  · rw [datum?_of_le outside]
    rfl

theorem dataSize_eq : leaf.dataSize position = (leaf.datum? position).elim
    (.error (.error (.positionOutOfBounds position leaf.count)))
      fun datum ↦ .ok datum.dataSize := by
  rw [dataSize, isNull_eq intact, sliceLength_eq intact]
  rcases Nat.lt_or_ge position leaf.count with inside | outside
  · rw [datum?_of_lt inside]
    rcases leaf.nulls.marks position with - | - <;> rfl
  · rw [datum?_of_le outside]
    rfl

/-- The data of one position are a word. -/
theorem dataSize_lt {position : Nat} {datum : Datum} (found : leaf.datum? position = some datum) :
    datum.dataSize < UInt64.size := by
  obtain ⟨inside, same⟩ := Option.ite_none_right_eq_some.1 found
  obtain rfl := Option.some.inj same
  rcases leaf.nulls.marks position with - | -
  · have narrow := intact.start_lt (show position + 1 ≤ leaf.count from inside)
    refine Nat.lt_trans ?_ (show 2 ^ 32 < UInt64.size by decide)
    show (leaf.octets position).length < 2 ^ 32
    rw [intact.length_octets inside]
    omega
  · exact (by decide : 0 < UInt64.size)

end Readers

/-- The byte strings use every byte. -/
def Filled (leaf : Slices) : Prop :=
  leaf.start 0 = 0 ∧ leaf.start leaf.count = leaf.bytes.length

/-- A leaf with the byte strings and flags of a window of another shows the window. -/
theorem shows_of_window {leaf w : Slices} {offset length : Nat} (size : w.count = length)
    (fits : offset + length ≤ leaf.count)
    (octets : ∀ i < length, w.octets i = leaf.octets (offset + i))
    (marks : ∀ i < length, w.nulls.marks i = leaf.nulls.marks (offset + i)) :
    (Block.slices w).Shows (.slices leaf) (List.range' offset length) := by
  refine .of_window size (fun i inside ↦ ?_) (fun i outside ↦ ?_) id
  · rw [Block.datum?, Block.datum?, datum?_of_lt (size ▸ inside), datum?_of_lt (by omega),
      octets i inside, marks i inside]
  · exact datum?_of_le (size ▸ outside)

theorem window_eq_ok {leaf : Slices} (intact : leaf.Intact) {offset length : Nat}
    (fits : offset + length ≤ leaf.count) :
    ∃ w, leaf.window offset length = .ok w ∧ w.Intact ∧
      (Block.slices w).Shows (.slices leaf) (List.range' offset length) := by
  obtain ⟨offsets, run, items, size⟩ := leaf.offsets.region_eq_ok
    (show offset + (length + 1) ≤ leaf.offsets.length by rw [intact.length_offsets]; omega)
  obtain ⟨nulls, flagged, spans, marks⟩ := Nulls.window_eq_ok
    (intact.flagged.reaches.mono fits)
  let w : Slices := ⟨offsets, leaf.bytes, nulls⟩
  have count : w.count = length := by rw [Slices.count, size, Nat.add_sub_cancel]
  have start : ∀ i ≤ length, w.start i = leaf.start (offset + i) := by
    intro i le
    simp only [Slices.start, w, items, List.getD_eq_getElem?_getD, getElem?_stretch]
    rw [if_pos (by omega)]
  refine ⟨w, ?_, ?_, shows_of_window count fits (fun i inside ↦ ?_) marks⟩
  · rw [window, run, ok_bind, flagged]
    rfl
  · refine ⟨size ▸ Nat.succ_pos _, ?_, fun offset mem ↦ ?_, count ▸ spans, fun offset mem ↦ ?_⟩
    · rw [nondecreasing_iff_pairwise, items]
      exact (nondecreasing_iff_pairwise.1 intact.sorted).sublist
        ((List.take_sublist _ _).trans (List.drop_sublist _ _))
    · exact intact.within offset (mem_of_mem_stretch (items ▸ mem))
    · exact intact.narrow offset (mem_of_mem_stretch (items ▸ mem))
  · rw [octets, octets, start i (by omega), start (i + 1) (by omega), Nat.add_assoc]

/-- The copied offsets and bytes of a window show the window. -/
theorem shows_of_rebased {leaf w : Slices} (intact : leaf.Intact) {offset length : Nat}
    (fits : offset + length ≤ leaf.count) (count : w.count = length)
    (starts : ∀ i ≤ length, w.start i = leaf.start (offset + i) - leaf.start offset)
    (bytes : w.bytes.toList = stretch leaf.bytes.toList (leaf.start offset)
      (leaf.start (offset + length) - leaf.start offset))
    (marks : ∀ i < length, w.nulls.marks i = leaf.nulls.marks (offset + i)) :
    (Block.slices w).Shows (.slices leaf) (List.range' offset length) := by
  refine shows_of_window count fits (fun i inside ↦ ?_) marks
  have first := intact.start_le_start (p := offset) (q := offset + i) (by omega) (by omega)
  have own := intact.start_le_start (p := offset + i) (q := offset + i + 1) (by omega) (by omega)
  have last := intact.start_le_start (p := offset + i + 1) (q := offset + length) (by omega)
    (by omega)
  -- Both byte strings are stretches of the old bytes, the copied one a stretch of a stretch.
  rw [octets, octets, starts i (by omega), starts (i + 1) (by omega), bytes, ← Nat.add_assoc,
    stretch_stretch (by omega)]
  congr 1 <;> omega

theorem copy_eq_ok {leaf : Slices} (intact : leaf.Intact) {storages : Storages}
    {offset length : Nat} (fits : offset + length ≤ leaf.count) :
    ∃ w, leaf.copy storages offset length = .ok w ∧ w.Intact ∧ w.Filled ∧
      (Block.slices w).Shows (.slices leaf) (List.range' offset length) := by
  obtain ⟨nulls, flagged, spans, marks⟩ := Nulls.copy_eq_ok storages.flags
    (intact.flagged.reaches.mono fits)
  rw [copy, intact.get_offset (by omega), ok_bind, intact.get_offset fits, ok_bind, flagged,
    ok_bind, intact.get_offset (Nat.zero_le _), ok_bind]
  split
  next whole =>
    -- A leaf that owns all of its arrays is its own copy.
    simp only [Bool.and_eq_true, beq_iff_eq] at whole
    obtain ⟨⟨⟨⟨-, first⟩, all⟩, last⟩, -⟩ := whole
    obtain rfl : offset = 0 := by omega
    refine ⟨leaf, rfl, intact, ⟨first, ?_⟩,
      shows_of_window all.symm fits (fun i _ ↦ ?_) fun i _ ↦ ?_⟩
    · rw [← last, Nat.zero_add, all]
    · rw [Nat.zero_add]
    · rw [Nat.zero_add]
  next =>
    have ordered := intact.start_le_start (Nat.le_add_right offset length) fits
    have within := intact.start_le_length fits
    obtain ⟨rebased, moved, size, starts⟩ := rebase?_eq_some intact.sorted
      (show offset + length < leaf.offsets.toList.length by
        rw [View.length_toList, intact.length_offsets]
        omega)
    obtain ⟨bytes, run, items, room⟩ := leaf.bytes.region_eq_ok
      (show leaf.start offset + (leaf.start (offset + length) - leaf.start offset) ≤
        leaf.bytes.length by omega)
    let w : Slices := ⟨.ofList storages.offsets rebased.toList, bytes.compact storages.bytes, nulls⟩
    have count : w.count = length := by simp [w, Slices.count, size]
    have start : ∀ i ≤ length, w.start i = leaf.start (offset + i) - leaf.start offset := by
      intro i le
      simpa [w, Slices.start] using starts i le
    have bytes : w.bytes.toList = bytes.toList := View.toList_compact _ _
    have last : w.start w.count = w.bytes.length := by
      rw [count, start length (Nat.le_refl _), ← View.length_toList, bytes, View.length_toList,
        room]
    refine ⟨w, ?_, ?_, ⟨(start 0 (Nat.zero_le _)).trans (Nat.sub_self _), last⟩,
      shows_of_rebased intact fits count start (bytes.trans items) marks⟩
    · rw [moved]
      show (do return Slices.mk _ ((← leaf.bytes.region _ _).compact _) _) = _
      rw [run]
      rfl
    · refine .of_starts (by simp [w]) (fun i inside ↦ ?_) ?_ (count ▸ spans) ?_
      · have next := intact.start_le_start (p := offset + i) (q := offset + (i + 1)) (by omega)
          (by omega)
        rw [start i (by omega), start (i + 1) (by omega)]
        omega
      · exact last.le
      · have narrow := intact.start_lt fits
        rw [count, start length (Nat.le_refl _)]
        omega

/-! Leaves laid out anew: the pieces back to back, cut where the lengths say. -/

section Pieces

variable {leaf : Slices} {pieces : List (List UInt8)}
  (offsets : leaf.offsets.toList =
    (List.range (pieces.length + 1)).map fun i ↦ ((pieces.map List.length).take i).sum)
  (bytes : leaf.bytes.toList = pieces.flatten)

include offsets

theorem count_of_pieces : leaf.count = pieces.length := by
  have size := congrArg List.length offsets
  rw [View.length_toList] at size
  simp [count, size]

theorem start_of_pieces {i : Nat} (le : i ≤ pieces.length) :
    leaf.start i = ((pieces.map List.length).take i).sum := by
  have sums := getD_sums (show i ≤ (pieces.map List.length).length by simpa using le)
  rw [List.length_map] at sums
  rw [start, offsets, sums]

theorem start_succ_of_pieces {i : Nat} {piece : List UInt8} (found : pieces[i]? = some piece) :
    leaf.start (i + 1) = leaf.start i + piece.length := by
  obtain ⟨inside, rfl⟩ := List.getElem?_eq_some_iff.1 found
  rw [start_of_pieces offsets inside, start_of_pieces offsets (Nat.le_of_lt inside),
    List.sum_take_succ _ i (by simpa), List.getElem_map]

theorem last_of_pieces : leaf.start leaf.count = (pieces.map List.length).sum := by
  have count := count_of_pieces offsets
  rw [start_of_pieces offsets count.le, count, List.take_of_length_le (by simp)]

include bytes

theorem octets_of_pieces {i : Nat} {piece : List UInt8} (found : pieces[i]? = some piece) :
    leaf.octets i = piece := by
  have inside : i < pieces.length := (List.getElem?_eq_some_iff.1 found).1
  rw [octets, start_succ_of_pieces offsets found, Nat.add_sub_cancel_left, bytes,
    start_of_pieces offsets (Nat.le_of_lt inside), stretch_flatten found]

theorem filled_of_pieces : leaf.Filled := by
  refine ⟨start_of_pieces offsets (Nat.zero_le _), ?_⟩
  rw [last_of_pieces offsets, ← View.length_toList, bytes, List.length_flatten]

theorem intact_of_pieces (room : (pieces.map List.length).sum < 2 ^ 32)
    (flagged : leaf.nulls.Spans pieces.length) : leaf.Intact := by
  have count := count_of_pieces offsets
  refine .of_starts ?_ (fun i inside ↦ ?_) (filled_of_pieces offsets bytes).2.le
    (count ▸ flagged) ?_
  · rw [← View.length_toList, offsets, List.length_map, List.length_range]
    exact Nat.succ_pos _
  · rw [start_succ_of_pieces offsets (List.getElem?_eq_getElem (count ▸ inside))]
    exact Nat.le_add_right _ _
  · rw [last_of_pieces offsets]
    exact room

end Pieces

/-! What is laid out anew must fit in an offset. -/

/-- How many bytes the byte strings at some positions have together. -/
def total (leaf : Slices) (positions : List Nat) : Nat :=
  ((positions.map leaf.octets).map List.length).sum

section Gather

variable {leaf : Slices} (intact : leaf.Intact) {storages : Storages} {positions : List Nat}
  (inside : ∀ position ∈ positions, position < leaf.count)

include intact inside

theorem mapM_slice_eq_ok :
    positions.mapM leaf.slice = .ok (positions.map leaf.octets) := by
  refine mapM_eq_ok_map fun position mem ↦ ?_
  rw [slice_eq intact, datum?_of_lt (inside position mem)]
  rfl

theorem gather_eq_ok (room : leaf.total positions < 2 ^ 32) :
    ∃ w, leaf.gather storages positions = .ok w ∧ w.Intact ∧ w.Filled ∧
      (Block.slices w).Shows (.slices leaf) positions := by
  obtain ⟨nulls, flagged, spans, marks⟩ := Nulls.gather_eq_ok storages.flags
    intact.flagged.reaches inside
  let pieces := positions.map leaf.octets
  obtain ⟨laid, collected, sums⟩ :=
    ofLengths_eq_ok (show (pieces.map List.length).sum < 2 ^ 32 from room)
  let w : Slices := ⟨.ofList storages.offsets laid.toList, .ofList storages.bytes pieces.flatten,
    nulls⟩
  have offsets : w.offsets.toList = (List.range (pieces.length + 1)).map
      fun i ↦ ((pieces.map List.length).take i).sum := by
    rw [← List.length_map (f := List.length), ← sums]
    exact View.toList_ofList _ _
  have bytes : w.bytes.toList = pieces.flatten := View.toList_ofList _ _
  have count : w.count = positions.length := by
    rw [count_of_pieces offsets, List.length_map]
  refine ⟨w, ?_, intact_of_pieces offsets bytes room (by simpa [pieces] using spans),
    filled_of_pieces offsets bytes, count, fun i ↦ ?_, id⟩
  · rw [gather, mapM_slice_eq_ok intact inside, ok_bind, collected, ok_bind, flagged]
    rfl
  · rcases listed : positions[i]? with - | position
    · rw [List.getElem?_eq_none_iff, ← count] at listed
      exact datum?_of_le listed
    · have mem := List.mem_of_getElem? listed
      have room : i < w.count := count ▸ (List.getElem?_eq_some_iff.1 listed).1
      have octets : w.octets i = leaf.octets position :=
        octets_of_pieces offsets bytes (by simp [pieces, listed])
      have flag : w.nulls.marks i = leaf.nulls.marks position := marks i position listed
      simp [Block.datum?, datum?_of_lt room, datum?_of_lt (inside position mem), octets, flag]

/-- Byte strings that do not fit together are not gathered. -/
theorem gather_eq_error (past : 2 ^ 32 ≤ leaf.total positions) :
    leaf.gather storages positions = .error .panic := by
  rw [gather, mapM_slice_eq_ok intact inside, ok_bind, ofLengths_eq_error ?_ past]
  · rfl
  · intro length mem
    obtain ⟨_, listed, rfl⟩ := List.mem_map.1 mem
    obtain ⟨position, chosen, rfl⟩ := List.mem_map.1 listed
    have narrow := intact.start_lt (show position + 1 ≤ leaf.count from inside position chosen)
    rw [intact.length_octets (inside position chosen)]
    omega

end Gather

section Options

variable {storages : Storages} {values : List (Option (List UInt8))}

/-- **Byte strings laid out one after the other make an intact leaf** if they fit together. It holds
the byte strings, and no bytes under a null. -/
theorem ofSlices_eq_ok (room : ((values.map (·.getD [])).map List.length).sum < 2 ^ 32) :
    ∃ leaf, ofSlices storages values = .ok leaf ∧ leaf.Intact ∧ leaf.count = values.length ∧
      ∀ position, leaf.datum? position =
        values[position]?.map fun value ↦ .slice value.isNone (value.getD []) := by
  let pieces := values.map (·.getD [])
  obtain ⟨laid, collected, sums⟩ :=
    ofLengths_eq_ok (show (pieces.map List.length).sum < 2 ^ 32 from room)
  let leaf : Slices := ⟨.ofList storages.offsets laid.toList,
    .ofList storages.bytes pieces.flatten, .ofFlags storages.flags (values.map Option.isNone)⟩
  have offsets : leaf.offsets.toList = (List.range (pieces.length + 1)).map
      fun i ↦ ((pieces.map List.length).take i).sum := by
    rw [← List.length_map (f := List.length), ← sums]
    exact View.toList_ofList _ _
  have bytes : leaf.bytes.toList = pieces.flatten := View.toList_ofList _ _
  have count : leaf.count = values.length := by rw [count_of_pieces offsets, List.length_map]
  refine ⟨leaf, ?_, intact_of_pieces offsets bytes room ?_, count, fun position ↦ ?_⟩
  · simp only [ofSlices]
    rw [collected]
    rfl
  · rw [List.length_map, ← List.length_map (f := Option.isNone)]
    exact Nulls.spans_ofFlags _ _
  · rcases listed : values[position]? with - | value
    · exact datum?_of_le (count ▸ List.getElem?_eq_none_iff.1 listed)
    · have inside : position < leaf.count := count ▸ (List.getElem?_eq_some_iff.1 listed).1
      have flag : leaf.nulls.marks position = value.isNone := by
        refine (Nulls.marks_ofFlags _ _ _).trans ?_
        rw [List.getD_eq_getElem?_getD, List.getElem?_map, listed]
        rfl
      have octets : leaf.octets position = value.getD [] :=
        octets_of_pieces offsets bytes (by rw [List.getElem?_map, listed, Option.map_some])
      rw [datum?_of_lt inside, flag, octets, Option.map_some]

/-- Byte strings that do not fit together are not laid out. -/
theorem ofSlices_eq_error (narrow : ∀ octets, some octets ∈ values → octets.length < 2 ^ 32)
    (past : 2 ^ 32 ≤ ((values.map (·.getD [])).map List.length).sum) :
    ofSlices storages values = .error .panic := by
  simp only [ofSlices]
  rw [ofLengths_eq_error ?_ past]
  · rfl
  · intro length mem
    obtain ⟨_, listed, rfl⟩ := List.mem_map.1 mem
    obtain ⟨- | octets, given, rfl⟩ := List.mem_map.1 listed
    · exact Nat.two_pow_pos 32
    · exact narrow octets given

end Options

/-- A leaf that is made keeps what it is handed. -/
theorem eq_of_ofBytes? {storages : Storages} {bytes : List UInt8} {offsets : List Nat}
    {nulls : Option (List Bool)} {leaf : Slices}
    (made : ofBytes? storages bytes offsets nulls = .ok leaf) :
    leaf = ⟨.ofList storages.offsets offsets, .ofList storages.bytes bytes,
      .ofFlags? storages.flags nulls⟩ := by
  obtain ⟨_, -, made⟩ := bind_eq_ok_iff.1 made
  obtain ⟨_, -, made⟩ := bind_eq_ok_iff.1 made
  obtain ⟨_, -, made⟩ := bind_eq_ok_iff.1 made
  exact (Except.ok.inj made).symm

/-- Bytes and offsets that pass the checks make an intact leaf. -/
theorem intact_of_ofBytes? {storages : Storages} {bytes : List UInt8} {offsets : List Nat}
    {nulls : Option (List Bool)} {leaf : Slices}
    (checked : ofBytes? storages bytes offsets nulls = .ok leaf)
    (narrow : ∀ offset ∈ offsets, offset < 2 ^ 32) : leaf.Intact := by
  rw [ofBytes?, bind_eq_ok_iff] at checked
  obtain ⟨_, -, checked⟩ := checked
  rw [bind_eq_ok_iff] at checked
  obtain ⟨_, cut, checked⟩ := checked
  rw [bind_eq_ok_iff] at checked
  obtain ⟨_, flagged, made⟩ := checked
  obtain rfl := Except.ok.inj made
  obtain ⟨size, sorted, within⟩ := checkOffsets_eq_ok_iff.1 cut
  refine .of_starts ?_ (fun i inside ↦ ?_) ?_ ?_ ?_
  · show 0 < offsets.length
    omega
  · rw [start, start, View.toList_ofList]
    exact getD_le_getD_of_nondecreasing sorted (Nat.le_succ i) (Nat.add_lt_of_lt_sub inside)
  · rwa [start, View.toList_ofList]
  · refine Nulls.spans_ofFlags? _ fun flags given ↦ ?_
    show flags.length = offsets.length - 1
    simpa [given] using verifyArgument_eq_ok_iff.1 flagged
  · have stored : offsets[offsets.length - 1]? = some (offsets.getD (offsets.length - 1) 0) :=
      getElem?_eq_getD (by omega)
    rw [start, View.toList_ofList]
    exact narrow _ (List.mem_of_getElem? stored)

end Slices

end BatchColumn
