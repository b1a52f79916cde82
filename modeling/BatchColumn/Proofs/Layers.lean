import BatchColumn.Block.Gather
import BatchColumn.Proofs.Leaves

/-!
# Layers of lists, keys and windows

What the layers of a block make of the block below, as far as it can be told of the layer alone. A
layer of lists is **intact** over a number of elements if its offsets never decrease and stay within
them, its flags reach as far as its lists, and its null lists are empty; keys are intact over a
number of entries if each is the position of one.

The main facts say when one layer **shows** another. Lists are compared by the data of their members
(`Lists.shows_of_members`), which windows share and which copied or gathered elements show from
other positions (`filterMap_range'_listed`); keys are compared by their ids
(`Keys.shows_of_ids`).
-/

namespace BatchColumn

/-! ### Data along positions -/

/-- No position holds anything at or past the count. -/
theorem Block.datum?_of_le : ∀ {b : Block} {position : Nat}, b.positionCount ≤ position →
    b.datum? position = none
  | .ints _, _, outside => Ints.datum?_of_le outside
  | .slices _, _, outside => Slices.datum?_of_le outside
  | .array _ _, _, outside => if_neg (Nat.not_lt.2 outside)
  | .dictionary keys _, position, outside => by
    have beyond : keys.toList[position]? = none := by
      refine List.getElem?_eq_none (Nat.le_trans ?_ outside)
      exact List.length_take_le _ _
    rw [datum?, beyond, Option.bind_none]
  | .lazy _ _, _, outside => if_neg (Nat.not_lt.2 outside)

/-- The data along two runs of positions agree if they agree one by one. -/
theorem filterMap_range'_congr {f g : Nat → Option α} {a b length : Nat}
    (agree : ∀ j < length, f (a + j) = g (b + j)) :
    (List.range' a length).filterMap f = (List.range' b length).filterMap g := by
  rw [List.range'_eq_map_range, List.range'_eq_map_range, List.filterMap_map, List.filterMap_map]
  exact List.filterMap_congr fun j mem ↦ agree j (List.mem_range.1 mem)

/-- The data along a run of listed positions. -/
theorem filterMap_range'_listed {α β : Type} (g : β → Option α) (listed : List β)
    (start length : Nat) :
    (List.range' start length).filterMap (fun i ↦ listed[i]?.bind g) =
      (stretch listed start length).filterMap g := by
  induction length generalizing start with
  | zero => simp [stretch]
  | succ length ih =>
    rw [List.range'_succ, List.filterMap_cons, ih]
    rcases found : listed[start]? with - | position
    · have short : listed.length ≤ start := List.getElem?_eq_none_iff.1 found
      rw [stretch_of_length_le short, stretch_of_length_le (Nat.le_succ_of_le short)]
      rfl
    · rw [stretch_succ found, List.filterMap_cons, Option.bind_some]

/-! ### Lists -/

namespace Lists

/-- The layer cuts `size` elements into lists. -/
structure Intact (lists : Lists) (size : Nat) : Prop where
  /-- No list ends before it starts. -/
  sorted : nondecreasing lists.offsets.toList = true
  /-- Every offset stays within the elements. -/
  within : ∀ offset ∈ lists.offsets.toList, offset ≤ size
  /-- There is a flag for every list, or none. -/
  flagged : lists.nulls.Reaches (lists.base + lists.count)
  /-- A null list is empty. -/
  hollow : ∀ position < lists.count, lists.nulls.marks (lists.base + position) = true →
    lists.start position = lists.start (position + 1)
  /-- Every offset is one of 32 bits. -/
  narrow : ∀ offset ∈ lists.offsets.toList, offset < 2 ^ 32

/-- Which identities the layer has does not matter. -/
theorem Intact.renamed {lists : Lists} {size : Nat} (intact : lists.Intact size)
    (handle memory : Nat) : { lists with handle := handle, memory := memory }.Intact size :=
  ⟨intact.sorted, intact.within, intact.flagged, intact.hollow, intact.narrow⟩

theorem datum?_of_lt {lists : Lists} {element? : Nat → Option Datum} {position : Nat}
    (inside : position < lists.count) : lists.datum? element? position =
      some (.list (lists.nulls.marks (lists.base + position))
        ((lists.members position).filterMap element?)) := if_pos inside

theorem mem_members {lists : Lists} {position i : Nat} : i ∈ lists.members position ↔
    lists.start position ≤ i ∧ i < lists.start (position + 1) := by
  rw [members, List.mem_range'_1]
  omega

theorem item_offsets (lists : Lists) {i : Nat} (inside : lists.base + i < lists.offsets.length) :
    lists.offsets.item (lists.base + i) inside = lists.start i := by
  rw [start, List.getD_eq_getElem?_getD, View.getElem?_toList_item _ inside, Option.getD_some]

theorem cut_eq_ok {lists : Lists} {offset length : Nat} (fits : offset + length ≤ lists.count) :
    lists.cut offset length = .ok (lists.start offset, lists.start (offset + length)) := by
  simp only [cut, dif_pos fits, Nat.add_assoc, item_offsets]

theorem of_cut_eq_ok {lists : Lists} {offset length : Nat} {bounds : Nat × Nat}
    (run : lists.cut offset length = .ok bounds) : offset + length ≤ lists.count ∧
      bounds = (lists.start offset, lists.start (offset + length)) := by
  by_cases fits : offset + length ≤ lists.count
  · exact ⟨fits, Except.ok.inj (run.symm.trans (cut_eq_ok fits))⟩
  · rw [cut, dif_neg fits] at run
    cases run

theorem span_eq_ok {lists : Lists} {position : Nat} (inside : position < lists.count) :
    lists.span position = .ok (lists.start position, lists.start (position + 1)) := by
  simp only [span, dif_pos inside, Nat.add_assoc, item_offsets]

theorem of_span_eq_ok {lists : Lists} {position : Nat} {bounds : Nat × Nat}
    (run : lists.span position = .ok bounds) : position < lists.count ∧
      bounds = (lists.start position, lists.start (position + 1)) := by
  by_cases inside : position < lists.count
  · exact ⟨inside, Except.ok.inj (run.symm.trans (span_eq_ok inside))⟩
  · rw [span, dif_neg inside] at run
    cases run

theorem isNull_eq_error {lists : Lists} {position : Nat} (outside : lists.count ≤ position) :
    lists.isNull position = .error (.error (.positionOutOfBounds position lists.count)) := by
  rw [isNull, checkPosition_of_le outside]
  rfl

theorem start_mem {lists : Lists} {position : Nat} (le : position ≤ lists.count) :
    lists.start position ∈ lists.offsets.toList := by
  have fits := lists.fits
  refine List.mem_of_getElem? (getElem?_eq_getD ?_)
  rw [View.length_toList]
  omega

namespace Intact

variable {lists : Lists} {size : Nat} (intact : lists.Intact size)

include intact

theorem start_le_start {p q : Nat} (le : p ≤ q) (inside : q ≤ lists.count) :
    lists.start p ≤ lists.start q := by
  have fits := lists.fits
  refine getD_le_getD_of_nondecreasing intact.sorted (by omega) ?_
  rw [View.length_toList]
  omega

theorem start_le_size {position : Nat} (le : position ≤ lists.count) :
    lists.start position ≤ size :=
  intact.within _ (start_mem le)

theorem start_lt {position : Nat} (le : position ≤ lists.count) :
    lists.start position < 2 ^ 32 :=
  intact.narrow _ (start_mem le)

/-- The elements of consecutive lists are elements. -/
theorem span_le_size {offset length : Nat} (fits : offset + length ≤ lists.count) :
    lists.start offset + (lists.start (offset + length) - lists.start offset) ≤ size := by
  have sorted := intact.start_le_start (Nat.le_add_right offset length) fits
  have room := intact.start_le_size fits
  omega

theorem lt_of_mem_members {position i : Nat} (inside : position < lists.count)
    (mem : i ∈ lists.members position) : i < size :=
  Nat.lt_of_lt_of_le (mem_members.1 mem).2 (intact.start_le_size inside)

/-- The members of lists lie before the end of the last list. -/
theorem lt_start_of_mem_flatten_members {positions : List Nat}
    (inside : ∀ position ∈ positions, position < lists.count) {i : Nat}
    (mem : i ∈ (positions.map lists.members).flatten) : i < lists.start lists.count := by
  obtain ⟨list, listed, among⟩ := List.mem_flatten.1 mem
  obtain ⟨position, chosen, rfl⟩ := List.mem_map.1 listed
  exact (mem_members.1 among).2.trans_le
    (intact.start_le_start (inside position chosen) (Nat.le_refl _))

theorem lt_of_mem_flatten_members {positions : List Nat}
    (inside : ∀ position ∈ positions, position < lists.count) {i : Nat}
    (mem : i ∈ (positions.map lists.members).flatten) : i < size :=
  Nat.lt_of_lt_of_le (intact.lt_start_of_mem_flatten_members inside mem)
    (intact.start_le_size (Nat.le_refl _))

theorem isNull_eq_ok {position : Nat} (inside : position < lists.count) :
    lists.isNull position = .ok (lists.nulls.marks (lists.base + position)) := by
  rw [isNull, checkPosition_of_lt inside]
  exact Nulls.isNull_eq_ok intact.flagged (Nat.add_lt_add_left inside _)

theorem isNull_eq (element? : Nat → Option Datum) (position : Nat) :
    lists.isNull position = (lists.datum? element? position).elim
      (.error (.error (.positionOutOfBounds position lists.count)))
        fun datum ↦ .ok datum.isNull := by
  rcases Nat.lt_or_ge position lists.count with inside | outside
  · rw [intact.isNull_eq_ok inside, datum?_of_lt inside]
    rfl
  · rw [isNull_eq_error outside, datum?, if_neg (Nat.not_lt.2 outside)]
    rfl

/-- A null list has no members. -/
theorem members_of_marks {position : Nat} (inside : position < lists.count)
    (null : lists.nulls.marks (lists.base + position) = true) : lists.members position = [] := by
  rw [members, intact.hollow position inside null, Nat.sub_self, List.range'_zero]

/-- The members of consecutive lists are consecutive elements. -/
theorem flatMap_members {offset length : Nat} (fits : offset + length ≤ lists.count) :
    (List.range' offset length).flatMap lists.members =
      List.range' (lists.start offset) (lists.start (offset + length) - lists.start offset) := by
  induction length generalizing offset with
  | zero => simp
  | succ length ih =>
    have first := intact.start_le_start (Nat.le_add_right offset 1) (by omega)
    have rest := intact.start_le_start (Nat.le_add_right (offset + 1) length) (by omega)
    have next : offset + (length + 1) = offset + 1 + length := by omega
    rw [List.range'_succ, List.flatMap_cons, ih (by omega), members, next]
    -- The other lists start where the first one ends.
    rw [show lists.start (offset + 1 + length) - lists.start offset =
      lists.start (offset + 1) - lists.start offset +
        (lists.start (offset + 1 + length) - lists.start (offset + 1)) by omega,
      ← List.range'_append_1, Nat.add_sub_cancel' first]

/-- Every span of elements lies within the elements. -/
theorem span_within {span : Nat × Nat} (mem : span ∈ lists.spans) :
    span.1 ≤ span.2 ∧ span.2 ≤ size := by
  have pairs : lists.bounds.Pairwise (· ≤ ·) := (nondecreasing_iff_pairwise.1 intact.sorted).sublist
    ((List.take_sublist _ _).trans (List.drop_sublist _ _))
  obtain ⟨i, inside, found⟩ := List.getElem_of_mem mem
  have room : i + 1 < lists.bounds.length := by
    simp only [spans, List.length_zip, List.length_tail] at inside
    omega
  obtain rfl : (lists.bounds[i], lists.bounds[i + 1]) = span := by
    rw [← found]
    simp [spans]
  refine ⟨List.pairwise_iff_getElem.1 pairs i (i + 1) _ room (Nat.lt_succ_self i), ?_⟩
  exact intact.within _ (mem_of_mem_stretch (List.getElem_mem room))

end Intact

/-- **Lists show other lists if their members do**: position by position, the flags and the data of
the members agree. -/
theorem shows_of_members {lists other : Lists} {elements others : Block} {positions : List Nat}
    (count : other.count = positions.length)
    (inside : ∀ position ∈ positions, position < lists.count)
    (marks : ∀ i position, positions[i]? = some position →
      other.nulls.marks (other.base + i) = lists.nulls.marks (lists.base + position))
    (items : ∀ i position, positions[i]? = some position →
      (other.members i).filterMap others.datum? =
        (lists.members position).filterMap elements.datum?)
    (loadable : elements.Loadable → others.Loadable) :
    (Block.array other others).Shows (.array lists elements) positions where
  count := count
  datum i := by
    rcases listed : positions[i]? with - | position
    · refine Block.datum?_of_le ?_
      rw [List.getElem?_eq_none_iff, ← count] at listed
      exact listed
    · have room : i < other.count := count ▸ (List.getElem?_eq_some_iff.1 listed).1
      rw [Option.bind_some, Block.datum?, Block.datum?, datum?_of_lt room,
        datum?_of_lt (inside position (List.mem_of_getElem? listed)), marks i position listed,
        items i position listed]
  loadable := loadable

/-! A window of lists shares offsets, flags and elements. -/

theorem window_eq_ok {lists : Lists} {size : Nat} (intact : lists.Intact size) (memory : Nat)
    {offset length : Nat} (fits : offset + length ≤ lists.count) (elements : Block) :
    ∃ w, lists.window memory offset length = .ok w ∧ w.memory = memory ∧ w.Intact size ∧
      (Block.array w elements).Shows (.array lists elements) (List.range' offset length) := by
  have room := lists.fits
  let w : Lists := { lists with
    base := lists.base + offset
    count := length
    memory := memory
    fits := by omega }
  have start : ∀ i, w.start i = lists.start (offset + i) := fun i ↦ by
    rw [Lists.start, Lists.start, Nat.add_assoc]
  refine ⟨w, dif_pos fits, rfl, ⟨intact.sorted, intact.within, ?_, ?_, intact.narrow⟩, ?_⟩
  · exact intact.flagged.mono (show lists.base + offset + length ≤ _ by omega)
  · intro i inside null
    have own : i < length := inside
    rw [start, start]
    refine intact.hollow (offset + i) (by omega) ?_
    rwa [← Nat.add_assoc]
  · refine shows_of_members (List.length_range').symm (fun p mem ↦ ?_) (fun i p listed ↦ ?_)
      (fun i p listed ↦ ?_) id
    · rw [List.mem_range'_1] at mem
      omega
    all_goals
      obtain ⟨inside, rfl⟩ := List.getElem?_eq_some_iff.1 listed
      rw [List.getElem_range', Nat.one_mul]
    · rw [← Nat.add_assoc]
    · rw [members, members, start, start, Nat.add_assoc]

/-! Lists laid out anew start at position zero of their own offsets and flags. -/

theorem start_ofEnds (storage handle memory first : Nat) (ends : List Nat) (nulls : Nulls)
    (i : Nat) :
    (ofEnds storage handle memory first ends nulls).start i = (first :: ends).getD i 0 := by
  rw [start, ofEnds, View.toList_ofList, Nat.zero_add]

/-- Lists that are all of their offsets may be checked one by one. -/
theorem Intact.of_starts {lists : Lists} {size : Nat} (base : lists.base = 0)
    (whole : lists.offsets.length = lists.count + 1)
    (ordered : ∀ i < lists.count, lists.start i ≤ lists.start (i + 1))
    (within : lists.start lists.count ≤ size) (flagged : lists.nulls.Spans lists.count)
    (hollow : ∀ i < lists.count, lists.nulls.marks i = true → lists.start i = lists.start (i + 1))
    (narrow : lists.start lists.count < 2 ^ 32) : lists.Intact size := by
  have read : ∀ i, lists.start i = lists.offsets.toList.getD i 0 := fun i ↦ by
    rw [start, base, Nat.zero_add]
  have length : lists.offsets.toList.length = lists.count + 1 := by rw [View.length_toList, whole]
  have sorted : nondecreasing lists.offsets.toList = true :=
    nondecreasing_of_getD_le fun i inside ↦ read i ▸ read (i + 1) ▸ ordered i (by omega)
  refine ⟨sorted, fun offset mem ↦ ?_, ?_, fun i inside null ↦ ?_, fun offset mem ↦ ?_⟩
  · exact (le_getD_of_mem sorted length mem).trans (read lists.count ▸ within)
  · exact flagged.reaches.mono (by rw [base, Nat.zero_add])
  · rw [base, Nat.zero_add] at null
    exact hollow i inside null
  · exact (le_getD_of_mem sorted length mem).trans_lt (read lists.count ▸ narrow)

/-- **A copied layer shows the lists it copies**, over elements that show theirs. -/
theorem shows_of_copy {lists copied : Lists} {elements others : Block} {offset length : Nat}
    (intact : lists.Intact elements.positionCount) (fits : offset + length ≤ lists.count)
    (shows : others.Shows elements (List.range' (lists.start offset)
      (lists.start (offset + length) - lists.start offset)))
    (base : copied.base = 0) (count : copied.count = length)
    (whole : copied.offsets.length = length + 1)
    (starts : ∀ i ≤ length, copied.start i = lists.start (offset + i) - lists.start offset)
    (flagged : copied.nulls.Spans length)
    (marks : ∀ i < length, copied.nulls.marks i = lists.nulls.marks (lists.base + offset + i)) :
    copied.Intact others.positionCount ∧
      (Block.array copied others).Shows (.array lists elements) (List.range' offset length) := by
  subst count
  -- Where the lists start, by position, so that what follows is arithmetic on offsets.
  have first : ∀ i ≤ copied.count, lists.start offset ≤ lists.start (offset + i) :=
    fun i le ↦ intact.start_le_start (Nat.le_add_right offset i) (by omega)
  have next : ∀ i < copied.count, lists.start (offset + i) ≤ lists.start (offset + (i + 1)) :=
    fun i inside ↦ intact.start_le_start (by omega) (by omega)
  have last : ∀ i ≤ copied.count, lists.start (offset + i) ≤ lists.start (offset + copied.count) :=
    fun i le ↦ intact.start_le_start (by omega) fits
  constructor
  · refine .of_starts base whole (fun i inside ↦ ?_) ?_ flagged (fun i inside null ↦ ?_) ?_
    · have := next i inside
      rw [starts i (by omega), starts (i + 1) (by omega)]
      omega
    · rw [starts _ (Nat.le_refl _), shows.count, List.length_range']
    · rw [marks i inside, Nat.add_assoc] at null
      have hollow := intact.hollow (offset + i) (by omega) null
      rw [starts i (by omega), starts (i + 1) (by omega), ← Nat.add_assoc, hollow]
    · have := intact.start_lt fits
      rw [starts _ (Nat.le_refl _)]
      omega
  · refine shows_of_members List.length_range'.symm (fun p mem ↦ ?_)
      (fun i p listed ↦ ?_) (fun i p listed ↦ ?_) shows.loadable
    · rw [List.mem_range'_1] at mem
      omega
    all_goals
      obtain ⟨inside, rfl⟩ := List.getElem?_eq_some_iff.1 listed
      rw [List.length_range'] at inside
      rw [List.getElem_range', Nat.one_mul]
    · rw [base, Nat.zero_add, marks i inside, Nat.add_assoc]
    · have start := first i (by omega)
      have step := next i inside
      have stop := last (i + 1) (by omega)
      rw [← Nat.add_assoc] at step stop
      have length : copied.start (i + 1) - copied.start i =
          lists.start (offset + i + 1) - lists.start (offset + i) := by
        rw [starts i (by omega), starts (i + 1) (by omega), ← Nat.add_assoc]
        omega
      rw [members, members, length]
      refine filterMap_range'_congr fun j room ↦ ?_
      rw [starts i (by omega), shows.datum_range' (by omega)]
      congr 1
      omega

/-! Gathered lists: the elements of the lists asked for, back to back. -/

/-- The start and the end of a list, nothing for a null list. -/
def filledSpan (lists : Lists) (position : Nat) : Option (Nat × Nat) :=
  if lists.nulls.marks (lists.base + position) then none
  else some (lists.start position, lists.start (position + 1))

section Gathered

variable {lists : Lists} {size : Nat} {positions : List Nat}

theorem isNone_filledSpan (lists : Lists) (position : Nat) :
    (lists.filledSpan position).isNone = lists.nulls.marks (lists.base + position) := by
  rw [filledSpan]
  split <;> simp_all

variable (intact : lists.Intact size) (inside : ∀ position ∈ positions, position < lists.count)

include intact

theorem elim_filledSpan {position : Nat} (inside : position < lists.count) :
    ((lists.filledSpan position).elim 0 fun (start, stop) ↦ stop - start) =
      (lists.members position).length := by
  rw [filledSpan]
  split
  next null => rw [intact.members_of_marks inside null]; rfl
  next => exact List.length_range'.symm

include inside

theorem filledSpans_eq_ok :
    lists.filledSpans positions = .ok (positions.map lists.filledSpan) := by
  refine mapM_eq_ok_map fun position mem ↦ ?_
  rw [intact.isNull_eq_ok (inside position mem), span_eq_ok (inside position mem), filledSpan]
  rcases lists.nulls.marks (lists.base + position) with - | - <;> rfl

/-- The elements gathered are those in the lists, a null list bringing none. -/
theorem flatMap_filledSpan :
    (((positions.map lists.filledSpan).filterMap id).flatMap fun (start, stop) ↦
      List.range' start (stop - start)) = (positions.map lists.members).flatten := by
  induction positions with
  | nil => rfl
  | cons position rest ih =>
    obtain ⟨here, later⟩ := List.forall_mem_cons.1 inside
    rw [List.map_cons, List.map_cons, List.flatten_cons, ← ih later]
    by_cases null : lists.nulls.marks (lists.base + position) = true
    · rw [intact.members_of_marks here null, filledSpan, if_pos null]
      rfl
    · rw [filledSpan, if_neg null]
      rfl

omit intact inside in
theorem lt_count_of_filledSpans_eq_ok {spans : List (Option (Nat × Nat))}
    (run : lists.filledSpans positions = .ok spans) :
    ∀ position ∈ positions, position < lists.count := by
  intro position mem
  obtain ⟨span, found⟩ := exists_eq_ok_of_mapM run mem
  by_contra outside
  rw [isNull, checkPosition_of_le (Nat.not_lt.1 outside)] at found
  cases found

omit inside in
/-- The first list that is not there is reported. -/
theorem filledSpans_eq_error_of_find? {position : Nat}
    (first : positions.find? (lists.count ≤ ·) = some position) :
    lists.filledSpans positions = .error (.error (.positionOutOfBounds position lists.count)) := by
  refine mapM_eq_error_of_find? (fun other _ inside ↦ ?_) first ?_
  · replace inside : other < lists.count := by simpa using inside
    rw [intact.isNull_eq_ok inside, ok_bind, span_eq_ok inside]
    split
    · exact ⟨_, rfl⟩
    · exact ⟨_, rfl⟩
  · rw [isNull_eq_error (by simpa using List.find?_some first)]
    rfl

end Gathered

/-- **A gathered layer shows the lists at the positions asked for**, over elements that show the
members of those lists. -/
theorem shows_of_gather {lists gathered : Lists} {elements others : Block} {positions : List Nat}
    (intact : lists.Intact elements.positionCount)
    (inside : ∀ position ∈ positions, position < lists.count)
    (room : (positions.map lists.members).flatten.length < 2 ^ 32)
    (shows : others.Shows elements (positions.map lists.members).flatten)
    (base : gathered.base = 0) (count : gathered.count = positions.length)
    (whole : gathered.offsets.length = positions.length + 1)
    (starts : ∀ i ≤ positions.length, gathered.start i =
      (((positions.map lists.members).map List.length).take i).sum)
    (flagged : gathered.nulls.Spans positions.length)
    (marks : ∀ i position, positions[i]? = some position →
      gathered.nulls.marks i = lists.nulls.marks (lists.base + position)) :
    gathered.Intact others.positionCount ∧
      (Block.array gathered others).Shows (.array lists elements) positions := by
  have next : ∀ i position, positions[i]? = some position →
      gathered.start (i + 1) = gathered.start i + (lists.members position).length := by
    intro i position listed
    obtain ⟨room, rfl⟩ := List.getElem?_eq_some_iff.1 listed
    rw [starts i (Nat.le_of_lt room), starts (i + 1) room, List.sum_take_succ _ i (by simpa),
      List.getElem_map, List.getElem_map]
  -- Every gathered list comes from a position, so each fact about it is one about a list there.
  have listed : ∀ i < gathered.count, ∃ position, positions[i]? = some position := by
    intro i room
    exact ⟨_, List.getElem?_eq_getElem (count ▸ room)⟩
  have last : gathered.start gathered.count = (positions.map lists.members).flatten.length := by
    rw [count, starts _ (Nat.le_refl _), List.length_flatten, List.take_of_length_le (by simp)]
  constructor
  · refine .of_starts base (count ▸ whole) (fun i room ↦ ?_) ?_ (count ▸ flagged)
      (fun i room null ↦ ?_) (last ▸ room)
    · obtain ⟨position, found⟩ := listed i room
      rw [next i position found]
      exact Nat.le_add_right _ _
    · rw [last, shows.count]
    · obtain ⟨position, found⟩ := listed i room
      rw [marks i position found] at null
      rw [next i position found, intact.members_of_marks
        (inside position (List.mem_of_getElem? found)) null]
      rfl
  · refine shows_of_members count inside (fun i position found ↦ ?_) (fun i position found ↦ ?_)
      shows.loadable
    · rw [base, Nat.zero_add, marks i position found]
    · have room : i ≤ positions.length := Nat.le_of_lt (List.getElem?_eq_some_iff.1 found).1
      rw [members, next i position found, Nat.add_sub_cancel_left, starts i room,
        funext shows.datum, filterMap_range'_listed,
        stretch_flatten (show (positions.map lists.members)[i]? = some (lists.members position) by
          rw [List.getElem?_map, found, Option.map_some])]

section Laid

variable {lists : Lists} {positions : List Nat} {size : Nat} (intact : lists.Intact size)
  (inside : ∀ position ∈ positions, position < lists.count)

include intact inside

/-- The lengths that a gather lays out are those of the lists at the positions. -/
theorem map_elim_filledSpan :
    ((positions.map lists.filledSpan).map fun span ↦
      span.elim 0 fun (start, stop) ↦ stop - start) =
        (positions.map lists.members).map List.length := by
  refine List.map_map.trans (Eq.trans ?_ List.map_map.symm)
  exact List.map_congr_left fun position mem ↦ elim_filledSpan intact (inside position mem)

/-- Lists that fit together are laid out one after the other. -/
theorem exists_ofLengths_gather
    (room : (positions.map lists.members).flatten.length < 2 ^ 32) :
    ∃ laid, (Offsets.ofLengths ((positions.map lists.filledSpan).map fun span ↦
        span.elim 0 fun (start, stop) ↦ stop - start)) = .ok laid ∧
      laid.ends.size = positions.length ∧ ∀ i ≤ positions.length, laid.toList.getD i 0 =
        (((positions.map lists.members).map List.length).take i).sum := by
  rw [List.length_flatten] at room
  obtain ⟨laid, collected, sums⟩ := ofLengths_eq_ok room
  refine ⟨laid, (map_elim_filledSpan intact inside) ▸ collected, ?_, fun i le ↦ ?_⟩
  · have size := congrArg List.length sums
    simpa [Offsets.itemCount] using size
  · rw [sums]
    exact getD_sums (by simpa using le)

/-- Lists that do not fit together are not laid out. -/
theorem ofLengths_gather_eq_error
    (past : 2 ^ 32 ≤ (positions.map lists.members).flatten.length) :
    Offsets.ofLengths ((positions.map lists.filledSpan).map fun span ↦
      span.elim 0 fun (start, stop) ↦ stop - start) = .error .panic := by
  rw [map_elim_filledSpan intact inside]
  refine ofLengths_eq_error (fun length mem ↦ ?_) (by rwa [← List.length_flatten])
  obtain ⟨_, listed, rfl⟩ := List.mem_map.1 mem
  obtain ⟨position, chosen, rfl⟩ := List.mem_map.1 listed
  have narrow := intact.start_lt (show position + 1 ≤ lists.count from inside position chosen)
  rw [members, List.length_range']
  omega

end Laid

/-- The layer that a gather builds, over elements that show the members of the lists. It covers all
of these elements. -/
theorem ofEnds_gather {lists : Lists} {elements others : Block} {positions : List Nat}
    (intact : lists.Intact elements.positionCount)
    (inside : ∀ position ∈ positions, position < lists.count)
    (room : (positions.map lists.members).flatten.length < 2 ^ 32)
    (shows : others.Shows elements (positions.map lists.members).flatten)
    {laid : Offsets} (size : laid.ends.size = positions.length)
    (sums : ∀ i ≤ positions.length, laid.toList.getD i 0 =
      (((positions.map lists.members).map List.length).take i).sum)
    (storage handle memory flags : Nat) :
    let flags? := if lists.nulls.mayHaveNull then
      some ((positions.map lists.filledSpan).map Option.isNone) else none
    let gathered := ofEnds storage handle memory 0 laid.ends.toList (.ofFlags? flags flags?)
    gathered.Intact others.positionCount ∧
      (Block.array gathered others).Shows (.array lists elements) positions ∧
        gathered.start 0 = 0 ∧ gathered.start gathered.count = others.positionCount := by
  intro flags? gathered
  have count : gathered.count = positions.length := by
    show laid.ends.toList.length = _
    rw [Array.length_toList, size]
  have starts : ∀ i ≤ positions.length, gathered.start i =
      (((positions.map lists.members).map List.length).take i).sum := by
    intro i le
    rw [← sums i le]
    exact start_ofEnds _ _ _ _ _ _ _
  have marks : ∀ i position, positions[i]? = some position →
      gathered.nulls.marks i = lists.nulls.marks (lists.base + position) := by
    intro i position listed
    refine (Nulls.marks_ofFlags? flags flags? i).trans ?_
    by_cases may : lists.nulls.mayHaveNull = true
    · simp [flags?, may, List.getD_eq_getElem?_getD, listed, isNone_filledSpan]
    · rw [Nulls.marks_of_mayHaveNull_eq_false (Bool.eq_false_iff.2 may)]
      simp [flags?, may]
  have flagged : gathered.nulls.Spans positions.length := by
    refine Nulls.spans_ofFlags? _ fun given same ↦ ?_
    by_cases may : lists.nulls.mayHaveNull = true
    · obtain rfl := Option.some.inj ((if_pos may).symm.trans same)
      simp
    · cases (if_neg may).symm.trans same
  have whole : gathered.offsets.length = positions.length + 1 := congrArg (· + 1) count
  obtain ⟨formed, shown⟩ :=
    shows_of_gather intact inside room shows rfl count whole starts flagged marks
  refine ⟨formed, shown, starts 0 (Nat.zero_le _), ?_⟩
  rw [count, starts _ (Nat.le_refl _), shows.count, List.length_flatten,
    List.take_of_length_le (by simp)]

end Lists

/-! ### Keys -/

namespace Keys

/-- Every key is the position of one of `size` entries. -/
def Intact (keys : Keys) (size : Nat) : Prop :=
  ∀ id ∈ keys.toList, id < size

@[simp] theorem length_toList (keys : Keys) : keys.toList.length = keys.count :=
  length_stretch (by rw [View.length_toList]; exact keys.fits)

theorem id_eq_ok {keys : Keys} {position id : Nat} (found : keys.toList[position]? = some id) :
    keys.id position = .ok id := by
  have inside : position < keys.count :=
    keys.length_toList ▸ (List.getElem?_eq_some_iff.1 found).1
  have room : keys.offset + position < keys.ids.length := by have := keys.fits; omega
  rw [toList, getElem?_stretch, if_pos inside, View.getElem?_toList_item _ room] at found
  rw [Keys.id, dif_pos inside, Option.some.inj found]

theorem getElem?_of_id_eq_ok {keys : Keys} {position id : Nat}
    (found : keys.id position = .ok id) : keys.toList[position]? = some id := by
  rcases listed : keys.toList[position]? with - | other
  · rw [List.getElem?_eq_none_iff, length_toList] at listed
    rw [Keys.id, dif_neg (Nat.not_lt.2 listed)] at found
    cases found
  · rw [id_eq_ok listed] at found
    rw [Except.ok.inj found]

theorem id_eq_error {keys : Keys} {position : Nat} (outside : keys.count ≤ position) :
    keys.id position = .error (.positionOutOfBounds position keys.count) :=
  dif_neg (Nat.not_lt.2 outside)

theorem exists_getElem?_toList (keys : Keys) {position : Nat} (inside : position < keys.count) :
    ∃ id, keys.toList[position]? = some id :=
  ⟨_, List.getElem?_eq_getElem (keys.length_toList.symm ▸ inside)⟩

/-- The ids at good positions are found, and are ids. -/
theorem idsAt_eq_ok {keys : Keys} {positions : List Nat}
    (inside : ∀ position ∈ positions, position < keys.count) :
    ∃ ids, keys.idsAt positions = .ok ids ∧ ids.length = positions.length ∧
      (∀ id ∈ ids, id ∈ keys.toList) ∧
        ∀ i : Nat, ids[i]? = positions[i]?.bind fun position ↦ keys.toList[position]? := by
  have read : ∀ position ∈ positions,
      keys.id position = .ok (keys.toList.getD position 0) ∧
        keys.toList[position]? = some (keys.toList.getD position 0) := by
    intro position mem
    obtain ⟨id, found⟩ := keys.exists_getElem?_toList (inside position mem)
    rw [List.getD_eq_getElem?_getD, found]
    exact ⟨id_eq_ok found, rfl⟩
  refine ⟨positions.map (keys.toList.getD · 0), mapM_eq_ok_map fun p mem ↦ (read p mem).1,
    List.length_map _, fun id mem ↦ ?_, fun i ↦ ?_⟩
  · obtain ⟨position, listed, rfl⟩ := List.mem_map.1 mem
    exact List.mem_of_getElem? (read position listed).2
  · rw [List.getElem?_map]
    rcases listed : positions[i]? with - | position
    · rfl
    · exact (read position (List.mem_of_getElem? listed)).2.symm

theorem lt_count_of_idsAt_eq_ok {keys : Keys} {positions ids : List Nat}
    (run : keys.idsAt positions = .ok ids) : ∀ position ∈ positions, position < keys.count := by
  intro position mem
  obtain ⟨id, found⟩ := exists_eq_ok_of_mapM run mem
  by_contra outside
  rw [id_eq_error (Nat.not_lt.1 outside)] at found
  cases found

/-- The ids at good positions, in order. -/
theorem idsAt_eq_filterMap {keys : Keys} {positions : List Nat}
    (inside : ∀ position ∈ positions, position < keys.count) :
    keys.idsAt positions = .ok (positions.filterMap (keys.toList[·]?)) := by
  rw [idsAt]
  induction positions with
  | nil => rfl
  | cons position rest ih =>
    obtain ⟨here, later⟩ := List.forall_mem_cons.1 inside
    obtain ⟨id, found⟩ := keys.exists_getElem?_toList here
    rw [List.mapM_cons, id_eq_ok found, ok_bind, ih later, List.filterMap_cons_some found]
    rfl

/-- The first position that is out of bounds is reported. -/
theorem idsAt_eq_error_of_find? {keys : Keys} {positions : List Nat} {position : Nat}
    (first : positions.find? (keys.count ≤ ·) = some position) :
    keys.idsAt positions = .error (.positionOutOfBounds position keys.count) := by
  refine mapM_eq_error_of_find? (fun other _ inside ↦ ?_) first
    (id_eq_error (by simpa using List.find?_some first))
  obtain ⟨id, found⟩ := keys.exists_getElem?_toList (by simpa using inside)
  exact ⟨id, id_eq_ok found⟩

/-- **Keys show other keys if their ids are those at the positions**, over the same entries or over
entries that mirror them. -/
theorem shows_of_ids {keys other : Keys} {entries others : Block} {positions : List Nat}
    (count : other.count = positions.length)
    (ids : ∀ i : Nat, other.toList[i]? = positions[i]?.bind fun position ↦ keys.toList[position]?)
    (mirrors : others.Mirrors entries) :
    (Block.dictionary other others).Shows (.dictionary keys entries) positions where
  count := count
  datum i := by
    rw [Block.datum?, ids, mirrors.datum]
    rcases positions[i]? with - | position <;> rfl
  loadable := mirrors.loadable

/-- What shows the entries at the ids of some positions shows the positions. -/
theorem shows_of_entries {keys : Keys} {entries w : Block} {ids positions : List Nat}
    (shows : w.Shows entries ids) (count : ids.length = positions.length)
    (listed : ∀ i : Nat, ids[i]? = positions[i]?.bind fun position ↦ keys.toList[position]?) :
    w.Shows (.dictionary keys entries) positions where
  count := shows.count.trans count
  datum i := by
    rw [shows.datum, listed]
    rcases positions[i]? with - | position <;> rfl
  loadable := shows.loadable

/-- What shows the entries at a stretch of the ids shows the positions of the stretch. -/
theorem shows_of_region {keys : Keys} {entries w : Block} {offset length : Nat}
    (shows : w.Shows entries (stretch keys.toList offset length))
    (fits : offset + length ≤ keys.count) :
    w.Shows (.dictionary keys entries) (List.range' offset length) :=
  shows_of_entries shows
    (by rw [length_stretch (by rwa [length_toList]), List.length_range'])
    (getElem?_stretch_eq_bind keys.toList offset length)

/-- What shows the entries at the ids of a stretch of positions shows the positions. -/
theorem shows_of_stretch {keys : Keys} {entries w : Block} {ids : List Nat} {offset length : Nat}
    (shows : w.Shows entries ids) (count : ids.length = length)
    (listed : ∀ i < length, ids[i]? = keys.toList[offset + i]?) :
    w.Shows (.dictionary keys entries) (List.range' offset length) := by
  refine shows_of_entries shows (count.trans List.length_range'.symm) fun i ↦ ?_
  rcases Nat.lt_or_ge i length with inside | outside
  · rw [listed i inside, List.getElem?_range' inside, Nat.one_mul]
    rfl
  · rw [List.getElem?_eq_none (count ▸ outside), List.getElem?_eq_none (by simpa using outside)]
    rfl

/-- Keys show their entries. -/
theorem shows_toList (keys : Keys) (entries : Block) :
    (Block.dictionary keys entries).Shows entries keys.toList where
  count := keys.length_toList.symm
  datum _ := rfl
  loadable := fun kept ↦ kept

/-- **Renumbered keys over the distinct entries show the entries at the ids.** -/
theorem shows_of_renumber {keys : Keys} {entries gathered : Block} {ids : List Nat}
    (renumbered : keys.toList = renumber ids) (shows : gathered.Shows entries ids.eraseDups) :
    (Block.dictionary keys gathered).Shows entries ids where
  count := by
    rw [Block.positionCount, ← length_toList, renumbered, length_renumber]
  datum i := by
    rw [Block.datum?, renumbered, funext shows.datum, ← getElem?_renumber ids i]
    rcases (renumber ids)[i]? with - | id <;> rfl
  loadable := shows.loadable

/-- A window of keys shares ids, entries and their identities. -/
theorem window_eq_ok {keys : Keys} (memory : Nat) {offset length : Nat}
    (fits : offset + length ≤ keys.count) (entries : Block) :
    ∃ w, keys.window memory offset length = .ok w ∧ w.memory = memory ∧
      (w.source = keys.source ∧ w.handle = keys.handle) ∧
      w.toList = stretch keys.toList offset length ∧
        (Block.dictionary w entries).Shows (.dictionary keys entries)
          (List.range' offset length) := by
  have ids : ∀ w : Keys, w.toList = stretch keys.toList offset length →
      ∀ i : Nat, w.toList[i]? = (List.range' offset length)[i]?.bind fun p ↦ keys.toList[p]? := by
    intro w same i
    rw [same, getElem?_stretch_eq_bind]
  have windowed : ∀ w : Keys, w.ids = keys.ids → w.offset = keys.offset + offset →
      w.count = length → w.toList = stretch keys.toList offset length := by
    intro w view start size
    rw [toList, toList, view, start, size, stretch_stretch fits]
  exact ⟨_, dif_pos fits, rfl, ⟨rfl, rfl⟩, windowed _ rfl rfl rfl,
    shows_of_ids List.length_range'.symm (ids _ (windowed _ rfl rfl rfl)) (.refl entries)⟩

end Keys

end BatchColumn
