import BatchColumn.Block.Store
import BatchColumn.Bounds
import Mathlib.Algebra.BigOperators.Group.List.Lemmas
import Mathlib.Algebra.Order.BigOperators.Group.List
import Mathlib.Algebra.Order.Ring.Nat
import Mathlib.Data.List.Chain
import Mathlib.Data.List.Nodup
import Mathlib.Data.List.Perm.Subperm
import Mathlib.Data.List.Sort

/-!
# What the checks establish

One lemma for each check of `Bounds`, in the form its callers use: when the check passes, and what
the lists that passed it are like afterwards. Everything here is about lists of numbers; blocks come
later.

Three groups of facts carry the rest of the development.

* A **stretch** of a list is read past its offset (`getElem?_stretch`).
* **Offsets**: never decreasing means pairwise ordered (`nondecreasing_iff_pairwise`), a rebased
  stretch is the old one less its first (`rebase?_eq_some`), and offsets collected from lengths are
  the sums of the lengths before them (`ofLengths_eq_ok`).
* **Ids**: the distinct ids in order of first occurrence (`nodup_eraseDups`), renumbering leads back
  to the id (`getElem?_renumber`), and ids that count up through all entries are the identity
  (`eq_range_of_increasing`).
-/

namespace BatchColumn

variable {α β ε : Type}

/-! ### Refusals -/

@[simp] theorem ok_bind (a : α) (rest : α → Except ε β) : (Except.ok a >>= rest) = rest a := rfl

@[simp] theorem error_bind (fault : ε) (rest : α → Except ε β) :
    (Except.error fault >>= rest) = .error fault := rfl

@[simp] theorem lift_ok (a : α) : (liftM (Except.ok a : Except Error α) : Except Fault α) = .ok a :=
  rfl

@[simp] theorem lift_error (cause : Error) :
    (liftM (Except.error cause : Except Error α) : Except Fault α) = .error (.error cause) :=
  rfl

/-- What is done in two steps succeeds if both do. -/
theorem bind_eq_ok_iff {first : Except ε α} {rest : α → Except ε β} {b : β} :
    (first >>= rest) = .ok b ↔ ∃ a, first = .ok a ∧ rest a = .ok b := by
  rcases first with fault | a <;> simp

theorem verifyArgument_eq_ok_iff {holds : Bool} {name condition : String} :
    verifyArgument holds name condition = .ok () ↔ holds = true := by
  cases holds <;> simp [verifyArgument]

theorem verifyArgument_of_imp {p q : Bool} {name condition : String} (holds : p = true → q = true) :
    verifyArgument (!p || q) name condition = .ok () := by
  rcases p with - | -
  · rfl
  · rw [holds rfl]
    rfl

/-- Calls at the items of a list all succeed, or one of them fails. -/
theorem mapM_eq_ok_iff {call : α → Except ε β} {items : List α} {answers : List β} :
    items.mapM call = .ok answers ↔ List.Forall₂ (fun a b ↦ call a = .ok b) items answers := by
  induction items generalizing answers with
  | nil =>
    rw [List.mapM_nil, List.forall₂_nil_left_iff]
    exact ⟨fun h ↦ (Except.ok.inj h).symm, fun h ↦ h ▸ rfl⟩
  | cons item rest ih =>
    rw [List.mapM_cons, List.forall₂_cons_left_iff]
    rcases called : call item with fault | answer
    · simp
    · rcases others : rest.mapM call with fault | found
      · simp only [ok_bind, error_bind, reduceCtorEq, false_iff, not_exists, not_and]
        rintro b tail - chain -
        rw [ih.2 chain] at others
        cases others
      · simp only [ok_bind, pure, Except.pure, Except.ok.injEq]
        constructor
        · rintro rfl
          exact ⟨answer, found, rfl, ih.1 others, rfl⟩
        · rintro ⟨b, tail, rfl, chain, rfl⟩
          rw [ih.2 chain] at others
          rw [Except.ok.inj others]

theorem mapM_eq_ok_map {call : α → Except ε β} {answer : α → β} {items : List α}
    (succeeds : ∀ item ∈ items, call item = .ok (answer item)) :
    items.mapM call = .ok (items.map answer) := by
  rw [mapM_eq_ok_iff, List.forall₂_map_right_iff, List.forall₂_same]
  exact succeeds

/-- A lookup that finds something at every item of a list finds a list. -/
theorem exists_getElem?_eq_bind {lookup : α → Option β} {items : List α}
    (found : ∀ item ∈ items, ∃ b, lookup item = some b) :
    ∃ answers : List β, answers.length = items.length ∧
      ∀ i : Nat, answers[i]? = items[i]?.bind lookup := by
  induction items with
  | nil => exact ⟨[], rfl, fun i ↦ by simp⟩
  | cons item rest ih =>
    obtain ⟨here, later⟩ := List.forall_mem_cons.1 found
    obtain ⟨b, first⟩ := here
    obtain ⟨answers, size, each⟩ := ih later
    refine ⟨b :: answers, congrArg (· + 1) size, fun i ↦ ?_⟩
    rcases i with - | i
    · exact first.symm
    · exact each i

/-- What is looked up one by one is what is found among the items. -/
theorem eq_filterMap_of_getElem? {lookup : α → Option β} {items : List α} {found : List β}
    (each : ∀ i : Nat, found[i]? = items[i]?.bind lookup) : found = items.filterMap lookup := by
  induction items generalizing found with
  | nil =>
    exact List.eq_nil_of_length_eq_zero (Nat.le_zero.1 (List.getElem?_eq_none_iff.1 (each 0)))
  | cons item rest ih =>
    have first : found.head? = lookup item := List.head?_eq_getElem?.trans (each 0)
    rcases found with - | ⟨answer, answers⟩
    · -- Nothing is found at the first item, so nothing is found at a later one.
      rw [List.filterMap_cons_none first.symm]
      exact ih fun i ↦ each (i + 1)
    · rw [List.filterMap_cons_some first.symm, ih fun i ↦ each (i + 1)]

/-- Items found one by one are those at the positions, and all positions are there. -/
theorem getElem?_of_forall₂ {items found : List α} {positions : List Nat}
    (each : List.Forall₂ (fun position item ↦ items[position]? = some item) positions found) :
    found.length = positions.length ∧
      (∀ i : Nat, found[i]? = positions[i]?.bind fun position ↦ items[position]?) ∧
      (∀ item ∈ found, item ∈ items) ∧ ∀ position ∈ positions, position < items.length := by
  induction each with
  | nil => simp
  | @cons position item positions found here rest ih =>
    obtain ⟨size, same, among, inside⟩ := ih
    refine ⟨congrArg (· + 1) size, fun i ↦ ?_, ?_, ?_⟩
    · rcases i with - | i
      · exact here.symm
      · exact same i
    · exact List.forall_mem_cons.2 ⟨List.mem_of_getElem? here, among⟩
    · exact List.forall_mem_cons.2 ⟨(List.getElem?_eq_some_iff.1 here).1, inside⟩

theorem exists_eq_ok_of_mapM {call : α → Except ε β} {items : List α} {answers : List β}
    (run : items.mapM call = .ok answers) {item : α} (mem : item ∈ items) :
    ∃ answer, call item = .ok answer := by
  obtain ⟨size, each⟩ := List.forall₂_iff_get.1 (mapM_eq_ok_iff.1 run)
  obtain ⟨i, inside, rfl⟩ := List.getElem_of_mem mem
  exact ⟨_, each i inside (size ▸ inside)⟩

/-- A call at every item of a list fails as it does at the first bad one. -/
theorem mapM_eq_error_of_find? {call : α → Except ε β} {bad : α → Bool} {items : List α} {item : α}
    {e : ε} (good : ∀ other ∈ items, bad other = false → ∃ b, call other = .ok b)
    (first : items.find? bad = some item) (refused : call item = .error e) :
    items.mapM call = .error e := by
  induction items with
  | nil => cases first
  | cons head rest ih =>
    obtain ⟨here, later⟩ := List.forall_mem_cons.1 good
    rw [List.mapM_cons]
    rcases known : bad head with - | -
    · obtain ⟨b, answered⟩ := here known
      rw [List.find?_cons_of_neg (by simp [known])] at first
      rw [answered, ok_bind, ih later first]
      rfl
    · rw [List.find?_cons_of_pos known] at first
      rw [Option.some.inj first, refused]
      rfl

/-- **Sizes are added up to the size of them all**, whether each of them is checked or not. -/
theorem sumOver_eq_checkSize {α : Type} {call : α → Except Fault Nat} {size : α → Nat}
    {items : List α}
    (each : ∀ item ∈ items, call item = .ok (size item) ∨ call item = checkSize (size item)) :
    sumOver items call = checkSize (items.map size).sum := by
  suffices after : ∀ total < UInt64.size, items.foldlM
      (fun total item ↦ do checkSize (total + (← call item))) total =
        checkSize (total + (items.map size).sum) by
    exact (after 0 (by decide)).trans (by rw [Nat.zero_add])
  induction items with
  | nil =>
    intro total room
    rw [List.map_nil, List.sum_nil, Nat.add_zero, checkSize_of_lt room]
    rfl
  | cons item items ih =>
    intro total room
    -- Either way, what is added is the size, or the sum has passed already.
    have step : (call item >>= fun n ↦ checkSize (total + n)) = checkSize (total + size item) := by
      rcases each item List.mem_cons_self with same | same
      · rw [same]
        rfl
      · simp only [same, Nat.add_comm total, checkSize_bind]
    rw [List.foldlM_cons, List.map_cons, List.sum_cons, ← Nat.add_assoc, ← checkSize_bind]
    rw [show (do checkSize (total + (← call item))) = checkSize (total + size item) from step]
    rcases passed : checkSize (total + size item) with fault | next
    · rfl
    · exact ih (fun other mem ↦ each other (List.mem_cons_of_mem _ mem)) next
        (by obtain ⟨room, rfl⟩ := checkSize_eq_ok_iff.1 passed; exact room)

/-! ### Positions and regions -/

theorem checkPosition_of_lt {position count : Nat} (inside : position < count) :
    checkPosition position count = .ok () := if_pos inside

theorem checkPosition_of_le {position count : Nat} (outside : count ≤ position) :
    checkPosition position count = .error (.positionOutOfBounds position count) :=
  if_neg (Nat.not_lt.2 outside)

theorem checkRegion_eq_ok_iff {count offset length : Nat} :
    checkRegion count offset length = .ok () ↔ offset + length ≤ count := by
  unfold checkRegion
  split <;> simp_all

theorem not_le_of_checkRegion_eq_error {count offset length : Nat} {cause : Error}
    (refused : checkRegion count offset length = .error cause) : ¬ offset + length ≤ count := by
  intro fits
  rw [checkRegion_eq_ok_iff.2 fits] at refused
  cases refused

theorem checkStretch_eq_ok_iff {size offset length : Nat} :
    checkStretch size offset length = .ok () ↔ offset + length ≤ size := by
  unfold checkStretch
  split <;> simp_all

theorem checkPositions_eq_ok_iff {positions : List Nat} {count : Nat} :
    checkPositions positions count = .ok () ↔ ∀ position ∈ positions, position < count := by
  unfold checkPositions
  induction positions with
  | nil => simp [pure, Except.pure]
  | cons position rest ih =>
    show (checkPosition position count >>= fun _ ↦ rest.forM (checkPosition · count)) = _ ↔ _
    rw [List.forall_mem_cons]
    rcases Nat.lt_or_ge position count with inside | outside
    · rw [checkPosition_of_lt inside, ok_bind, ih, and_iff_right inside]
    · rw [checkPosition_of_le outside]
      simp [Nat.not_lt.2 outside]

/-- The first position that is out of bounds is reported. -/
theorem checkPositions_eq_error_of_find? {positions : List Nat} {count position : Nat}
    (first : positions.find? (count ≤ ·) = some position) :
    checkPositions positions count = .error (.positionOutOfBounds position count) := by
  unfold checkPositions
  induction positions with
  | nil => cases first
  | cons head rest ih =>
    show (checkPosition head count >>= fun _ ↦ rest.forM (checkPosition · count)) = _
    rcases Nat.lt_or_ge head count with inside | outside
    · rw [List.find?_cons_of_neg (by simpa using inside)] at first
      rw [checkPosition_of_lt inside, ok_bind, ih first]
    · rw [List.find?_cons_of_pos (by simpa using outside)] at first
      rw [checkPosition_of_le outside, Option.some.inj first]
      rfl

theorem checkIds_eq_ok_iff {ids : List Nat} {count : Nat} :
    checkIds ids count = .ok () ↔ ∀ id ∈ ids, id < count := by
  unfold checkIds
  rcases found : ids.find? (count ≤ ·) with - | id
  · simpa [List.find?_eq_none, Nat.not_le] using found
  · have beyond : count ≤ id := by simpa using List.find?_some found
    simp only [reduceCtorEq, false_iff, not_forall, Nat.not_lt]
    exact ⟨id, List.mem_of_find?_eq_some found, beyond⟩

/-! ### Stretches -/

theorem getElem?_stretch (items : List α) (offset length i : Nat) :
    (stretch items offset length)[i]? = if i < length then items[offset + i]? else none := by
  rw [stretch, List.getElem?_take, List.getElem?_drop]

/-- A stretch holds the items at consecutive positions. -/
theorem getElem?_stretch_eq_bind (items : List α) (offset length i : Nat) :
    (stretch items offset length)[i]? = (List.range' offset length)[i]?.bind (items[·]?) := by
  rw [getElem?_stretch]
  split
  next inside => simp [List.getElem?_range' inside]
  next outside =>
    rw [List.getElem?_eq_none (by simpa using outside)]
    rfl

theorem length_stretch {items : List α} {offset length : Nat}
    (fits : offset + length ≤ items.length) : (stretch items offset length).length = length := by
  rw [stretch, List.length_take, List.length_drop]
  omega

@[simp] theorem stretch_all (items : List α) : stretch items 0 items.length = items := by
  rw [stretch, List.drop_zero, List.take_length]

theorem mem_of_mem_stretch {items : List α} {offset length : Nat} {item : α}
    (mem : item ∈ stretch items offset length) : item ∈ items :=
  List.mem_of_mem_drop (List.mem_of_mem_take mem)

/-- A stretch starts with the item at its offset. -/
theorem stretch_succ {items : List α} {offset : Nat} {item : α} (found : items[offset]? = some item)
    (length : Nat) :
    stretch items offset (length + 1) = item :: stretch items (offset + 1) length := by
  obtain ⟨inside, rfl⟩ := List.getElem?_eq_some_iff.1 found
  rw [stretch, stretch, List.drop_eq_getElem_cons inside, List.take_succ_cons]

theorem stretch_of_length_le {items : List α} {offset : Nat} (short : items.length ≤ offset)
    (length : Nat) : stretch items offset length = [] := by
  rw [stretch, List.drop_eq_nil_of_le short, List.take_nil]

/-- A stretch of a stretch is a stretch. -/
theorem stretch_stretch {items : List α} {offset length inner size : Nat}
    (fits : inner + size ≤ length) :
    stretch (stretch items offset length) inner size = stretch items (offset + inner) size := by
  refine List.ext_getElem? fun i ↦ ?_
  simp only [getElem?_stretch, Nat.add_assoc]
  by_cases inside : i < size
  · rw [if_pos inside, if_pos inside, if_pos (by omega)]
  · rw [if_neg inside, if_neg inside]

/-! ### Masks of ids and spans -/

theorem allocate_of_lt {count width : Nat} (room : count * width < 2 ^ 63) :
    allocate count width = .ok () := if_pos (by rwa [Nat.one_shiftLeft])

/-- Ids of entries can be marked, if there is room for a mask of the entries. -/
theorem markUsed_eq_ok {size : Nat} {ids : List Nat} (room : size < 2 ^ 63)
    (inside : ∀ id ∈ ids, id < size) : markUsed size ids = .ok fun id ↦ ids.contains id := by
  have none : ids.find? (size ≤ ·) = none := by
    rw [List.find?_eq_none]
    intro id mem
    simpa using inside id mem
  rw [markUsed, allocate_of_lt (by rw [flagSize]; omega), none]
  rfl

/-- If some id points past the entries, one is the first. -/
theorem exists_find?_of_exists {size : Nat} {ids : List Nat} (past : ∃ id ∈ ids, size ≤ id) :
    ∃ id, ids.find? (size ≤ ·) = some id := by
  rw [← Option.isSome_iff_exists, List.find?_isSome]
  simpa using past

/-- The first id that points past the entries is reported. -/
theorem markUsed_eq_error_of_find? {size id : Nat} {ids : List Nat} (room : size < 2 ^ 63)
    (first : ids.find? (size ≤ ·) = some id) :
    markUsed size ids = .error (.error (.missingKey id)) := by
  rw [markUsed, allocate_of_lt (by rw [flagSize]; omega), first]
  rfl

/-- Spans that fit can be covered, if there is room for a mask. -/
theorem cover_eq_ok {size : Nat} {spans : List (Nat × Nat)} (room : size < 2 ^ 63)
    (inside : ∀ span ∈ spans, span.1 ≤ span.2 ∧ span.2 ≤ size) :
    cover size spans = .ok (.ofSpans spans) := by
  rw [cover, allocate_of_lt (by rw [flagSize]; omega), ok_bind]
  refine if_pos ?_
  simpa [List.all_eq_true] using fun start stop mem ↦ inside (start, stop) mem

theorem mem_pick_iff {items : List α} {mask : Mask} {item : α} :
    item ∈ pick items mask ↔ ∃ p : Nat, items[p]? = some item ∧ mask p = true := by
  simp [pick, List.mem_zipIdx_iff_getElem?]

theorem mem_of_mem_pick {items : List α} {mask : Mask} {item : α} (mem : item ∈ pick items mask) :
    item ∈ items :=
  have ⟨_, found, _⟩ := mem_pick_iff.1 mem
  List.mem_of_getElem? found

/-! ### Ordered numbers -/

theorem nondecreasing_iff_pairwise {numbers : List Nat} :
    nondecreasing numbers = true ↔ numbers.Pairwise (· ≤ ·) := by
  rw [← List.isChain_iff_pairwise]
  fun_induction nondecreasing numbers with
  | case1 a b rest ih => simp [ih]
  | case2 numbers short =>
    match numbers, short with
    | [], _ => simp
    | [a], _ => simp
    | a :: b :: rest, short => exact absurd rfl (short a b rest)

theorem increasing_iff_pairwise {numbers : List Nat} :
    increasing numbers = true ↔ numbers.Pairwise (· < ·) := by
  rw [← List.isChain_iff_pairwise]
  fun_induction increasing numbers with
  | case1 a b rest ih => simp [ih]
  | case2 numbers short =>
    match numbers, short with
    | [], _ => simp
    | [a], _ => simp
    | a :: b :: rest, short => exact absurd rfl (short a b rest)

theorem getD_of_lt {numbers : List Nat} {i : Nat} (inside : i < numbers.length) :
    numbers.getD i 0 = numbers[i] := by
  rw [List.getD_eq_getElem?_getD, List.getElem?_eq_getElem inside, Option.getD_some]

/-- Later offsets are no smaller. -/
theorem getD_le_getD_of_nondecreasing {offsets : List Nat} (sorted : nondecreasing offsets = true)
    {i j : Nat} (le : i ≤ j) (inside : j < offsets.length) :
    offsets.getD i 0 ≤ offsets.getD j 0 := by
  rw [getD_of_lt inside, getD_of_lt (Nat.lt_of_le_of_lt le inside)]
  rcases Nat.lt_or_eq_of_le le with lt | rfl
  · exact List.pairwise_iff_getElem.1 (nondecreasing_iff_pairwise.1 sorted) i j (by omega) inside lt
  · exact Nat.le_refl _

/-- Offsets never decrease if none of them is larger than the next. -/
theorem nondecreasing_of_getD_le {offsets : List Nat}
    (ordered : ∀ i, i + 1 < offsets.length → offsets.getD i 0 ≤ offsets.getD (i + 1) 0) :
    nondecreasing offsets = true := by
  rw [nondecreasing_iff_pairwise, ← List.isChain_iff_pairwise, List.isChain_iff_getElem]
  intro i inside
  rw [← getD_of_lt, ← getD_of_lt]
  exact ordered i inside

/-- No offset of a list that never decreases exceeds the last one. -/
theorem le_getD_of_mem {offsets : List Nat} (sorted : nondecreasing offsets = true)
    {offset last : Nat} (size : offsets.length = last + 1) (mem : offset ∈ offsets) :
    offset ≤ offsets.getD last 0 := by
  obtain ⟨i, inside, rfl⟩ := List.getElem_of_mem mem
  rw [← getD_of_lt inside]
  exact getD_le_getD_of_nondecreasing sorted (by omega) (by omega)

theorem checkOffsets_eq_ok_iff {offsets : List Nat} {count valueCount : Nat} :
    checkOffsets offsets count valueCount = .ok () ↔
      offsets.length = count + 1 ∧ nondecreasing offsets = true ∧
        offsets.getD count 0 ≤ valueCount := by
  rw [checkOffsets]
  by_cases size : offsets.length = count + 1
  · have last : offsets.getLastD 0 = offsets.getD count 0 := by
      rw [List.getLastD_eq_getLast?, List.getLast?_eq_getElem?, size, Nat.add_sub_cancel,
        List.getD_eq_getElem?_getD]
    rw [last]
    by_cases sorted : nondecreasing offsets = true <;> simp [size, sorted]
  · simp [size]

/-- Numbers that are stored are found where they are stored. -/
theorem getElem?_eq_getD {numbers : List Nat} {i : Nat} (inside : i < numbers.length) :
    numbers[i]? = some (numbers.getD i 0) := by
  rw [getD_of_lt inside, List.getElem?_eq_getElem inside]

/-- Entries that are marked are empty, told from the offsets. -/
theorem all_hollow_iff {flags : List Bool} {first : Nat} {ends : List Nat} :
    (flags.zip ((first :: ends).zip ends)).all (fun (null, start, stop) ↦ !null || start == stop) =
        true ↔
      ∀ i start stop : Nat, flags[i]? = some true → (first :: ends)[i]? = some start →
        ends[i]? = some stop → start = stop := by
  rw [List.all_eq_true]
  constructor
  · intro empty i start stop marked starts stops
    have triple : (flags.zip ((first :: ends).zip ends))[i]? = some (true, start, stop) :=
      List.getElem?_zip_eq_some.2 ⟨marked, List.getElem?_zip_eq_some.2 ⟨starts, stops⟩⟩
    simpa using empty _ (List.mem_of_getElem? triple)
  · rintro empty ⟨null, start, stop⟩ mem
    obtain ⟨i, triple⟩ := List.getElem?_of_mem mem
    obtain ⟨marked, span⟩ := List.getElem?_zip_eq_some.1 triple
    obtain ⟨starts, stops⟩ := List.getElem?_zip_eq_some.1 span
    cases null
    · rfl
    · simpa using empty i start stop marked starts stops

/-! ### Offsets -/

/-- A stretch of offsets that never decrease can be moved to start at zero. -/
theorem rebase?_eq_some {offsets : List Nat} (sorted : nondecreasing offsets = true)
    {index length : Nat} (inside : index + length < offsets.length) :
    ∃ rebased, rebase? offsets index length = some rebased ∧
      rebased.itemCount = length ∧ ∀ i ≤ length,
        rebased.toList.getD i 0 = offsets.getD (index + i) 0 - offsets.getD index 0 := by
  have size : (stretch offsets index (length + 1)).length = length + 1 :=
    length_stretch (by omega)
  have read : ∀ i ≤ length,
      (stretch offsets index (length + 1))[i]? = some (offsets.getD (index + i) 0) := by
    intro i le
    rw [getElem?_stretch, if_pos (by omega), getElem?_eq_getD (by omega)]
  rcases shape : stretch offsets index (length + 1) with - | ⟨first, rest⟩
  · simp [shape] at size
  · rw [shape] at size read
    have head : first = offsets.getD index 0 := by simpa using read 0 (by omega)
    have tail : ∀ i < length, rest[i]? = some (offsets.getD (index + (i + 1)) 0) := by
      intro i lt
      simpa using read (i + 1) lt
    have bounded : (rest.all (first ≤ ·)) = true := by
      rw [List.all_eq_true]
      intro item mem
      obtain ⟨i, lt, rfl⟩ := List.getElem_of_mem mem
      have found := tail i (by simpa using Nat.lt_of_lt_of_eq lt (Nat.succ.inj size))
      rw [List.getElem?_eq_getElem lt, Option.some.injEq] at found
      rw [found, head, decide_eq_true_eq]
      exact getD_le_getD_of_nondecreasing sorted (by omega) (by have := Nat.succ.inj size; omega)
    refine ⟨⟨(rest.map (· - first)).toArray⟩, ?_, ?_, ?_⟩
    · rw [rebase?, shape]
      exact if_pos (by simpa [bounded] using size)
    · simpa [Offsets.itemCount] using size
    · rintro (- | i) le
      · simp [Offsets.toList]
      · simp [Offsets.toList, List.getD_eq_getElem?_getD, tail i (by omega), head]

/-- **Offsets collected from lengths are sums of lengths**, if all of them together are an
offset. -/
theorem ofLengths_eq_ok {lengths : List Nat} (room : lengths.sum < 2 ^ 32) :
    ∃ offsets, Offsets.ofLengths lengths = .ok offsets ∧ offsets.toList =
      (List.range (lengths.length + 1)).map fun i ↦ (lengths.take i).sum := by
  induction lengths using List.reverseRecOn with
  | nil => exact ⟨.empty, rfl, rfl⟩
  | append_singleton lengths length ih =>
    rw [List.sum_append, List.sum_singleton] at room
    obtain ⟨offsets, collected, sums⟩ := ih (by omega)
    have last : offsets.last = lengths.sum := by
      rw [← Offsets.getLastD_toList, sums, List.range_succ, List.map_append, List.map_singleton,
        List.getLastD_concat, List.take_length]
    have own : length % UInt32.size = length := Nat.mod_eq_of_lt (show length < 2 ^ 32 by omega)
    have added : offsets.addLength length = .ok (offsets.pushLength length) :=
      if_pos (by rw [own, last]; exact room)
    refine ⟨offsets.pushLength length, ?_, ?_⟩
    · rw [Offsets.ofLengths, List.foldlM_append]
      rw [Offsets.ofLengths] at collected
      rw [collected, ok_bind, List.foldlM_cons, added]
      rfl
    · rw [Offsets.toList_addLength added, own, last, sums, List.length_append,
        List.length_singleton, List.range_succ (n := lengths.length + 1), List.map_append]
      congr 1
      · refine List.map_congr_left fun i mem ↦ ?_
        rw [List.take_append_of_le_length (by simpa [Nat.lt_succ_iff] using mem)]
      · simp

/-- Lengths that are no offset together are not laid out. -/
theorem ofLengths_eq_error {lengths : List Nat} (narrow : ∀ length ∈ lengths, length < 2 ^ 32)
    (past : 2 ^ 32 ≤ lengths.sum) : Offsets.ofLengths lengths = .error .panic := by
  induction lengths using List.reverseRecOn with
  | nil => simp at past
  | append_singleton lengths length ih =>
    rw [Offsets.ofLengths, List.foldlM_append]
    rcases Nat.lt_or_ge lengths.sum (2 ^ 32) with room | beyond
    · obtain ⟨offsets, collected, sums⟩ := ofLengths_eq_ok room
      have last : offsets.last = lengths.sum := by
        rw [← Offsets.getLastD_toList, sums, List.range_succ, List.map_append, List.map_singleton,
          List.getLastD_concat, List.take_length]
      have own : length % UInt32.size = length := Nat.mod_eq_of_lt (narrow length (by simp))
      have passed : ¬ offsets.last + length % UInt32.size < UInt32.size := by
        rw [own, last]
        simpa using past
      rw [Offsets.ofLengths] at collected
      rw [collected, ok_bind, List.foldlM_cons, Offsets.addLength, if_neg passed]
      rfl
    · have failed := ih (fun other mem ↦ narrow other (by simp [mem])) beyond
      rw [Offsets.ofLengths] at failed
      rw [failed]
      rfl

/-- Where the entries of given lengths start. -/
theorem getD_sums {lengths : List Nat} {i : Nat} (le : i ≤ lengths.length) :
    ((List.range (lengths.length + 1)).map fun i ↦ (lengths.take i).sum).getD i 0 =
      (lengths.take i).sum := by
  rw [List.getD_eq_getElem?_getD, List.getElem?_map, List.getElem?_range (by omega),
    Option.map_some, Option.getD_some]

/-- The items of joined lists stand where the lengths of the lists before them say. -/
theorem getElem?_flatten (lists : List (List α)) {i : Nat} {items : List α}
    (found : lists[i]? = some items) {j : Nat} (inside : j < items.length) :
    lists.flatten[((lists.map List.length).take i).sum + j]? = items[j]? := by
  induction lists generalizing i with
  | nil => simp at found
  | cons first rest ih =>
    rcases i with - | i
    · obtain rfl : first = items := by simpa using found
      simp [List.getElem?_append_left inside]
    · have later := ih (i := i) (by simpa using found)
      simp only [List.flatten_cons, List.map_cons, List.take_succ_cons, List.sum_cons]
      rw [List.getElem?_append_right (by omega), ← later]
      congr 1
      omega

theorem stretch_flatten {lists : List (List α)} {i : Nat} {items : List α}
    (found : lists[i]? = some items) :
    stretch lists.flatten ((lists.map List.length).take i).sum items.length = items := by
  refine List.ext_getElem? fun j ↦ ?_
  rw [getElem?_stretch]
  split
  next inside => exact getElem?_flatten lists found inside
  next outside => rw [List.getElem?_eq_none (Nat.not_lt.1 outside)]

/-! ### Ids -/

theorem nodup_eraseDups (ids : List Nat) : ids.eraseDups.Nodup := by
  induction bound : ids.length using Nat.strong_induction_on generalizing ids with
  | _ size ih =>
    rcases ids with - | ⟨id, rest⟩
    · simp
    · rw [List.length_cons] at bound
      have shorter : (rest.filter fun other ↦ !other == id).length < size :=
        bound ▸ Nat.lt_succ_of_le (List.length_filter_le _ rest)
      rw [List.eraseDups_cons, List.nodup_cons]
      exact ⟨by simp, ih _ shorter _ rfl⟩

theorem eraseDups_of_nodup {ids : List Nat} (nodup : ids.Nodup) : ids.eraseDups = ids := by
  induction ids with
  | nil => rfl
  | cons id rest ih =>
    obtain ⟨new, others⟩ := List.nodup_cons.1 nodup
    rw [List.eraseDups_cons, List.filter_eq_self.2, ih others]
    intro other mem
    simpa using fun same : other = id ↦ new (same ▸ mem)

/-- The first id of a kind is the first that is no repetition. -/
theorem find?_eraseDups (p : Nat → Bool) (ids : List Nat) :
    ids.eraseDups.find? p = ids.find? p := by
  induction bound : ids.length using Nat.strong_induction_on generalizing ids with
  | _ size ih =>
    rcases ids with - | ⟨id, rest⟩
    · rfl
    · rw [List.length_cons] at bound
      have shorter : (rest.filter fun other ↦ !other == id).length < size :=
        bound ▸ Nat.lt_succ_of_le (List.length_filter_le _ rest)
      rw [List.eraseDups_cons, List.find?_cons, List.find?_cons, ih _ shorter _ rfl,
        List.find?_filter]
      rcases known : p id with - | -
      · -- What is filtered out is not of the kind either.
        refine congrArg (rest.find? ·) (funext fun other ↦ ?_)
        by_cases same : other = id
        · simp [same, known]
        · simp [same]
      · rfl

/-- Ids that refer to every entry, and to entries only, are as many as there are entries. -/
theorem length_eraseDups_of_covers {ids : List Nat} {count : Nat}
    (inside : ∀ id ∈ ids, id < count) (covers : ∀ id < count, id ∈ ids) :
    ids.eraseDups.length = count := by
  have perm : ids.eraseDups.Perm (List.range count) := by
    refine (List.perm_ext_iff_of_nodup (nodup_eraseDups ids) List.nodup_range).2 fun id ↦ ?_
    rw [List.mem_eraseDups, List.mem_range]
    exact ⟨inside id, covers id⟩
  rw [perm.length_eq, List.length_range]

/-- Ids of entries that are as many as the entries refer to every entry. -/
theorem mem_of_length_eraseDups {ids : List Nat} {count : Nat} (inside : ∀ id ∈ ids, id < count)
    (whole : ids.eraseDups.length = count) {id : Nat} (room : id < count) : id ∈ ids := by
  have within : ∀ id ∈ ids.eraseDups, id ∈ List.range count := fun id mem ↦
    List.mem_range.2 (inside id (List.mem_eraseDups.1 mem))
  have perm : ids.eraseDups.Perm (List.range count) :=
    ((nodup_eraseDups ids).subperm within).perm_of_length_le (by simp [whole])
  exact List.mem_eraseDups.1 (perm.mem_iff.2 (List.mem_range.2 room))

/-- There are no more distinct positions than positions. -/
theorem length_le_of_nodup {positions : List Nat} {count : Nat} (distinct : positions.Nodup)
    (inside : ∀ position ∈ positions, position < count) : positions.length ≤ count := by
  have within : positions ⊆ List.range count := fun position mem ↦
    List.mem_range.2 (inside position mem)
  simpa using (distinct.subperm within).length_le

/-- Ids that are as many as their distinct ones are distinct. -/
theorem nodup_of_length_eraseDups {ids : List Nat} (same : ids.eraseDups.length = ids.length) :
    ids.Nodup := by
  have perm : ids.eraseDups.Perm ids :=
    ((nodup_eraseDups ids).subperm fun _ mem ↦ List.mem_eraseDups.1 mem).perm_of_length_le same.ge
  exact perm.nodup_iff.1 (nodup_eraseDups ids)

theorem length_eraseDups_le (ids : List Nat) : ids.eraseDups.length ≤ ids.length :=
  ((nodup_eraseDups ids).subperm fun _ mem ↦ List.mem_eraseDups.1 mem).length_le

theorem length_eraseDups_iff_nodup {ids : List Nat} :
    ids.eraseDups.length = ids.length ↔ ids.Nodup :=
  ⟨nodup_of_length_eraseDups, fun distinct ↦ congrArg List.length (eraseDups_of_nodup distinct)⟩

@[simp] theorem length_renumber (ids : List Nat) : (renumber ids).length = ids.length := by
  simp [renumber]

/-- **Renumbered ids lead back to the ids.** -/
theorem getElem?_renumber (ids : List Nat) (i : Nat) :
    (renumber ids)[i]?.bind (ids.eraseDups[·]?) = ids[i]? := by
  rw [renumber, List.getElem?_map]
  rcases found : ids[i]? with - | id
  · rfl
  · have mem : id ∈ ids.eraseDups := List.mem_eraseDups.2 (List.mem_of_getElem? found)
    have inside := List.idxOf_lt_length_of_mem mem
    rw [Option.map_some, Option.bind_some, List.getElem?_eq_getElem inside, List.getElem_idxOf]

/-- Renumbered ids refer to every one of the distinct ids. -/
theorem mem_renumber_of_lt {ids : List Nat} {id : Nat} (inside : id < ids.eraseDups.length) :
    id ∈ renumber ids := by
  rw [← (nodup_eraseDups ids).idxOf_getElem id inside]
  exact List.mem_map_of_mem (List.mem_eraseDups.1 (List.getElem_mem inside))

/-- Distinct ids are renumbered in order. -/
theorem renumber_of_nodup {ids : List Nat} (distinct : ids.Nodup) :
    renumber ids = List.range ids.length := by
  refine List.ext_getElem (by simp) fun i inside room ↦ ?_
  simp only [renumber, eraseDups_of_nodup distinct, List.getElem_map, List.getElem_range]
  exact distinct.idxOf_getElem i _

/-- Only distinct ids are renumbered in order. -/
theorem nodup_of_increasing_renumber {ids : List Nat} (grows : increasing (renumber ids) = true) :
    ids.Nodup :=
  List.Nodup.of_map _ ((increasing_iff_pairwise.1 grows).imp Nat.ne_of_lt)

theorem increasing_range (count : Nat) : increasing (List.range count) = true :=
  increasing_iff_pairwise.2 List.pairwise_lt_range

theorem lt_of_mem_renumber {ids : List Nat} {id : Nat} (mem : id ∈ renumber ids) :
    id < ids.eraseDups.length := by
  obtain ⟨old, found, rfl⟩ := List.mem_map.1 mem
  exact List.idxOf_lt_length_of_mem (List.mem_eraseDups.2 found)

/-- Ids that grow, each the position of one of as many entries as there are ids, are `0, 1, 2, …` -/
theorem eq_range_of_increasing {ids : List Nat} (grows : increasing ids = true)
    (inside : ∀ id ∈ ids, id < ids.length) : ids = List.range ids.length := by
  have sorted : ids.Pairwise (· < ·) := increasing_iff_pairwise.1 grows
  have distinct : ids.Nodup := sorted.imp Nat.ne_of_lt
  have perm : ids.Perm (List.range ids.length) :=
    (distinct.subperm fun id mem ↦ List.mem_range.2 (inside id mem)).perm_of_length_le (by simp)
  exact perm.eq_of_pairwise (fun _ _ _ _ lt gt ↦ absurd lt (Nat.lt_asymm gt)) sorted
    (List.pairwise_lt_range)

end BatchColumn
