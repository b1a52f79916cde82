import BatchColumn.Proofs.Loaded
import BatchColumn.Proofs.Regions

/-!
# Input that is decoded

Byte strings and lists are cut by offsets: an entry is made of the items from one offset to the
next, unless its flag marks it as null. The constructors check what they are handed step by step —
whether there are offsets, whether one is followed by a smaller one, whether the last one leaves the
items, whether there is a flag for each entry, and whether lists that are flagged are empty. What
passes all checks is just what can be decoded (`Cuts`, `Hollow`), and all else is rejected as an
argument (`Validates`, with one rule for each check).

What the block holds is then what the input spells out (`decode`). Byte strings are in the block, so
this is told from the leaf alone; the items of lists are the values of their elements, which may
have to be loaded. The other way round, byte strings that are laid out one after the other are found
as they were (`Reachable.decodes`).
-/

namespace BatchColumn

variable {α β : Type} {K : Census} {loads : Loads} {ledger : Ledger} {store : Store}

/-! ### What can be decoded -/

/-- Offsets, and flags if there are any, cut so many items into entries. -/
structure Cuts (offsets : List Nat) (nulls : Option (List Bool)) (size : Nat) : Prop where
  /-- There is an offset, if only for the end of no entries. -/
  nonempty : offsets ≠ []
  /-- No offset is followed by a smaller one. -/
  sorted : offsets.Pairwise (· ≤ ·)
  /-- The last one stays within the items. -/
  within : ∀ last, offsets.getLast? = some last → last ≤ size
  /-- There is a flag for each entry. -/
  flagged : ∀ flags, nulls = some flags → flags.length = offsets.length - 1

/-- Entries that are flagged are empty. -/
def Hollow (offsets : List Nat) (nulls : Option (List Bool)) : Prop :=
  ∀ position start stop, (nulls.getD [])[position]? = some true →
    offsets[position]? = some start → offsets[position + 1]? = some stop → start = stop

/-- The values of the entries: null where flagged, and otherwise made of the items from one offset
to the next. -/
def decode (make : List α → Value) (items : List α) (offsets : List Nat)
    (nulls : Option (List Bool)) : List Value :=
  (List.range (offsets.length - 1)).map fun position ↦
    if (nulls.getD []).getD position false then .null
    else make (stretch items (offsets.getD position 0)
      (offsets.getD (position + 1) 0 - offsets.getD position 0))

/-! ### Checks -/

/-- The attempt accepts just what is good, and rejects all else as an argument that is invalid. -/
structure Validates (result : Except Fault α) (good : Prop) : Prop where
  /-- It accepts what is good, and nothing else. -/
  accepts : (∃ a, result = .ok a) ↔ good
  /-- What it reports is the argument. -/
  rejects : ∀ fault, result = .error fault →
    ∃ name text, fault = .error (.invalidArgument name text)

namespace Validates

variable {p q : Prop}

theorem of_ok (a : α) : Validates (.ok a) True :=
  ⟨⟨fun _ ↦ trivial, fun _ ↦ ⟨a, rfl⟩⟩, nofun⟩

theorem congr {result : Except Fault α} (valid : Validates result p) (iff : p ↔ q) :
    Validates result q :=
  ⟨valid.accepts.trans iff, valid.rejects⟩

/-- What a check passes goes on to the next one. -/
protected theorem bind {first : Except Fault α} {rest : α → Except Fault β}
    (valid : Validates first p) (next : ∀ a, Validates (rest a) q) :
    Validates (first >>= rest) (p ∧ q) := by
  rcases first with fault | a
  · have bad : ¬ p := fun good ↦ nomatch valid.accepts.2 good
    refine ⟨⟨nofun, fun good ↦ absurd good.1 bad⟩, fun other same ↦ ?_⟩
    exact valid.rejects other (congrArg _ (Except.error.inj same))
  · have good : p := valid.accepts.1 ⟨a, rfl⟩
    exact ⟨(next a).accepts.trans (and_iff_right good).symm, (next a).rejects⟩

/-- What passes the last check is accepted. -/
theorem answer {first : Except Fault α} (valid : Validates first p) (make : α → β) :
    Validates (first >>= fun a ↦ .ok (make a)) p :=
  (valid.bind fun a ↦ of_ok (make a)).congr (and_iff_left trivial)

/-- A condition on an argument. -/
theorem verify (holds : Bool) (name condition : String) :
    Validates (liftM (verifyArgument holds name condition)) (holds = true) := by
  cases holds
  · exact ⟨⟨nofun, nofun⟩, fun fault same ↦ ⟨name, condition, (Except.error.inj same).symm⟩⟩
  · exact (of_ok ()).congr (iff_of_true trivial rfl)

/-- The check of offsets. -/
theorem offsets (offsets : List Nat) (count size : Nat) :
    Validates (liftM (checkOffsets offsets count size))
      (offsets.length = count + 1 ∧ nondecreasing offsets = true ∧
        offsets.getD count 0 ≤ size) := by
  rw [← checkOffsets_eq_ok_iff]
  rcases ends : checkOffsets offsets count size with cause | passed
  · refine ⟨⟨nofun, nofun⟩, fun fault same ↦ ?_⟩
    obtain rfl : .error cause = fault := Except.error.inj same
    rw [checkOffsets] at ends
    split at ends
    · exact ⟨_, _, congrArg _ (Except.error.inj ends).symm⟩
    · split at ends
      · exact ⟨_, _, congrArg _ (Except.error.inj ends).symm⟩
      · split at ends
        · exact ⟨_, _, congrArg _ (Except.error.inj ends).symm⟩
        · cases ends
  · exact (of_ok ()).congr (iff_of_true trivial rfl)

end Validates

/-- The checks that the two constructors have in common are passed by what cuts the items. -/
theorem cuts_iff {offsets : List Nat} {nulls : Option (List Bool)} {size : Nat} :
    Cuts offsets nulls size ↔ (!offsets.isEmpty) = true ∧
      (offsets.length = offsets.length - 1 + 1 ∧ nondecreasing offsets = true ∧
        offsets.getD (offsets.length - 1) 0 ≤ size) ∧
      nulls.all (·.length == offsets.length - 1) = true := by
  have last : ∀ number, offsets.getLast? = some number →
      offsets.getD (offsets.length - 1) 0 = number := fun number found ↦ by
    rw [List.getD_eq_getElem?_getD, ← List.getLast?_eq_getElem?, found, Option.getD_some]
  constructor
  · intro cuts
    have room := List.length_pos_of_ne_nil cuts.nonempty
    refine ⟨by simpa using cuts.nonempty,
      ⟨by omega, nondecreasing_iff_pairwise.2 cuts.sorted, ?_⟩, ?_⟩
    · have found := List.getLast?_eq_some_getLast cuts.nonempty
      exact (last _ found).trans_le (cuts.within _ found)
    · rcases nulls with - | flags
      · rfl
      · simpa using cuts.flagged flags rfl
  · rintro ⟨nonempty, ⟨-, sorted, within⟩, flagged⟩
    refine ⟨by simpa using nonempty, nondecreasing_iff_pairwise.1 sorted,
      fun number found ↦ (last number found).symm.trans_le within, ?_⟩
    rintro flags rfl
    simpa using flagged

theorem cuts_cons_iff {first : Nat} {ends : List Nat} {nulls : Option (List Bool)} {size : Nat} :
    Cuts (first :: ends) nulls size ↔
      ((first :: ends).length = ends.length + 1 ∧ nondecreasing (first :: ends) = true ∧
        (first :: ends).getD ends.length 0 ≤ size) ∧
      nulls.all (·.length == ends.length) = true :=
  cuts_iff.trans (and_iff_right rfl)

/-- The check of empty lists. -/
theorem hollow_iff {first : Nat} {ends : List Nat} {nulls : Option (List Bool)} :
    Hollow (first :: ends) nulls ↔ ((nulls.getD []).zip ((first :: ends).zip ends)).all
      (fun (null, start, stop) ↦ !null || start == stop) = true :=
  all_hollow_iff.symm

/-! ### Making blocks -/

/-- Two steps that may be refused, among calls that may panic. -/
theorem lift_bind (first : Except Error α) (rest : α → Except Error β) :
    (liftM (first >>= rest) : Except Fault β) = liftM first >>= fun a ↦ liftM (rest a) := by
  rcases first with cause | a <;> rfl

/-- A query goes on if a check does not refuse. -/
theorem Query.fst_outcome_check_bind (check : Except Error α) (rest : α → Query β) :
    ((liftM check >>= rest).outcome loads ledger).1 =
      (liftM check : Except Fault α) >>= fun a ↦ ((rest a).outcome loads ledger).1 := by
  rcases check with cause | a <;> rfl

/-- **Bytes are accepted just if offsets and flags cut them.** -/
theorem Slices.ofBytes?_validates (storages : Storages) (bytes : List UInt8) (offsets : List Nat)
    (nulls : Option (List Bool)) :
    Validates (liftM (ofBytes? storages bytes offsets nulls))
      (Cuts offsets nulls bytes.length) := by
  rw [cuts_iff, ofBytes?, lift_bind]
  refine .bind (.verify _ _ _) fun _ ↦ ?_
  rw [lift_bind]
  refine .bind (.offsets _ _ _) fun _ ↦ ?_
  rw [lift_bind]
  exact .answer (.verify _ _ _) _

namespace Block

theorem mkSlices_validates (bytes : List UInt8) (offsets : List Nat) (nulls : Option (List Bool)) :
    Validates ((mkSlices bytes offsets nulls).outcome loads ledger).1
      (Cuts offsets nulls bytes.length) := by
  show Validates ((liftM (Slices.ofBytes? _ bytes offsets nulls) >>= fun leaf ↦
    (return slices leaf : Query Block)).outcome loads _).1 _
  rw [Query.fst_outcome_check_bind]
  exact (Slices.ofBytes?_validates _ bytes offsets nulls).answer slices

/-- **Elements are accepted just if offsets and flags cut them**, and lists that are flagged are
empty. -/
theorem mkArray_validates (elements : Block) (offsets : List Nat) (nulls : Option (List Bool)) :
    Validates ((elements.mkArray offsets nulls).outcome loads ledger).1
      (Cuts offsets nulls elements.positionCount ∧ Hollow offsets nulls) := by
  rw [mkArray.eq_def]
  rcases offsets with - | ⟨first, ends⟩
  · -- There are no offsets, which is reported.
    refine ⟨⟨?_, fun good ↦ absurd rfl good.1.nonempty⟩, fun _ same ↦ ?_⟩
    · rintro ⟨_, ⟨⟩⟩
    · exact ⟨_, _, (Except.error.inj same).symm⟩
  · dsimp only
    rw [cuts_cons_iff, hollow_iff, and_assoc, Query.fst_outcome_check_bind]
    refine .bind (.offsets _ _ _) fun _ ↦ ?_
    rw [Query.fst_outcome_check_bind]
    refine .bind (.verify _ _ _) fun _ ↦ ?_
    rw [Query.fst_outcome_check_bind]
    obtain ⟨memory, after, run⟩ := elements.exists_outcome_duplicate loads ledger
    simp only [Query.outcome_bind_of_ok run]
    exact .answer (.verify _ _ _) _

end Block

/-! ### Byte strings are read from the leaf -/

/-- Calls at consecutive numbers that change nothing. -/
theorem Session.outcome_mapFrom {call : Nat → Session α} {answer : Nat → α} {start count : Nat}
    (each : ∀ i, start ≤ i → i < start + count → (call i).outcome store = (.ok (answer i), store)) :
    (mapFrom start count call).outcome store =
      (.ok ((List.range' start count).map answer), store) := by
  rw [mapFrom_eq_mapM]
  induction count generalizing start with
  | zero => rfl
  | succ count ih =>
    rw [List.range'_succ, List.mapM_cons,
      Session.outcome_bind_of_ok (each start (Nat.le_refl _) (by omega)),
      Session.outcome_bind_of_ok (ih fun i above room ↦ each i (by omega) (by omega))]
    rfl

namespace Block

/-- The values of byte strings are those of the data in the leaf. -/
theorem outcome_values_slices {leaf : Slices} (intact : leaf.Intact) {data : List Datum}
    (count : leaf.count = data.length) (held : ∀ i, leaf.datum? i = data[i]?) (store : Store) :
    (slices leaf).values.outcome store = (.ok (data.map Datum.value), store) := by
  have each : ∀ i, 0 ≤ i → i < 0 + leaf.count → ((slices leaf).value i).outcome store =
      (.ok ((data[i]?.map Datum.value).getD .null), store) := by
    intro i _ room
    obtain ⟨datum, listed⟩ : ∃ datum, data[i]? = some datum :=
      ⟨_, List.getElem?_eq_getElem (by omega)⟩
    rw [value, reveal, pure_bind]
    dsimp only
    rw [Session.outcome_attempt, Slices.value_eq intact, held, listed]
    rfl
  refine (Session.outcome_mapFrom each).trans ?_
  rw [count]
  congr 2
  refine List.ext_getElem (by simp) fun i room _ ↦ ?_
  have inside : i < data.length := by simpa using room
  simp [List.getElem?_eq_getElem inside]

/-- The data of byte strings, in a row. -/
theorem data_slices (leaf : Slices) :
    let data := (List.range leaf.count).map fun p ↦
      Datum.slice (leaf.nulls.marks p) (leaf.octets p)
    leaf.count = data.length ∧ ∀ i, leaf.datum? i = data[i]? := by
  refine ⟨by simp, fun i ↦ ?_⟩
  rcases Nat.lt_or_ge i leaf.count with inside | outside
  · rw [Slices.datum?_of_lt inside, List.getElem?_map, List.getElem?_range inside, Option.map_some]
  · rw [Slices.datum?_of_le outside, List.getElem?_eq_none (by simpa using outside)]

/-- Data along the entries have the values that the entries decode to. -/
theorem map_value_eq_decode {make : List α → Value} {items : List α} {offsets : List Nat}
    {nulls : Option (List Bool)} {datum : Nat → Datum}
    (each : ∀ p < offsets.length - 1, (datum p).value =
      if (nulls.getD []).getD p false then .null
      else make (stretch items (offsets.getD p 0) (offsets.getD (p + 1) 0 - offsets.getD p 0))) :
    ((List.range (offsets.length - 1)).map datum).map Datum.value =
      decode make items offsets nulls := by
  rw [List.map_map, decode]
  exact List.map_congr_left fun p mem ↦ each p (List.mem_range.1 mem)

/-- **Bytes that are accepted read as the offsets and flags say**, whatever is loaded. -/
theorem values_of_mkSlices {bytes : List UInt8} {offsets : List Nat} {nulls : Option (List Bool)}
    (narrow : ∀ offset ∈ offsets, offset < 2 ^ 32) {b : Block} {after : Ledger}
    (run : (mkSlices bytes offsets nulls).outcome loads ledger = (.ok b, after)) (store : Store) :
    b.values.outcome store = (.ok (decode .bytes bytes offsets nulls), store) := by
  obtain ⟨storages, middle, -, run⟩ := Query.exists_of_outcome_bind run
  obtain ⟨leaf, _, checked, ⟨⟩⟩ := Query.exists_of_outcome_bind run
  rcases made : Slices.ofBytes? storages bytes offsets nulls with cause | other
  all_goals rw [made] at checked
  · cases checked
  · cases checked
    have intact := Slices.intact_of_ofBytes? made narrow
    obtain rfl := Slices.eq_of_ofBytes? made
    have size : (View.ofList storages.offsets offsets).length - 1 = offsets.length - 1 := rfl
    rw [outcome_values_slices intact (data_slices _).1 (data_slices _).2, Slices.count, size,
      map_value_eq_decode fun p _ ↦ ?_]
    rw [Datum.value, Nulls.marks_ofFlags?, Slices.octets, Slices.start, Slices.start,
      View.toList_ofList, View.toList_ofList]

/-- Bytes before the first offset and after the last one are in no entry, and those of an entry that
is flagged are not read. -/
example : decode .bytes [97, 98, 99, 100] [1, 2, 2, 3] (some [false, false, true]) =
    [.bytes [98], .bytes [], .null] := by rfl

/-- **Byte strings that fit together are laid out, and found as they were.** -/
theorem values_of_mkSlicesOfOptions {values : List (Option (List UInt8))}
    (room : ((values.map (·.getD [])).map List.length).sum < 2 ^ 32) :
    ∃ b after, (mkSlicesOfOptions values).outcome loads ledger = (.ok b, after) ∧
      ∀ store, b.values.outcome store =
        (.ok (values.map fun value ↦ value.elim .null .bytes), store) := by
  let data := values.map fun value ↦ Datum.slice value.isNone (value.getD [])
  let storages : Slices.Storages := ⟨ledger.next, ledger.next + 1, ledger.next + 2⟩
  obtain ⟨leaf, laid, intact, count, held⟩ :
      ∃ leaf, Slices.ofSlices storages values = .ok leaf ∧ _ := Slices.ofSlices_eq_ok room
  have taken : (liftM Slices.Storages.fresh : Query Slices.Storages).outcome loads ledger =
      (.ok storages, { ledger with next := ledger.next + 3 }) := rfl
  have run : (mkSlicesOfOptions values).outcome loads ledger =
      (.ok (slices leaf), { ledger with next := ledger.next + 3 }) := by
    rw [mkSlicesOfOptions, Query.outcome_bind_of_ok taken, laid]
    rfl
  refine ⟨_, _, run, fun store ↦ ?_⟩
  have size : leaf.count = data.length := by rw [count, List.length_map]
  have found : ∀ i, leaf.datum? i = data[i]? := fun i ↦ by rw [held, List.getElem?_map]
  rw [outcome_values_slices intact size found, List.map_map]
  congr 2
  refine List.map_congr_left fun value _ ↦ ?_
  cases value <;> rfl

/-! ### Lists are read from their elements -/

variable {b elements : Block} {offsets : List Nat} {nulls : Option (List Bool)}

/-- Values that are answered are those of data that are held at all positions. -/
theorem exists_data_of_values (sound : Sound K store.loads store.ledger) (mem : b ∈ K)
    {answers : List Value} (run : (b.values.outcome store).1 = .ok answers) :
    ∃ data : List Datum, (∀ i, b.datum? i = data[i]?) ∧ data.map Datum.value = answers := by
  have meets : b.values.Meets K (fun _ ↦ List.Forall₂
      (fun i v ↦ ∃ datum, b.datum? i = some datum ∧ datum.value = v)
      (List.range' 0 b.positionCount)) fun _ ↦ ¬ b.Loadable :=
    .mapFrom fun L later i _ room ↦ (value_reads (Census.mem_of_le later mem) i).total
      (Census.mem_of_le later mem) (by omega)
  obtain ⟨L, -, -, ends⟩ := meets store sound
  rw [run] at ends
  obtain ⟨size, each⟩ := List.forall₂_iff_get.1 ends
  have found : ∀ i, (inside : i < answers.length) →
      ∃ datum, b.datum? i = some datum ∧ datum.value = answers[i] := fun i inside ↦ by
    simpa using each i (size ▸ inside) inside
  rw [List.length_range'] at size
  obtain ⟨data, count, held⟩ := exists_data_of_datum fun i inside ↦
    (found i (size ▸ inside)).imp fun _ ↦ And.left
  refine ⟨data, held, List.ext_getElem (by simp [← size, count]) fun i room inside ↦ ?_⟩
  obtain ⟨datum, there, value⟩ := found i inside
  rw [held, List.getElem?_eq_getElem (by simpa using room)] at there
  rw [List.getElem_map, Option.some.inj there, value]

/-- All positions are read if all promises will be kept, or have been. -/
theorem exists_values (sound : Sound K store.loads store.ledger) (mem : b ∈ K)
    (kept : b.Loadable ∨ b.isLoaded store.loads = true) :
    ∃ answers, (b.values.outcome store).1 = .ok answers := by
  rcases kept with kept | loaded
  · obtain ⟨answers, _, run⟩ :=
      (values_meets mem).exists_answer sound fun _ ↦ not_not.2 kept
    exact ⟨answers, congrArg Prod.fst run⟩
  · have meets : b.values.Meets (K.note store.loads)
        (fun _ ↦ List.Forall₂ (fun _ _ ↦ True) (List.range' 0 b.positionCount)) fun _ ↦ False :=
      .mapFrom fun L later i _ room ↦
        value_answers (Census.mem_of_le later mem) later.seen loaded (by omega)
    obtain ⟨answers, _, run⟩ := meets.exists_answer sound.note fun _ ↦ id
    exact ⟨answers, congrArg Prod.fst run⟩

/-- The block made of elements cuts the elements themselves, up to what they remember. -/
theorem exists_of_mkArray {after : Ledger}
    (run : (elements.mkArray offsets nulls).outcome loads ledger = (.ok b, after)) :
    ∃ first ends storage handle memory flags other, offsets = first :: ends ∧
      b = array (.ofEnds storage handle memory first ends (.ofFlags? flags nulls))
        (elements.withMemory other) := by
  rw [mkArray.eq_def] at run
  rcases offsets with - | ⟨first, ends⟩
  · cases run
  · obtain ⟨_, _, -, run⟩ := Query.exists_of_outcome_bind run
    obtain ⟨_, _, -, run⟩ := Query.exists_of_outcome_bind run
    obtain ⟨_, _, -, run⟩ := Query.exists_of_outcome_bind run
    obtain ⟨copy, middle, duplicated, run⟩ := Query.exists_of_outcome_bind run
    obtain ⟨other, _, answered⟩ := elements.exists_outcome_duplicate _ _
    obtain ⟨⟩ := answered.symm.trans duplicated
    obtain ⟨⟩ := run
    exact ⟨first, ends, _, _, _, _, other, rfl, rfl⟩

/-- The data of lists, in a row. -/
theorem data_array {data : List Datum} (held : ∀ i, elements.datum? i = data[i]?)
    (storage handle memory first : Nat) (ends : List Nat) (nulls : Nulls) (i : Nat) :
    (array (.ofEnds storage handle memory first ends nulls) elements).datum? i =
      ((List.range ends.length).map fun p ↦ Datum.list (nulls.marks p)
        (stretch data ((first :: ends).getD p 0)
          ((first :: ends).getD (p + 1) 0 - (first :: ends).getD p 0)))[i]? := by
  let lists : Lists := .ofEnds storage handle memory first ends nulls
  rcases Nat.lt_or_ge i ends.length with inside | outside
  · have items : (lists.members i).filterMap elements.datum? = stretch data (lists.start i)
        (lists.start (i + 1) - lists.start i) := by
      have bare : elements.datum? = fun i ↦ data[i]?.bind some := by
        funext i
        rw [held, Option.bind_fun_some]
      rw [Lists.members, bare]
      exact (filterMap_range'_listed some data _ _).trans List.filterMap_some
    have datum : (array lists elements).datum? i =
        some (.list (nulls.marks (0 + i)) ((lists.members i).filterMap elements.datum?)) :=
      Lists.datum?_of_lt inside
    rw [datum, items, Nat.zero_add, Lists.start_ofEnds, Lists.start_ofEnds, List.getElem?_map,
      List.getElem?_range inside, Option.map_some]
  · have beyond : (array lists elements).datum? i = none := datum?_of_le outside
    rw [beyond, List.getElem?_eq_none (by simpa using outside)]

end Block

/-- Values that were answered anywhere are those of data. -/
theorem Block.MayAnswer.exists_data {b : Block} {answers : List Value}
    (may : b.MayAnswer b.values answers) :
    ∃ data : List Datum, (∀ i, b.datum? i = data[i]?) ∧ data.map Datum.value = answers := by
  obtain ⟨w, reachable, held, run⟩ := may
  obtain ⟨K, sound, known⟩ := reachable.sound
  exact exists_data_of_values sound (known b held) run

/-- **Lists that are accepted read as the offsets and flags say**, wherever they and their elements
are read. -/
theorem Block.values_of_mkArray {b elements : Block} {offsets : List Nat}
    {nulls : Option (List Bool)} {after : Ledger}
    (run : (elements.mkArray offsets nulls).outcome loads ledger = (.ok b, after))
    {items answers : List Value} (read : elements.MayAnswer elements.values items)
    (answered : b.MayAnswer b.values answers) : answers = decode .list items offsets nulls := by
  obtain ⟨first, ends, storage, handle, memory, flags, other, rfl, rfl⟩ := exists_of_mkArray run
  obtain ⟨data, held, rfl⟩ := read.exists_data
  obtain ⟨lists, listed, rfl⟩ := answered.exists_data
  have copied : ∀ i, (elements.withMemory other).datum? i = data[i]? := fun i ↦ by
    rw [(elements.mirrors_withMemory other).datum, held]
  have same : lists = _ := List.ext_getElem? fun i ↦
    (listed i).symm.trans (data_array copied storage handle memory first ends _ i)
  have size : ends.length = (first :: ends).length - 1 := rfl
  rw [same, size]
  refine map_value_eq_decode fun p _ ↦ ?_
  rw [Datum.value_list, Nulls.marks_ofFlags?]
  simp [stretch, List.map_take, List.map_drop]

/-! ### In reachable worlds -/

/-- How a block that is made of elements reads, from a world on. -/
structure Block.ReadsLists (b elements : Block) (offsets : List Nat) (nulls : Option (List Bool))
    (w : World) : Prop where
  /-- Wherever it answers, and wherever the elements do, its values are lists of theirs. -/
  agrees : ∀ items answers, elements.MayAnswer elements.values items →
    b.MayAnswer b.values answers → answers = decode .list items offsets nulls
  /-- Both answer if the elements are loaded, or will be. -/
  answers : ∀ allowed later, w.Leads allowed later →
    elements.Loadable ∨ elements.isLoaded later.store.loads = true →
      ∃ items, (elements.values.outcome later.store).1 = .ok items ∧
        (b.values.outcome later.store).1 = .ok (decode .list items offsets nulls)

/-- How input is decoded in a world. -/
structure World.Decodes (w : World) : Prop where
  /-- Bytes are accepted just if offsets and flags cut them, and read as these say. -/
  slices : ∀ bytes offsets nulls, (∀ offset ∈ offsets, offset < 2 ^ 32) →
    Validates ((Block.mkSlices bytes offsets nulls).outcome w.store.loads w.store.ledger).1
        (Cuts offsets nulls bytes.length) ∧
      ∀ b after, (Block.mkSlices bytes offsets nulls).outcome w.store.loads w.store.ledger =
          (.ok b, after) →
        ∀ store, b.values.outcome store = (.ok (decode .bytes bytes offsets nulls), store)
  /-- Elements are accepted just if offsets and flags cut them and flagged lists are empty, and the
  lists read as these say. -/
  arrays : ∀ elements ∈ w.blocks, ∀ offsets nulls, (∀ offset ∈ offsets, offset < 2 ^ 32) →
    Validates ((elements.mkArray offsets nulls).outcome w.store.loads w.store.ledger).1
        (Cuts offsets nulls elements.positionCount ∧ Hollow offsets nulls) ∧
      ∀ b after, (elements.mkArray offsets nulls).outcome w.store.loads w.store.ledger =
          (.ok b, after) →
        b.ReadsLists elements offsets nulls (w.after (.array elements offsets nulls))
  /-- Byte strings whose lengths add up to an offset are laid out, and found as they were. -/
  options : ∀ values : List (Option (List UInt8)),
    (values.map fun value ↦ (value.getD []).length).sum < 2 ^ 32 →
      ∃ b after, (Block.mkSlicesOfOptions values).outcome w.store.loads w.store.ledger =
          (.ok b, after) ∧
        ∀ store, b.values.outcome store =
          (.ok (values.map fun value ↦ value.elim .null .bytes), store)

/-- **The constructors accept just the input that can be decoded, and decode it.** All else they
reject as an argument that is invalid. -/
theorem Reachable.decodes {w : World} (reachable : Reachable w) : w.Decodes := by
  refine ⟨fun bytes offsets nulls narrow ↦ ⟨Block.mkSlices_validates bytes offsets nulls,
    fun b after run ↦ Block.values_of_mkSlices narrow run⟩,
    fun elements held offsets nulls narrow ↦ ⟨elements.mkArray_validates offsets nulls,
      fun b after run ↦ ?_⟩, fun values small ↦ Block.values_of_mkSlicesOfOptions ?_⟩
  · have operands : ∀ c ∈ (Call.array elements offsets nulls).operands, c ∈ w.blocks := by
      simpa [Call.operands] using held
    have call : (Call.array elements offsets nulls).run.outcome w.store =
        (.ok [b], { w.store with ledger := after }) :=
      Session.outcome_one (Session.outcome_query run)
    have next : Reachable (w.after (.array elements offsets nulls)) :=
      reachable.after operands narrow
    have made : b ∈ (w.after (.array elements offsets nulls)).blocks := by
      rw [World.after_of_outcome call]
      exact List.mem_cons_self
    refine ⟨fun items answers ↦ Block.values_of_mkArray run, fun allowed later leads kept ↦ ?_⟩
    have reached := leads.reachable next
    have there := leads.mem (World.mem_after held _)
    obtain ⟨K, sound, known⟩ := reached.sound
    -- The block is loaded as its elements are.
    have own : b.Loadable ∨ b.isLoaded later.store.loads = true := by
      obtain ⟨first, ends, storage, handle, memory, flags, other, -, rfl⟩ :=
        Block.exists_of_mkArray run
      exact kept.imp (elements.mirrors_withMemory other).loadable fun loaded ↦ by simpa using loaded
    obtain ⟨items, read⟩ := Block.exists_values sound (known _ there) kept
    obtain ⟨answers, answered⟩ := Block.exists_values sound (known _ (leads.mem made)) own
    have agree := Block.values_of_mkArray run ⟨later, reached, there, read⟩
      ⟨later, reached, leads.mem made, answered⟩
    exact ⟨items, read, agree ▸ answered⟩
  · rwa [List.map_map]

/-- A byte string that is flagged may have bytes, which are not read. A list that is flagged must be
empty, or the entries of the sample are not accepted. -/
theorem World.decodes_sample :
    (∃ b after, (Block.mkSlices [97, 98, 99] [1, 2, 3] (some [true, false])).outcome
        sample.store.loads sample.store.ledger = (.ok b, after) ∧
      b.values.outcome sample.store = (.ok [.null, .bytes [99]], sample.store)) ∧
    (¬ ∃ b, ((sampleEntries.mkArray [1, 2] (some [true])).outcome sample.store.loads
      sample.store.ledger).1 = .ok b) ∧
    ∃ b after, (sampleEntries.mkArray [0, 0, 2] (some [true, false])).outcome sample.store.loads
        sample.store.ledger = (.ok b, after) ∧
      ∀ later, (sample.after (.array sampleEntries [0, 0, 2] (some [true, false]))).Leads
        (fun _ ↦ True) later → ∃ items,
          (b.values.outcome later.store).1 = .ok [.null, .list items] := by
  obtain ⟨slices, arrays, -⟩ := reachable_sample.decodes
  have held : sampleEntries ∈ sample.blocks := by simp [blocks_sample]
  refine ⟨?_, fun accepted ↦ ?_, ?_⟩
  · obtain ⟨validates, reads⟩ := slices [97, 98, 99] [1, 2, 3] (some [true, false]) (by decide)
    have cuts : Cuts [1, 2, 3] (some [true, false]) 3 :=
      ⟨by decide, by decide, by simp, by simp⟩
    obtain ⟨b, run⟩ := validates.accepts.2 cuts
    exact ⟨b, _, Prod.ext run rfl, reads b _ (Prod.ext run rfl) _⟩
  · obtain ⟨validates, -⟩ := arrays sampleEntries held [1, 2] (some [true]) (by decide)
    obtain ⟨-, hollow⟩ := validates.accepts.1 accepted
    exact absurd (hollow 0 1 2 rfl rfl rfl) (by decide)
  · obtain ⟨validates, reads⟩ :=
      arrays sampleEntries held [0, 0, 2] (some [true, false]) (by decide)
    have cuts : Cuts [0, 0, 2] (some [true, false]) sampleEntries.positionCount :=
      ⟨by decide, by decide, by simp; decide, by simp⟩
    have hollow : Hollow [0, 0, 2] (some [true, false]) := by
      intro position start stop
      rcases position with - | - | position <;> simp
      rintro rfl rfl
      rfl
    obtain ⟨b, run⟩ := validates.accepts.2 ⟨cuts, hollow⟩
    refine ⟨b, _, Prod.ext run rfl, fun later leads ↦ ?_⟩
    obtain ⟨items, -, read⟩ := (reads b _ (Prod.ext run rfl)).answers _ later leads (.inl trivial)
    exact ⟨_, read⟩

end BatchColumn
