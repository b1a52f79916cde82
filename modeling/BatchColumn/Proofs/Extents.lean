import BatchColumn.Proofs.Weights

/-!
# Extents and the weight of their positions

Sizing an extent takes other ways than sizing a mask: offsets are subtracted, and all of a
dictionary block is sized by its statistics, which merge directly nested dictionaries. What is
worked out is compared with the weight of the positions of the extent, by induction on the layers
(`Sound.weighs`): it is never more, and it is just that unless somewhere below all of a dictionary
block is sized whose entries are a dictionary block (`Block.Unmerged`). Merging is what makes the
size of the whole fall short of the weight of its positions, by the ids of the inner dictionaries.

The elements of consecutive lists are consecutive (`Lists.Intact.covered_region`), so extents are
extents of the elements again. Entries that keys refer to are not: below a proper part of a
dictionary block everything is sized by masks.
-/

namespace BatchColumn

/-! ### Regions as masks -/

/-- The positions of an extent of `count`. -/
def Extent.mask (count : Nat) (extent : Extent) : Mask :=
  .region extent.offset (extent.length count)

/-- The elements of consecutive lists are consecutive. -/
theorem Lists.Intact.covered_region {lists : Lists} {size : Nat} (intact : lists.Intact size)
    {offset length : Nat} (fits : offset + length ≤ lists.count) :
    lists.covered (.region offset length) = .region (lists.start offset)
      (lists.start (offset + length) - lists.start offset) := by
  have ordered := intact.start_le_start (Nat.le_add_right offset length) fits
  refine Mask.ext fun i ↦ ?_
  rw [covered_eq_true, Mask.region_eq_true, Nat.add_sub_cancel' ordered]
  constructor
  · rintro ⟨p, inside, marked, mem⟩
    rw [Mask.region_eq_true] at marked
    rw [mem_members] at mem
    have first := intact.start_le_start marked.1 (by omega)
    have last := intact.start_le_start (show p + 1 ≤ offset + length by omega) fits
    omega
  · rintro ⟨first, last⟩
    -- The list that holds the element is the last one that starts no later.
    induction length with
    | zero => exact absurd last (Nat.not_lt.2 first)
    | succ length ih =>
      rcases Nat.lt_or_ge i (lists.start (offset + length)) with before | here
      · obtain ⟨p, inside, marked, mem⟩ := ih (by omega)
          (intact.start_le_start (Nat.le_add_right offset length) (by omega)) before
        rw [Mask.region_eq_true] at marked
        exact ⟨p, inside, Mask.region_eq_true.2 (by omega), mem⟩
      · exact ⟨offset + length, fits, Mask.region_eq_true.2 (by omega),
          mem_members.2 ⟨here, last⟩⟩

/-- Consecutive positions refer to consecutive ids. -/
theorem Keys.referred_region (keys : Keys) (offset length : Nat) :
    keys.referred (.region offset length) =
      fun id ↦ (stretch keys.toList offset length).contains id := by
  refine Mask.ext fun id ↦ ?_
  simp only [referred_eq_true, List.contains_iff_mem, Mask.region_eq_true, List.mem_iff_getElem?,
    getElem?_stretch]
  constructor
  · rintro ⟨p, found, first, last⟩
    refine ⟨p - offset, ?_⟩
    rwa [if_pos (by omega), Nat.add_sub_cancel' first]
  · rintro ⟨i, found⟩
    split at found
    next inside => exact ⟨offset + i, found, by omega, by omega⟩
    next => cases found

/-- All positions refer to all ids. -/
theorem Keys.referred_of_isWhole {keys : Keys} {extent : Extent}
    (whole : extent.isWhole keys.count = true) :
    keys.referred (extent.mask keys.count) = fun id ↦ keys.toList.contains id := by
  obtain ⟨first, all⟩ : extent.offset = 0 ∧ extent.length keys.count = keys.count := by
    simpa [Extent.isWhole] using whole
  rw [Extent.mask, first, all, referred_region, ← keys.length_toList, stretch_all]

namespace Block

variable {loads : Loads}

/-- A region of lists weighs what its elements weigh, and something for each list. -/
theorem weight_array_region (loads : Loads) {lists : Lists} {elements : Block}
    (formed : lists.Intact elements.positionCount) {offset length : Nat}
    (fits : offset + length ≤ lists.count) :
    (array lists elements).weight loads (.region offset length) =
      elements.weight loads (.region (lists.start offset)
        (lists.start (offset + length) - lists.start offset)) + Lists.overhead * length := by
  rw [weight_array, formed.covered_region fits, Mask.tally_region_const fits]

/-- A region of keys weighs what the entries with its ids weigh, and something for each id. -/
theorem weight_dictionary_region (loads : Loads) {keys : Keys} {offset length : Nat}
    (fits : offset + length ≤ keys.count) (entries : Block) :
    (dictionary keys entries).weight loads (.region offset length) =
      entries.weight loads (fun id ↦ (stretch keys.toList offset length).contains id) +
        idSize * length := by
  rw [weight_dictionary, keys.referred_region, Mask.tally_region_const fits]

/-- All keys together weigh what the entries referred to weigh, and something for each id. -/
theorem weight_dictionary_of_isWhole (loads : Loads) {keys : Keys} {extent : Extent}
    (whole : extent.isWhole keys.count = true) (entries : Block) :
    (dictionary keys entries).weight loads (extent.mask keys.count) =
      entries.weight loads (fun id ↦ keys.toList.contains id) + idSize * keys.count := by
  obtain ⟨first, all⟩ : extent.offset = 0 ∧ extent.length keys.count = keys.count := by
    simpa [Extent.isWhole] using whole
  rw [weight_dictionary, Keys.referred_of_isWhole whole, Extent.mask, first, all,
    Mask.tally_region_const (Nat.zero_add _).le]

/-- Sizing the extent merges no dictionaries: it never comes to all of a dictionary block whose
entries are a dictionary block. -/
def Unmerged (loads : Loads) (b : Block) (extent : Extent) : Prop :=
  match b.face? loads with
  | some (.array lists elements _) =>
    elements.Unmerged loads (.region (lists.start extent.offset)
      (lists.start (extent.offset + extent.length lists.count) - lists.start extent.offset))
  | some (.dictionary keys entries _) => extent.isWhole keys.count = true →
    entries.isNested loads = false ∧
      (keys.toList.eraseDups.length = entries.positionCount → entries.Unmerged loads .all)
  | _ => True
termination_by b.depth

/-- Where no dictionaries are nested none are merged. -/
theorem Unnested.unmerged {b : Block} (unnested : b.Unnested loads) (extent : Extent) :
    b.Unmerged loads extent := by
  induction b using Block.walk generalizing extent with
  | step b ih =>
    rw [Unnested] at unnested
    rw [Unmerged]
    split
    next lists elements below shown =>
      rw [shown] at unnested
      exact ih elements below unnested _
    next keys entries below shown =>
      rw [shown] at unnested
      exact fun _ ↦ ⟨unnested.1, fun _ ↦ ih entries below unnested.2 .all⟩
    next => trivial

/-- What is worked out for an extent is no more than the weight of its positions, and is just that
unless dictionaries are merged. -/
def Weighs (loads : Loads) (b : Block) (extent : Extent) : Prop :=
  ∃ n, b.plainSize loads extent = .ok n ∧ n ≤ b.weight loads (extent.mask b.positionCount) ∧
    (b.Unmerged loads extent → n = b.weight loads (extent.mask b.positionCount))

/-! ### One kind of block after the other -/

namespace Weighs

/-- What is worked out is just the weight. -/
theorem of_eq {b : Block} {extent : Extent}
    (worked : b.plainSize loads extent = .ok (b.weight loads (extent.mask b.positionCount))) :
    b.Weighs loads extent :=
  ⟨_, worked, Nat.le_refl _, fun _ ↦ rfl⟩

theorem of_face {b : Block} {extent : Extent} {face : Face b.depth}
    (shown : b.face? loads = some face) (count : face.toBlock.positionCount = b.positionCount)
    (weighs : face.toBlock.Weighs loads extent) : b.Weighs loads extent := by
  obtain ⟨n, worked, le, exactly⟩ := weighs
  have weight : b.weight loads (extent.mask b.positionCount) =
      face.toBlock.weight loads (extent.mask face.toBlock.positionCount) :=
    count ▸ b.weight_of_face shown _
  have unmerged : b.Unmerged loads extent ↔ face.toBlock.Unmerged loads extent := by
    rw [Unmerged, shown]
    rcases face with leaf | leaf | ⟨lists, elements, below⟩ | ⟨keys, entries, below⟩
    all_goals rw [Face.toBlock, Unmerged, face?]
  exact ⟨n, (plainSize_of_face shown count extent).trans worked, weight ▸ le,
    fun plain ↦ weight ▸ exactly (unmerged.1 plain)⟩

end Weighs

theorem weighs_ints {leaf : Ints} {extent : Extent}
    (fits : extent.offset + extent.length leaf.count ≤ leaf.count) :
    (ints leaf).Weighs loads extent := by
  refine .of_eq ((plainSize_ints fits loads).trans ?_)
  rw [weight, face?]
  exact congrArg _ (Mask.tally_region_const fits _).symm

theorem weighs_slices {leaf : Slices} (formed : leaf.Intact) {extent : Extent}
    (fits : extent.offset + extent.length leaf.count ≤ leaf.count) :
    (slices leaf).Weighs loads extent := by
  refine .of_eq ((plainSize_slices fits loads).trans ?_)
  rw [Slices.windowSize_eq_ok formed fits, weight, face?]
  rfl

theorem weighs_array {lists : Lists} {elements : Block}
    (formed : lists.Intact elements.positionCount) {extent : Extent}
    (fits : extent.offset + extent.length lists.count ≤ lists.count)
    (weighs : elements.Weighs loads (.region (lists.start extent.offset)
      (lists.start (extent.offset + extent.length lists.count) - lists.start extent.offset))) :
    (array lists elements).Weighs loads extent := by
  obtain ⟨n, worked, le, exactly⟩ := weighs
  have weight := weight_array_region loads formed fits
  refine ⟨n + Lists.overhead * extent.length lists.count, ?_, ?_, fun unmerged ↦ ?_⟩
  · rw [plainSize_array fits, worked]
    rfl
  · exact weight ▸ Nat.add_le_add_right le _
  · rw [Unmerged, face?] at unmerged
    exact weight ▸ congrArg (· + _) (exactly unmerged)

end Block

namespace Sound

variable {K : Census} {loads : Loads} {ledger : Ledger} (sound : Sound K loads ledger)

include sound

theorem weighs_dictionary_of_part {keys : Keys} {entries : Block}
    (mem : .dictionary keys entries ∈ K) (roomy : entries.Roomy loads) {extent : Extent}
    (fits : extent.offset + extent.length keys.count ≤ keys.count)
    (part : ¬ extent.isWhole keys.count = true) :
    (Block.dictionary keys entries).Weighs loads extent := by
  refine .of_eq ((Block.plainSize_dictionary_of_part fits part loads entries).trans ?_)
  have ids : ∀ id ∈ stretch keys.toList extent.offset (extent.length keys.count),
      id < entries.positionCount :=
    fun id listed ↦ sound.formed _ mem id (mem_of_mem_stretch listed)
  rw [markUsed_eq_ok roomy.positionCount_lt ids, ok_bind,
    sound.maskSize_eq_weight (sound.entries_mem mem) roomy]
  exact congrArg Except.ok (Block.weight_dictionary_region loads fits entries).symm

theorem weighs_dictionary_of_isWhole {keys : Keys} {entries : Block}
    (mem : .dictionary keys entries ∈ K) (roomy : entries.Roomy loads)
    (weighs : entries.Weighs loads .all) {extent : Extent}
    (whole : extent.isWhole keys.count = true) :
    (Block.dictionary keys entries).Weighs loads extent := by
  have ids : ∀ id ∈ keys.toList, id < entries.positionCount := sound.formed _ mem
  have entries_mem := sound.entries_mem mem
  have weight := Block.weight_dictionary_of_isWhole loads whole entries
  suffices ∃ n, keys.plainSize loads entries (entries.plainSize loads .all) =
      .ok (n + idSize * keys.count) ∧ n ≤ entries.weight loads (fun id ↦ keys.toList.contains id) ∧
      ((Block.dictionary keys entries).Unmerged loads extent →
        n = entries.weight loads (fun id ↦ keys.toList.contains id)) by
    obtain ⟨n, worked, le, exactly⟩ := this
    exact ⟨_, (Block.plainSize_dictionary_of_isWhole whole loads entries).trans worked,
      weight ▸ Nat.add_le_add_right le _,
      fun unmerged ↦ weight ▸ congrArg (· + _) (exactly unmerged)⟩
  rw [Keys.plainSize, Block.Unmerged, Block.face?]
  split
  next covers =>
    obtain ⟨n, worked, le, exactly⟩ := weighs
    have same : entries.weight loads (Extent.all.mask entries.positionCount) =
        entries.weight loads (fun id ↦ keys.toList.contains id) :=
      sound.weight_congr entries_mem fun p inside ↦ by
        rw [Extent.mask, Bool.eq_iff_iff, Mask.region_eq_true, List.contains_iff_mem]
        exact ⟨fun _ ↦ mem_of_length_eraseDups ids covers inside,
          fun _ ↦ ⟨Nat.zero_le _, (Nat.zero_add _).symm ▸ inside⟩⟩
    rw [same] at le exactly
    rw [worked, ok_bind]
    rcases nested : entries.resolved? loads with - | ⟨inner, others⟩
    · exact ⟨n, rfl, le, fun unmerged ↦ exactly ((unmerged whole).2 covers)⟩
    · refine ⟨n - idSize * inner.count, rfl, Nat.le_trans (Nat.sub_le _ _) le, fun unmerged ↦ ?_⟩
      have flat := (unmerged whole).1
      rw [Block.isNested, nested] at flat
      cases flat
  next =>
    rw [markUsed_eq_ok roomy.positionCount_lt ids, ok_bind,
      sound.flatMaskSize_eq_flatWeight entries_mem roomy]
    refine ⟨_, rfl, Block.flatWeight_le_weight _ _ _, fun unmerged ↦ ?_⟩
    exact Block.flatWeight_of_isNested_eq_false (unmerged whole).1 _

/-- **What is worked out for an extent is at most the weight of its positions**, in a block that is
roomy, and is that weight if no dictionaries are merged. -/
theorem weighs {b : Block} (mem : b ∈ K) (roomy : b.Roomy loads) {extent : Extent}
    (fits : extent.offset + extent.length b.positionCount ≤ b.positionCount) :
    b.Weighs loads extent := by
  induction b using Block.walk generalizing extent with
  | step b ih =>
    rcases shown : b.face? loads with - | face
    · refine .of_eq ?_
      rw [Block.plainSize, checkRegion_eq_ok_iff.2 fits, Block.weight, shown]
      rfl
    · obtain ⟨present, mirrors⟩ := sound.face mem shown
      have roomy := roomy.face shown
      have formed := sound.formed _ present
      refine .of_face shown mirrors.count ?_
      rw [← mirrors.count] at fits
      rcases face with leaf | leaf | ⟨lists, elements, below⟩ | ⟨keys, entries, below⟩
      · exact Block.weighs_ints fits
      · exact Block.weighs_slices formed fits
      · exact Block.weighs_array formed fits (ih elements below (sound.elements_mem present)
          roomy.elements (formed.span_le_size fits))
      · by_cases whole : extent.isWhole keys.count = true
        · exact sound.weighs_dictionary_of_isWhole present roomy.entries
            (ih entries below (sound.entries_mem present) roomy.entries (Extent.fits_all _)) whole
        · exact sound.weighs_dictionary_of_part present roomy.entries fits whole

end Sound

end BatchColumn
