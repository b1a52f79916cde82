import BatchColumn.Block.Size
import BatchColumn.Proofs.Faces
import Mathlib.Algebra.BigOperators.Intervals
import Mathlib.Algebra.Order.BigOperators.Group.Finset

/-!
# What the selected positions of a block weigh

`Block.maskSize` checks at every layer that the mask it makes over the block below fits, and so may
fail. `Block.weight` is what it comes to when it does not: a sum over the selected positions at each
layer (`Mask.tally`), over masks that are plain functions of the mask above, the elements of the
selected lists (`Lists.covered`) and the entries referred to (`Keys.referred`). In a roomy block of
a sound store the two are equal (`Sound.maskSize_eq_weight`), and `Block.flatWeight` stands in the
same way to the size of directly nested dictionaries as the one dictionary they come to
(`Sound.flatMaskSize_eq_flatWeight`).

Both maps of masks preserve unions, and therefore inclusion. By induction on the layers the weight
is monotone in the mask (`Block.weight_mono`) and subadditive (`Block.weight_sup_le`): positions
that share an entry weigh no more together than apart.
-/

namespace BatchColumn

/-! ### Masks -/

namespace Mask

variable {m₁ m₂ : Mask} {count : Nat} {cost : Nat → Nat}

/-- The costs of those of `count` positions that a mask selects, together. -/
def tally (mask : Mask) (count : Nat) (cost : Nat → Nat) : Nat :=
  ∑ position ∈ Finset.range count with mask position, cost position

/-- The positions `[offset, offset + length)`. -/
def region (offset length : Nat) : Mask :=
  fun position ↦ decide (offset ≤ position ∧ position < offset + length)

theorem region_eq_true {offset length p : Nat} :
    region offset length p = true ↔ offset ≤ p ∧ p < offset + length :=
  decide_eq_true_iff

theorem sup_eq_true {p : Nat} : (m₁ ⊔ m₂) p = true ↔ m₁ p = true ∨ m₂ p = true :=
  Bool.or_eq_true_iff

/-- Masks that select the same positions are one. -/
protected theorem ext (same : ∀ p, m₁ p = true ↔ m₂ p = true) : m₁ = m₂ :=
  funext fun p ↦ Bool.eq_iff_iff.2 (same p)

/-- The costs can be added up in the order of the positions. -/
theorem tally_eq_sum (mask : Mask) (count : Nat) (cost : Nat → Nat) :
    mask.tally count cost = (((List.range count).filter mask).map cost).sum := by
  rw [← List.sum_toFinset _ (List.nodup_range.filter _), List.toFinset_filter, List.toFinset_range,
    tally]

theorem tally_const (mask : Mask) (count cost : Nat) :
    (mask.tally count fun _ ↦ cost) = cost * selected count mask := by
  rw [tally_eq_sum, List.map_const', List.sum_const_nat, selected, List.countP_eq_length_filter,
    Nat.mul_comm]

theorem tally_add (mask : Mask) (count : Nat) (first second : Nat → Nat) :
    (mask.tally count fun p ↦ first p + second p) =
      mask.tally count first + mask.tally count second :=
  Finset.sum_add_distrib

theorem tally_congr {cost' : Nat → Nat} (same : ∀ p < count, m₁ p = m₂ p)
    (costs : ∀ p < count, m₂ p = true → cost p = cost' p) :
    m₁.tally count cost = m₂.tally count cost' := by
  rw [tally, tally, Finset.filter_congr fun p mem ↦ by rw [same p (Finset.mem_range.1 mem)]]
  refine Finset.sum_congr rfl fun p mem ↦ ?_
  rw [Finset.mem_filter, Finset.mem_range] at mem
  exact costs p mem.1 mem.2

theorem tally_mono (le : m₁ ≤ m₂) : m₁.tally count cost ≤ m₂.tally count cost :=
  Finset.sum_le_sum_of_subset fun p mem ↦ by
    rw [Finset.mem_filter] at mem ⊢
    exact ⟨mem.1, le p mem.2⟩

theorem tally_sup_le (m₁ m₂ : Mask) (count : Nat) (cost : Nat → Nat) :
    (m₁ ⊔ m₂).tally count cost ≤ m₁.tally count cost + m₂.tally count cost := by
  simp only [tally, sup_eq_true, Finset.filter_or]
  exact Finset.sum_union_inter (f := cost) ▸ Nat.le_add_right _ _

/-- The costs at listed positions count once for each position. -/
theorem tally_contains {positions : List Nat} (inside : ∀ p ∈ positions, p < count)
    (cost : Nat → Nat) :
    tally positions.contains count cost = (positions.eraseDups.map cost).sum := by
  rw [← List.sum_toFinset _ (nodup_eraseDups positions), tally]
  refine Finset.sum_congr (Finset.ext fun p ↦ ?_) fun _ _ ↦ rfl
  simp only [Finset.mem_filter, Finset.mem_range, List.contains_iff_mem, List.mem_toFinset,
    List.mem_eraseDups, and_iff_right_iff_imp]
  exact inside p

theorem tally_region {offset length : Nat} (fits : offset + length ≤ count) (cost : Nat → Nat) :
    (region offset length).tally count cost =
      ∑ p ∈ Finset.Ico offset (offset + length), cost p := by
  refine Finset.sum_congr (Finset.ext fun p ↦ ?_) fun _ _ ↦ rfl
  simp only [Finset.mem_filter, Finset.mem_range, region_eq_true, Finset.mem_Ico]
  omega

theorem tally_region_const {offset length : Nat} (fits : offset + length ≤ count) (cost : Nat) :
    ((region offset length).tally count fun _ ↦ cost) = cost * length := by
  rw [tally_region fits, Finset.sum_const_nat fun _ _ ↦ rfl, Nat.card_Ico, Nat.add_sub_cancel_left,
    Nat.mul_comm]

end Mask

/-! ### Masks over the block below -/

/-- The elements in the lists that a mask selects. -/
def Lists.covered (lists : Lists) (mask : Mask) : Mask :=
  .ofSpans (pick lists.spans mask)

/-- The entries that the selected positions refer to. -/
def Keys.referred (keys : Keys) (mask : Mask) : Mask :=
  fun id ↦ (pick keys.toList mask).contains id

namespace Lists

variable {lists : Lists} {mask : Mask}

theorem mem_pick_spans {span : Nat × Nat} : span ∈ pick lists.spans mask ↔
    ∃ p < lists.count, mask p = true ∧ span = (lists.start p, lists.start (p + 1)) := by
  have fits := lists.fits
  have bound : ∀ i ≤ lists.count, lists.bounds[i]? = some (lists.start i) := fun i le ↦ by
    rw [bounds, getElem?_stretch, if_pos (by omega), start,
      getElem?_eq_getD (by rw [View.length_toList]; omega)]
  have beyond : ∀ i, lists.count < i → lists.bounds[i]? = none := fun i lt ↦ by
    rw [bounds, getElem?_stretch, if_neg (by omega)]
  simp only [mem_pick_iff, spans, List.getElem?_zip_eq_some, List.getElem?_tail]
  constructor
  · rintro ⟨p, ⟨start, stop⟩, marked⟩
    rcases Nat.lt_or_ge p lists.count with inside | outside
    · rw [bound p (Nat.le_of_lt inside), Option.some.injEq] at start
      rw [bound (p + 1) inside, Option.some.injEq] at stop
      exact ⟨p, inside, marked, by rw [start, stop]⟩
    · rw [beyond (p + 1) (by omega)] at stop
      cases stop
  · rintro ⟨p, inside, marked, rfl⟩
    exact ⟨p, ⟨bound p (Nat.le_of_lt inside), bound (p + 1) inside⟩, marked⟩

theorem covered_eq_true {i : Nat} : lists.covered mask i = true ↔
    ∃ p < lists.count, mask p = true ∧ i ∈ lists.members p := by
  simp only [covered, Mask.ofSpans, List.any_eq_true, mem_pick_spans, mem_members,
    Bool.and_eq_true, decide_eq_true_eq]
  constructor
  · rintro ⟨-, ⟨p, inside, marked, rfl⟩, within⟩
    exact ⟨p, inside, marked, within⟩
  · rintro ⟨p, inside, marked, within⟩
    exact ⟨_, ⟨p, inside, marked, rfl⟩, within⟩

theorem covered_sup (lists : Lists) (m₁ m₂ : Mask) :
    lists.covered (m₁ ⊔ m₂) = lists.covered m₁ ⊔ lists.covered m₂ := by
  refine Mask.ext fun i ↦ ?_
  simp only [covered_eq_true, Mask.sup_eq_true]
  constructor
  · rintro ⟨p, inside, marked | marked, mem⟩
    · exact .inl ⟨p, inside, marked, mem⟩
    · exact .inr ⟨p, inside, marked, mem⟩
  · rintro (⟨p, inside, marked, mem⟩ | ⟨p, inside, marked, mem⟩)
    · exact ⟨p, inside, .inl marked, mem⟩
    · exact ⟨p, inside, .inr marked, mem⟩

theorem covered_mono (lists : Lists) {m₁ m₂ : Mask} (le : m₁ ≤ m₂) :
    lists.covered m₁ ≤ lists.covered m₂ := by
  rw [← sup_eq_right, ← covered_sup, sup_eq_right.2 le]

theorem covered_congr {m₁ m₂ : Mask} (same : ∀ p < lists.count, m₁ p = m₂ p) :
    lists.covered m₁ = lists.covered m₂ := by
  refine Mask.ext fun i ↦ ?_
  simp only [covered_eq_true]
  exact exists_congr fun p ↦ and_congr_right fun inside ↦ by rw [same p inside]

end Lists

namespace Keys

variable {keys : Keys}

theorem referred_eq_true {mask : Mask} {id : Nat} : keys.referred mask id = true ↔
    ∃ p : Nat, keys.toList[p]? = some id ∧ mask p = true := by
  rw [referred, List.contains_iff_mem, mem_pick_iff]

theorem referred_sup (keys : Keys) (m₁ m₂ : Mask) :
    keys.referred (m₁ ⊔ m₂) = keys.referred m₁ ⊔ keys.referred m₂ := by
  refine Mask.ext fun id ↦ ?_
  simp only [referred_eq_true, Mask.sup_eq_true, and_or_left, exists_or]

theorem referred_mono (keys : Keys) {m₁ m₂ : Mask} (le : m₁ ≤ m₂) :
    keys.referred m₁ ≤ keys.referred m₂ := by
  rw [← sup_eq_right, ← referred_sup, sup_eq_right.2 le]

theorem referred_congr {m₁ m₂ : Mask} (same : ∀ p < keys.count, m₁ p = m₂ p) :
    keys.referred m₁ = keys.referred m₂ := by
  refine Mask.ext fun id ↦ ?_
  simp only [referred_eq_true]
  refine exists_congr fun p ↦ and_congr_right fun found ↦ ?_
  have inside : p < keys.count := keys.length_toList ▸ (List.getElem?_eq_some_iff.1 found).1
  rw [same p inside]

theorem used_eq_ok {size : Nat} (intact : keys.Intact size) (room : size < 2 ^ 63) (mask : Mask) :
    keys.used size mask = .ok (keys.referred mask) :=
  markUsed_eq_ok room fun _ mem ↦ intact _ (mem_of_mem_pick mem)

end Keys

/-! ### Slices -/

namespace Slices

variable {leaf : Slices}

theorem maskSize_eq_ok (intact : leaf.Intact) (mask : Mask) :
    leaf.maskSize mask = .ok (mask.tally leaf.count fun position ↦
      (leaf.octets position).length + entryOverhead) := by
  have read : ∀ position ∈ (List.range leaf.count).filter mask,
      leaf.sliceLength position = .ok (leaf.octets position).length := by
    intro position mem
    have inside : position < leaf.count := List.mem_range.1 (List.mem_of_mem_filter mem)
    rw [sliceLength_eq intact, datum?_of_lt inside]
    rfl
  rw [maskSize, mapM_eq_ok_map read, ok_bind, ← List.sum_eq_foldl, ← Mask.tally_eq_sum,
    ← Mask.tally_const, Mask.tally_add]
  rfl

/-- The offsets at both ends of a region are as far apart as the slices between them are long. -/
theorem Intact.sum_length_octets (intact : leaf.Intact) {offset length : Nat}
    (fits : offset + length ≤ leaf.count) :
    ∑ p ∈ Finset.Ico offset (offset + length), (leaf.octets p).length =
      leaf.start (offset + length) - leaf.start offset := by
  induction length with
  | zero => simp
  | succ n ih =>
    have first := intact.start_le_start (Nat.le_add_right offset n) (by omega)
    have step := intact.start_le_start (Nat.le_add_right (offset + n) 1) fits
    have last := intact.length_octets (show offset + n < leaf.count from fits)
    rw [← Nat.add_assoc, Finset.sum_Ico_succ_top (by omega), ih (by omega), last]
    omega

theorem windowSize_eq_ok (intact : leaf.Intact) {offset length : Nat}
    (fits : offset + length ≤ leaf.count) : leaf.windowSize offset length =
      .ok ((Mask.region offset length).tally leaf.count fun position ↦
        (leaf.octets position).length + entryOverhead) := by
  rw [windowSize, intact.get_offset fits, ok_bind, intact.get_offset (by omega), ok_bind,
    Mask.tally_add, Mask.tally_region_const fits, Mask.tally_region fits,
    intact.sum_length_octets fits]
  rfl

end Slices

/-! ### Weights -/

namespace Block

/-- Bytes of the positions that a mask selects, where nothing stops them from being counted. -/
def weight (loads : Loads) (b : Block) (mask : Mask) : Nat :=
  match b.face? loads with
  | none => 0
  | some (.ints leaf) => mask.tally leaf.count fun _ ↦ leaf.entrySize
  | some (.slices leaf) =>
    mask.tally leaf.count fun position ↦ (leaf.octets position).length + Slices.entryOverhead
  | some (.array lists elements _) =>
    elements.weight loads (lists.covered mask) + mask.tally lists.count fun _ ↦ Lists.overhead
  | some (.dictionary keys entries _) =>
    entries.weight loads (keys.referred mask) + mask.tally keys.count fun _ ↦ idSize
termination_by b.depth

/-- Bytes of the positions that a mask selects, if directly nested dictionaries were one. -/
def flatWeight (loads : Loads) (b : Block) (mask : Mask) : Nat :=
  match b.face? loads with
  | some (.dictionary keys entries _) => entries.flatWeight loads (keys.referred mask)
  | _ => b.weight loads mask
termination_by b.depth

section

variable (loads : Loads)

/-- Blocks weigh what they come to. -/
theorem weight_of_face {loads : Loads} {b : Block} {face : Face b.depth}
    (shown : b.face? loads = some face) (mask : Mask) :
    b.weight loads mask = face.toBlock.weight loads mask := by
  rw [weight, shown]
  rcases face with leaf | leaf | ⟨lists, elements, below⟩ | ⟨keys, entries, below⟩
  all_goals rw [Face.toBlock, weight, face?]

theorem weight_array (lists : Lists) (elements : Block) (mask : Mask) :
    (array lists elements).weight loads mask = elements.weight loads (lists.covered mask) +
      mask.tally lists.count fun _ ↦ Lists.overhead := by
  rw [weight, face?]

theorem weight_dictionary (keys : Keys) (entries : Block) (mask : Mask) :
    (dictionary keys entries).weight loads mask = entries.weight loads (keys.referred mask) +
      mask.tally keys.count fun _ ↦ idSize := by
  rw [weight, face?]

theorem weight_mono (b : Block) {m₁ m₂ : Mask} (le : m₁ ≤ m₂) :
    b.weight loads m₁ ≤ b.weight loads m₂ := by
  induction b using Block.walk generalizing m₁ m₂ with
  | step b ih =>
    rw [weight, weight]
    rcases b.face? loads with - | ⟨leaf | leaf | ⟨lists, elements, below⟩ | ⟨keys, entries, below⟩⟩
    · exact Nat.le_refl _
    · exact Mask.tally_mono le
    · exact Mask.tally_mono le
    · exact Nat.add_le_add (ih elements below (lists.covered_mono le)) (Mask.tally_mono le)
    · exact Nat.add_le_add (ih entries below (keys.referred_mono le)) (Mask.tally_mono le)

theorem weight_sup_le (b : Block) (m₁ m₂ : Mask) :
    b.weight loads (m₁ ⊔ m₂) ≤ b.weight loads m₁ + b.weight loads m₂ := by
  induction b using Block.walk generalizing m₁ m₂ with
  | step b ih =>
    rw [weight, weight, weight]
    rcases b.face? loads with - | ⟨leaf | leaf | ⟨lists, elements, below⟩ | ⟨keys, entries, below⟩⟩
    · exact Nat.le_refl _
    · exact Mask.tally_sup_le _ _ _ _
    · exact Mask.tally_sup_le _ _ _ _
    · have inner := ih elements below (lists.covered m₁) (lists.covered m₂)
      have outer := Mask.tally_sup_le m₁ m₂ lists.count fun _ ↦ Lists.overhead
      rw [← lists.covered_sup] at inner
      dsimp only
      omega
    · have inner := ih entries below (keys.referred m₁) (keys.referred m₂)
      have outer := Mask.tally_sup_le m₁ m₂ keys.count fun _ ↦ idSize
      rw [← keys.referred_sup] at inner
      dsimp only
      omega

/-- The ids between directly nested dictionaries are all that merging them saves. -/
theorem flatWeight_le_weight (b : Block) (mask : Mask) :
    b.flatWeight loads mask ≤ b.weight loads mask := by
  induction b using Block.walk generalizing mask with
  | step b ih =>
    rw [flatWeight]
    split
    next keys entries below shown =>
      rw [weight, shown]
      exact Nat.le_add_right_of_le (ih entries below _)
    next => exact Nat.le_refl _

theorem flatWeight_of_isNested_eq_false {loads : Loads} {b : Block}
    (flat : b.isNested loads = false) (mask : Mask) :
    b.flatWeight loads mask = b.weight loads mask := by
  rw [flatWeight]
  split
  next shown =>
    rw [isNested, resolved?, shown] at flat
    cases flat
  next => rfl

end

end Block

namespace Sound

variable {K : Census} {loads : Loads} {ledger : Ledger} (sound : Sound K loads ledger)

include sound

/-- **Sizing the positions of a mask comes to their weight**, in a block that is roomy. -/
theorem maskSize_eq_weight {b : Block} (mem : b ∈ K) (roomy : b.Roomy loads) (mask : Mask) :
    b.maskSize loads mask = .ok (b.weight loads mask) := by
  induction b using Block.walk generalizing mask with
  | step b ih =>
    rw [Block.maskSize, Block.weight]
    rcases shown : b.face? loads with - | face
    · rfl
    · obtain ⟨present, -⟩ := sound.face mem shown
      have roomy := roomy.face shown
      have formed := sound.formed _ present
      rcases face with leaf | leaf | ⟨lists, elements, below⟩ | ⟨keys, entries, below⟩
      · simp only [Mask.tally_const]
        rfl
      · exact Slices.maskSize_eq_ok formed mask
      · have run : cover elements.positionCount (pick lists.spans mask) =
            .ok (lists.covered mask) :=
          cover_eq_ok roomy.elements.positionCount_lt fun span mem ↦
            formed.span_within (mem_of_mem_pick mem)
        have rest := ih elements below (sound.elements_mem present) roomy.elements
          (lists.covered mask)
        simp only [run, rest, ok_bind, Mask.tally_const]
        rfl
      · have run := Keys.used_eq_ok formed roomy.entries.positionCount_lt mask
        have rest := ih entries below (sound.entries_mem present) roomy.entries (keys.referred mask)
        simp only [run, rest, ok_bind, Mask.tally_const]
        rfl

theorem flatMaskSize_eq_flatWeight {b : Block} (mem : b ∈ K) (roomy : b.Roomy loads)
    (mask : Mask) : b.flatMaskSize loads mask = .ok (b.flatWeight loads mask) := by
  induction b using Block.walk generalizing mask with
  | step b ih =>
    have other := sound.maskSize_eq_weight mem roomy mask
    rw [Block.flatMaskSize, Block.flatWeight]
    rcases shown : b.face? loads with - | face
    · exact other
    · obtain ⟨present, -⟩ := sound.face mem shown
      rcases face with leaf | leaf | ⟨lists, elements, below⟩ | ⟨keys, entries, below⟩
      case dictionary =>
        have roomy := roomy.face shown
        have run := Keys.used_eq_ok (sound.formed _ present) roomy.entries.positionCount_lt mask
        dsimp only
        rw [run]
        exact ih entries below (sound.entries_mem present) roomy.entries (keys.referred mask)
      all_goals exact other

/-- Only the positions of the block matter to a mask over it. -/
theorem weight_congr {b : Block} (mem : b ∈ K) {m₁ m₂ : Mask}
    (same : ∀ p < b.positionCount, m₁ p = m₂ p) : b.weight loads m₁ = b.weight loads m₂ := by
  rw [Block.weight, Block.weight]
  rcases shown : b.face? loads with - | face
  · rfl
  · obtain ⟨-, mirrors⟩ := sound.face mem shown
    have same : ∀ p < face.toBlock.positionCount, m₁ p = m₂ p := mirrors.count ▸ same
    rcases face with leaf | leaf | ⟨lists, elements, below⟩ | ⟨keys, entries, below⟩
    · exact Mask.tally_congr same fun _ _ _ ↦ rfl
    · exact Mask.tally_congr same fun _ _ _ ↦ rfl
    · exact congrArg₂ (· + ·) (congrArg _ (Lists.covered_congr same))
        (Mask.tally_congr same fun _ _ _ ↦ rfl)
    · exact congrArg₂ (· + ·) (congrArg _ (Keys.referred_congr same))
        (Mask.tally_congr same fun _ _ _ ↦ rfl)

end Sound

end BatchColumn
