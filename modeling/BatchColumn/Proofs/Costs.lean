import BatchColumn.Proofs.Extents

/-!
# What data cost

Where no entries are shared, what a position weighs is told by what it holds: an integer costs its
bytes and a null flag, a byte string its octets and an overhead, a list what its elements cost and
an overhead (`Datum.cost`). A block that has no keys weighs what the data at the selected positions
cost together (`Sound.weight_of_keyless`); the elements of different lists are different elements,
so none is counted twice (`Lists.Intact.tally_covered`).

A block that shows positions of another one holds the same data, and so costs the same
(`Block.Shows.tally_cost`). This gives the weight of what is gathered, and that of a window. A
window of a dictionary block has the entries of the block: there the ids are what is cut
(`Block.Trimmed`).
-/

namespace BatchColumn

/-! ### Data -/

namespace Datum

mutual

/-- Bytes that a datum costs. -/
def cost : Datum → Nat
  | int _ width _ => width.bytes + flagSize
  | slice _ octets => octets.length + Slices.entryOverhead
  | list _ items => totalCost items + Lists.overhead

/-- Bytes that the elements of a list cost. -/
def totalCost : List Datum → Nat
  | [] => 0
  | datum :: rest => datum.cost + totalCost rest

end

/-- What is not there costs nothing. -/
theorem totalCost_filterMap (positions : List Nat) (datum? : Nat → Option Datum) :
    totalCost (positions.filterMap datum?) =
      (positions.map fun p ↦ (datum? p).elim 0 cost).sum := by
  induction positions with
  | nil => rfl
  | cons p rest ih =>
    rw [List.map_cons, List.sum_cons, ← ih, List.filterMap_cons]
    rcases datum? p with - | datum
    · exact (Nat.zero_add _).symm
    · rfl

end Datum

/-- Bytes that the datum at a position costs. -/
def Block.cost (b : Block) (position : Nat) : Nat :=
  (b.datum? position).elim 0 Datum.cost

/-! ### Lists -/

/-- The members of different lists are different elements. -/
theorem Lists.Intact.disjoint_members {lists : Lists} {size : Nat} (intact : lists.Intact size)
    {p q : Nat} (inside : p < lists.count) (there : q < lists.count) (different : p ≠ q) :
    (lists.members p).Disjoint (lists.members q) := by
  intro i mem other
  rw [mem_members] at mem other
  rcases Nat.lt_or_gt_of_ne different with before | after
  · have := intact.start_le_start (show p + 1 ≤ q from before) (Nat.le_of_lt there)
    omega
  · have := intact.start_le_start (show q + 1 ≤ p from after) (Nat.le_of_lt inside)
    omega

theorem Lists.nodup_members (lists : Lists) (p : Nat) : (lists.members p).Nodup :=
  List.nodup_range'

/-- The members of distinct lists are distinct. -/
theorem Lists.Intact.nodup_flatten_members {lists : Lists} {size : Nat}
    (intact : lists.Intact size) {positions : List Nat} (distinct : positions.Nodup)
    (inside : ∀ position ∈ positions, position < lists.count) :
    (positions.map lists.members).flatten.Nodup := by
  refine List.nodup_flatten.2 ⟨fun list listed ↦ ?_, List.pairwise_map.2 ?_⟩
  · obtain ⟨p, -, rfl⟩ := List.mem_map.1 listed
    exact lists.nodup_members p
  · exact distinct.pairwise_of_forall_ne fun p mem q other different ↦
      intact.disjoint_members (inside p mem) (inside q other) different

/-- No element is in two of the lists selected. -/
theorem Lists.Intact.tally_covered {lists : Lists} {size : Nat} (intact : lists.Intact size)
    (mask : Mask) (cost : Nat → Nat) : (lists.covered mask).tally size cost =
      mask.tally lists.count fun p ↦ ((lists.members p).map cost).sum := by
  have selected : {i ∈ Finset.range size | lists.covered mask i} =
      {p ∈ Finset.range lists.count | mask p}.biUnion fun p ↦ (lists.members p).toFinset := by
    ext i
    simp only [Finset.mem_filter, Finset.mem_range, covered_eq_true, Finset.mem_biUnion,
      List.mem_toFinset, and_assoc]
    exact ⟨And.right, fun ⟨p, inside, marked, mem⟩ ↦
      ⟨intact.lt_of_mem_members inside mem, p, inside, marked, mem⟩⟩
  rw [Mask.tally, Mask.tally, selected, Finset.sum_biUnion fun p mem q other different ↦ ?_]
  · exact Finset.sum_congr rfl fun p _ ↦ List.sum_toFinset _ (lists.nodup_members p)
  · have inside := Finset.mem_range.1 (Finset.mem_filter.1 mem).1
    have there := Finset.mem_range.1 (Finset.mem_filter.1 other).1
    rw [Function.onFun, List.disjoint_toFinset_iff_disjoint]
    exact intact.disjoint_members inside there different

/-! ### Blocks without keys -/

namespace Block

variable {loads : Loads}

theorem weight_ints (loads : Loads) (leaf : Ints) (mask : Mask) :
    (ints leaf).weight loads mask = mask.tally leaf.count (ints leaf).cost := by
  rw [weight, face?]
  refine Mask.tally_congr (fun _ _ ↦ rfl) fun p inside _ ↦ ?_
  obtain ⟨n, -, datum⟩ := Ints.datum?_of_lt inside
  rw [cost, Block.datum?, datum]
  rfl

theorem weight_slices (loads : Loads) (leaf : Slices) (mask : Mask) :
    (slices leaf).weight loads mask = mask.tally leaf.count (slices leaf).cost := by
  rw [weight, face?]
  refine Mask.tally_congr (fun _ _ ↦ rfl) fun p inside _ ↦ ?_
  rw [cost, Block.datum?, Slices.datum?_of_lt inside]
  rfl

/-- A list costs what its elements cost, and an overhead. -/
theorem cost_array {lists : Lists} {elements : Block} {p : Nat} (inside : p < lists.count) :
    (array lists elements).cost p =
      ((lists.members p).map elements.cost).sum + Lists.overhead := by
  rw [cost, Block.datum?, Lists.datum?_of_lt inside, Option.elim_some, Datum.cost,
    Datum.totalCost_filterMap]
  rfl

/-- What mirrors a block costs what the block costs. -/
theorem Mirrors.cost {c b : Block} (mirrors : c.Mirrors b) : c.cost = b.cost := by
  funext p
  rw [Block.cost, mirrors.datum, Block.cost]

/-- What shows positions of a block costs what the block costs there. -/
theorem Shows.tally_cost {w b : Block} {positions : List Nat} (shows : w.Shows b positions) :
    (Mask.region 0 w.positionCount).tally w.positionCount w.cost =
      (positions.map b.cost).sum := by
  have each : (List.range positions.length).map w.cost = positions.map b.cost := by
    refine List.ext_getElem? fun i ↦ ?_
    rw [List.getElem?_map, List.getElem?_map]
    rcases Nat.lt_or_ge i positions.length with inside | outside
    · rw [List.getElem?_range inside, List.getElem?_eq_getElem inside, Option.map_some,
        Option.map_some, Block.cost, shows.datum, List.getElem?_eq_getElem inside]
      rfl
    · rw [List.getElem?_eq_none (by simpa using outside), List.getElem?_eq_none outside]
      rfl
  have all : (List.range w.positionCount).filter (Mask.region 0 w.positionCount) =
      List.range w.positionCount :=
    List.filter_eq_self.2 fun p mem ↦
      Mask.region_eq_true.2 ⟨Nat.zero_le p, (Nat.zero_add _).symm ▸ List.mem_range.1 mem⟩
  rw [Mask.tally_eq_sum, all, shows.count, each]

end Block

/-- **A block without keys weighs what its data cost.** -/
theorem Sound.weight_of_keyless {K : Census} {loads : Loads} {ledger : Ledger}
    (sound : Sound K loads ledger) {b : Block} (mem : b ∈ K) (keyless : b.Keyless loads)
    (mask : Mask) : b.weight loads mask = mask.tally b.positionCount b.cost := by
  induction b using Block.walk generalizing mask with
  | step b ih =>
    rcases shown : b.face? loads with - | face
    · rw [Block.Keyless, shown] at keyless
      exact keyless.elim
    · obtain ⟨present, mirrors⟩ := sound.face mem shown
      have keyless := keyless.face shown
      rw [b.weight_of_face shown, ← mirrors.count, ← mirrors.cost]
      rcases face with leaf | leaf | ⟨lists, elements, below⟩ | ⟨keys, entries, below⟩
      · exact Block.weight_ints loads leaf mask
      · exact Block.weight_slices loads leaf mask
      · have formed : lists.Intact elements.positionCount := sound.formed _ present
        rw [Face.toBlock, Block.weight_array,
          ih elements below (sound.elements_mem present)
            ((Block.keyless_array _ _ _).1 keyless), formed.tally_covered,
          ← Mask.tally_add]
        exact Mask.tally_congr (fun _ _ ↦ rfl) fun p inside _ ↦ (Block.cost_array inside).symm
      · exact absurd keyless (Block.not_keyless_dictionary _ _ _)

/-! ### Windows -/

theorem Lists.of_window_eq_ok {lists w : Lists} {memory offset length : Nat}
    (run : lists.window memory offset length = .ok w) : offset + length ≤ lists.count ∧
      w.count = length ∧ ∀ i, w.start i = lists.start (offset + i) := by
  rw [window] at run
  split at run
  next fits =>
    obtain rfl := Except.ok.inj run
    exact ⟨fits, rfl, fun i ↦ by rw [start, start, Nat.add_assoc]⟩
  next => cases run

/-- A window without promises, and what its positions weigh in the block that it is a window of. -/
structure Block.Trimmed (w b : Block) (offset length : Nat) : Prop where
  /-- It has no promises. -/
  eager : w.Eager
  /-- Its dictionary blocks are nested only if those of the block are. -/
  unnested : ∀ loads, b.Unnested loads → w.Unnested loads
  /-- There is room for it if there is room for the block. -/
  roomy : ∀ loads, b.Roomy loads → w.Roomy loads
  /-- It weighs what the positions weigh. -/
  weight : ∀ loads, w.weight loads (.region 0 length) = b.weight loads (.region offset length)

namespace Block.Trimmed

variable {offset length : Nat}

/-- A window of a leaf. -/
theorem of_shows {w b : Block} (eager : w.Eager) (unnested : ∀ loads, w.Unnested loads)
    (alone : ∀ loads, w.positionCount < 2 ^ 63 → w.Roomy loads)
    (weight : ∀ loads mask, w.weight loads mask = mask.tally w.positionCount w.cost)
    (same : ∀ loads mask, b.weight loads mask = mask.tally b.positionCount b.cost)
    (fits : offset + length ≤ b.positionCount)
    (shows : w.Shows b (List.range' offset length)) : w.Trimmed b offset length where
  eager := eager
  unnested loads _ := unnested loads
  roomy loads room := by
    refine alone loads (Nat.lt_of_le_of_lt ?_ room.positionCount_lt)
    rw [shows.count, List.length_range']
    omega
  weight loads := by
    obtain rfl : w.positionCount = length := shows.count.trans List.length_range'
    rw [weight, same, shows.tally_cost, Mask.tally_region fits,
      ← List.sum_toFinset _ List.nodup_range', List.toFinset_range'_1]

theorem ints {w leaf : Ints} (fits : offset + length ≤ leaf.count)
    (shows : (Block.ints w).Shows (.ints leaf) (List.range' offset length)) :
    (Block.ints w).Trimmed (.ints leaf) offset length :=
  of_shows trivial (fun loads ↦ unnested_ints loads w) (fun _ few ↦ roomy_ints few)
    (fun loads ↦ weight_ints loads w)
    (fun loads ↦ weight_ints loads leaf) fits shows

theorem slices {w leaf : Slices} (fits : offset + length ≤ leaf.count)
    (shows : (Block.slices w).Shows (.slices leaf) (List.range' offset length)) :
    (Block.slices w).Trimmed (.slices leaf) offset length :=
  of_shows trivial (fun loads ↦ unnested_slices loads w) (fun _ few ↦ roomy_slices few)
    (fun loads ↦ weight_slices loads w)
    (fun loads ↦ weight_slices loads leaf) fits shows

/-- A window of lists has their elements, and ends where its lists do. -/
theorem array {lists w : Lists} {elements : Block} {memory : Nat}
    (formed : lists.Intact elements.positionCount) (intact : w.Intact elements.positionCount)
    (run : lists.window memory offset length = .ok w) (eager : elements.Eager) :
    (Block.array w elements).Trimmed (.array lists elements) offset length where
  eager := eager
  unnested loads flat := by simpa using flat
  roomy loads room := by
    obtain ⟨fits, count, -⟩ := Lists.of_window_eq_ok run
    have few : lists.count < 2 ^ 63 := room.positionCount_lt
    exact roomy_array (by omega) room.elements
  weight loads := by
    obtain ⟨fits, count, start⟩ := Lists.of_window_eq_ok run
    rw [weight_array_region loads intact (by omega), weight_array_region loads formed fits, start,
      start, Nat.zero_add, Nat.add_zero]

/-- A window of keys has their entries, and refers to those that its ids refer to. -/
theorem dictionary {keys w : Keys} {entries : Block}
    (fits : offset + length ≤ keys.count) (count : w.count = length)
    (ids : w.toList = stretch keys.toList offset length) (eager : entries.Eager) :
    (Block.dictionary w entries).Trimmed (.dictionary keys entries) offset length where
  eager := eager
  unnested loads flat := by simpa using flat
  roomy loads room := by
    have few : keys.count < 2 ^ 63 := room.positionCount_lt
    exact roomy_dictionary (by omega) room.entries
  weight loads := by
    have all : stretch w.toList 0 length = w.toList := by
      rw [← count, ← w.length_toList, stretch_all]
    rw [weight_dictionary_region loads (by omega), weight_dictionary_region loads fits, all, ids]

end Block.Trimmed

end BatchColumn
