import BatchColumn.Proofs.Costs

/-!
# What a gather brings together

A gather lays out byte strings and lists one after the other, and where they end is an offset of 32
bits. Positions may be gathered more than once, so what is gathered together can be more than what
is held, and an end that is no offset panics. What is gathered at some positions of a block
**fits** if no end at any depth is past the range of an offset (`Block.Fits`).

Of keys that a gather takes as they are, every repetition counts; of keys that are renumbered, each
distinct id counts once. Which of the two happens may depend on what is remembered of keys that do
not repeat an id, so of these both must fit.

Where there are no keys, what is gathered at distinct positions is part of what is held, and fits
(`Sound.fits_of_keyless`).
-/

namespace BatchColumn

variable {K : Census} {loads : Loads} {ledger : Ledger}

/-- The ids of keys at some positions. -/
def Keys.picked (keys : Keys) (positions : List Nat) : List Nat :=
  positions.filterMap (keys.toList[·]?)

/-- The ids at consecutive positions. -/
theorem Keys.picked_range' (keys : Keys) (offset length : Nat) :
    keys.picked (List.range' offset length) = stretch keys.toList offset length := by
  simpa [picked] using filterMap_range'_listed some keys.toList offset length

namespace Block

/-- What is gathered at some positions of a block is laid out within the range of an offset. -/
def Fits (loads : Loads) (b : Block) (positions : List Nat) : Prop :=
  match b.face? loads with
  | none | some (.ints _) => True
  | some (.slices leaf) => leaf.total positions < 2 ^ 32
  | some (.array lists elements _) =>
    (positions.map lists.members).flatten.length < 2 ^ 32 ∧
      elements.Fits loads (positions.map lists.members).flatten
  | some (.dictionary keys entries _) =>
    (entries.isNested loads = true ∨ keys.toList.Nodup →
      entries.Fits loads (keys.picked positions)) ∧
    (entries.isNested loads = false → entries.Fits loads (keys.picked positions).eraseDups)
termination_by b.depth

variable {positions : List Nat}

/-- Nothing is gathered of what is not loaded. -/
theorem fits_of_unloaded {b : Block} (shown : b.face? loads = none) : b.Fits loads positions := by
  rw [Fits, shown]
  trivial

@[simp] theorem fits_ints (loads : Loads) (leaf : Ints) (positions : List Nat) :
    (ints leaf).Fits loads positions := by
  rw [Fits, face?]
  trivial

@[simp] theorem fits_slices {leaf : Slices} :
    (slices leaf).Fits loads positions ↔ leaf.total positions < 2 ^ 32 := by
  rw [Fits, face?]

@[simp] theorem fits_array {lists : Lists} {elements : Block} :
    (array lists elements).Fits loads positions ↔
      (positions.map lists.members).flatten.length < 2 ^ 32 ∧
        elements.Fits loads (positions.map lists.members).flatten := by
  rw [Fits, face?]

@[simp] theorem fits_dictionary {keys : Keys} {entries : Block} :
    (dictionary keys entries).Fits loads positions ↔
      (entries.isNested loads = true ∨ keys.toList.Nodup →
        entries.Fits loads (keys.picked positions)) ∧
      (entries.isNested loads = false →
        entries.Fits loads (keys.picked positions).eraseDups) := by
  rw [Fits, face?]

/-- What a block comes to is gathered for it. -/
theorem fits_of_face {b : Block} {face : Face b.depth} (shown : b.face? loads = some face) :
    face.toBlock.Fits loads positions ↔ b.Fits loads positions := by
  rw [Fits.eq_def loads b, shown]
  rcases face with leaf | leaf | ⟨lists, elements, below⟩ | ⟨keys, entries, below⟩
  · exact iff_of_true (fits_ints loads leaf positions) trivial
  · exact fits_slices
  · exact fits_array
  · exact fits_dictionary

/-- Keys at which no id is repeated are gathered as they are or renumbered, which makes no
difference. -/
theorem Fits.picked {keys : Keys} {entries : Block}
    (fits : (dictionary keys entries).Fits loads positions)
    (distinct : (keys.picked positions).Nodup) : entries.Fits loads (keys.picked positions) := by
  rw [fits_dictionary] at fits
  rcases nested : entries.isNested loads with - | -
  · exact eraseDups_of_nodup distinct ▸ fits.2 nested
  · exact fits.1 (.inl nested)

/-- The elements of consecutive lists fit if the lists do. -/
theorem Fits.of_lists {lists : Lists} {elements : Block} {size offset length : Nat}
    (intact : lists.Intact size) (inside : offset + length ≤ lists.count)
    (fits : (array lists elements).Fits loads (List.range' offset length)) :
    elements.Fits loads (List.range' (lists.start offset)
      (lists.start (offset + length) - lists.start offset)) := by
  have members := (fits_array.1 fits).2
  rwa [← List.flatMap_def, intact.flatMap_members inside] at members

/-- Entries that are copied in place of keys fit if the keys do. -/
theorem Fits.of_counting {keys : Keys} {entries : Block} {offset length first : Nat}
    (ids : ∀ i < length, keys.toList[offset + i]? = some (first + i))
    (fits : (dictionary keys entries).Fits loads (List.range' offset length)) :
    entries.Fits loads (List.range' first length) := by
  have picked : keys.picked (List.range' offset length) = List.range' first length :=
    (filterMap_range'_congr ids).trans List.filterMap_some
  exact picked ▸ fits.picked (picked ▸ List.nodup_range')

end Block

/-! ### Distinct positions -/

/-- Different byte strings of a leaf have no byte in common. -/
theorem Slices.Intact.total_lt {leaf : Slices} (intact : leaf.Intact) {positions : List Nat}
    (distinct : positions.Nodup) (inside : ∀ position ∈ positions, position < leaf.count) :
    leaf.total positions < 2 ^ 32 := by
  have some : positions.toFinset ⊆ Finset.Ico 0 (0 + leaf.count) := fun position mem ↦ by
    have := inside position (List.mem_toFinset.1 mem)
    rw [Finset.mem_Ico]
    omega
  have all := intact.sum_length_octets (Nat.zero_add leaf.count).le
  have last := intact.start_lt (Nat.le_refl leaf.count)
  have le := Finset.sum_le_sum_of_subset some (f := fun p ↦ (leaf.octets p).length)
  rw [List.sum_toFinset _ distinct, all, Nat.zero_add] at le
  rw [total, List.map_map]
  exact (Nat.le_trans le (Nat.sub_le _ _)).trans_lt last

/-- Different lists have no element in common. -/
theorem Lists.Intact.length_flatten_members_lt {lists : Lists} {size : Nat}
    (intact : lists.Intact size) {positions : List Nat} (distinct : positions.Nodup)
    (inside : ∀ position ∈ positions, position < lists.count) :
    (positions.map lists.members).flatten.length < 2 ^ 32 := by
  have few := length_le_of_nodup (intact.nodup_flatten_members distinct inside) fun i mem ↦
    intact.lt_start_of_mem_flatten_members inside mem
  exact few.trans_lt (intact.start_lt (Nat.le_refl lists.count))

/-- **Where there are no keys, distinct positions fit.** -/
theorem Sound.fits_of_keyless (sound : Sound K loads ledger) {b : Block} (mem : b ∈ K)
    (keyless : b.Keyless loads) {positions : List Nat} (distinct : positions.Nodup)
    (inside : ∀ position ∈ positions, position < b.positionCount) : b.Fits loads positions := by
  induction b using Block.walk generalizing positions with
  | step b ih =>
    rcases shown : b.face? loads with - | face
    · exact Block.fits_of_unloaded shown
    · obtain ⟨present, mirrors⟩ := sound.face mem shown
      have formed := sound.formed _ present
      have keyless := keyless.face shown
      rw [← mirrors.count] at inside
      rw [← Block.fits_of_face shown]
      rcases face with leaf | leaf | ⟨lists, elements, below⟩ | ⟨keys, entries, below⟩
      · exact Block.fits_ints loads leaf positions
      · exact Block.fits_slices.2 (formed.total_lt distinct inside)
      · refine Block.fits_array.2 ⟨formed.length_flatten_members_lt distinct inside, ?_⟩
        refine ih elements below (sound.elements_mem present)
          ((Block.keyless_array _ _ _).1 keyless)
          (formed.nodup_flatten_members distinct inside) fun i mem ↦
            formed.lt_of_mem_flatten_members inside mem
      · exact absurd keyless (Block.not_keyless_dictionary loads keys entries)

end BatchColumn
