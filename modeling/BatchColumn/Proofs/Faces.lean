import BatchColumn.Proofs.Sound

/-!
# Looking through what is loaded

Where a store is sound, what stands behind the loaded lazy blocks in front of a block is a block of
the census that mirrors it (`Sound.face`), so every walk through loaded blocks stays within the
census and keeps the data in sight. No part of a block is longer than the parts that it had before
anything was loaded, so bounds on those are enough (`Sound.small`).

Two facts about data hold in every sound store: a position of a block whose promises will be kept
holds a datum (`Sound.exists_datum`), and a block that says it has no nulls has none
(`Sound.exists_datum_of_mayHaveNull_eq_false`).
-/

namespace BatchColumn

theorem Promise.shift_window (promise : Promise) (cell offset length : Nat) :
    (promise.window cell offset length).shift = offset + promise.shift := by
  rw [shift, window, List.map_cons, List.sum_cons]
  rfl

namespace Sound

variable {K : Census} {loads : Loads} {ledger : Ledger} (sound : Sound K loads ledger)

include sound

/-- The positions promised are positions of the payload, as far as it is said to reach. -/
theorem shift_add_lt {root : Root} {windows : List Window} {payload : Block} {position : Nat}
    (mem : .lazy ⟨root, windows⟩ payload ∈ K) (inside : position < Promise.count ⟨root, windows⟩) :
    Promise.shift ⟨root, windows⟩ + position < root.count := by
  induction windows generalizing position with
  | nil => rwa [Promise.shift, List.map_nil, List.sum_nil, Nat.zero_add]
  | cons window windows ih =>
    have fits : window.offset + window.length ≤ Promise.count ⟨root, windows⟩ := sound.formed _ mem
    have room : position < window.length := inside
    have below := ih (sound.source_mem mem) (show window.offset + position < _ by omega)
    simp only [Promise.shift, List.map_cons, List.sum_cons] at below ⊢
    omega

/-- **What a block comes to exists and mirrors it.** -/
theorem face {b : Block} (mem : b ∈ K) {face : Face b.depth} (found : b.face? loads = some face) :
    face.toBlock ∈ K ∧ face.toBlock.Mirrors b := by
  revert mem
  refine Block.face_induction (motive := fun b c ↦ b ∈ K → c ∈ K ∧ c.Mirrors b)
    (fun b mem ↦ ⟨mem, .refl b⟩) (fun promise payload content c held ih mem ↦ ?_) found
  obtain ⟨there, mirrors, -⟩ := sound.content mem held
  obtain ⟨present, same⟩ := ih there
  exact ⟨present, same.trans mirrors⟩

/-- What is found in a block is no longer than what is found in it before anything is loaded. -/
theorem part_le {b c : Block} (part : Block.Part loads c b) (mem : b ∈ K) :
    ∃ d, Block.Part .empty d b ∧ c.positionCount ≤ d.positionCount := by
  induction part with
  | refl => exact ⟨c, .refl, Nat.le_refl _⟩
  | elements _ ih =>
    obtain ⟨d, found, le⟩ := ih (sound.elements_mem mem)
    exact ⟨d, .elements found, le⟩
  | entries _ ih =>
    obtain ⟨d, found, le⟩ := ih (sound.entries_mem mem)
    exact ⟨d, .entries found, le⟩
  | payload _ ih =>
    obtain ⟨d, found, le⟩ := ih (sound.payload_mem mem)
    exact ⟨d, .payload found, le⟩
  | content held _ ih =>
    obtain ⟨there, -, cut⟩ := sound.content mem held
    obtain ⟨d, found, le⟩ := ih there
    obtain ⟨e, deeper, more, -⟩ := cut d found
    exact ⟨e, .payload deeper, Nat.le_trans le more⟩

/-- **A block that is small before anything is loaded is small.** -/
theorem small {b : Block} (mem : b ∈ K) (small : b.Small .empty) : b.Small loads := by
  intro c part
  obtain ⟨d, found, le⟩ := sound.part_le part mem
  exact Nat.lt_of_le_of_lt le (small d found)

/-- **Every position of a block that can be loaded holds something.** -/
theorem exists_datum {b : Block} (mem : b ∈ K) (loadable : b.Loadable) {position : Nat}
    (inside : position < b.positionCount) : ∃ datum, b.datum? position = some datum := by
  induction b generalizing position with
  | ints leaf =>
    obtain ⟨n, -, found⟩ := Ints.datum?_of_lt inside
    exact ⟨_, found⟩
  | slices leaf => exact ⟨_, Slices.datum?_of_lt inside⟩
  | array lists elements => exact ⟨_, Lists.datum?_of_lt inside⟩
  | dictionary keys entries ih =>
    obtain ⟨id, found⟩ := keys.exists_getElem?_toList inside
    have key : id < entries.positionCount := sound.formed _ mem id (List.mem_of_getElem? found)
    rw [Block.datum?, found]
    exact ih (sound.entries_mem mem) loadable key
  | «lazy» promise payload ih =>
    obtain ⟨root, windows⟩ := promise
    obtain ⟨-, count, kept⟩ := loadable
    have room : position < Promise.count ⟨root, windows⟩ := inside
    rw [Block.datum?, if_pos room]
    exact ih (sound.payload_mem mem) kept (count ▸ sound.shift_add_lt mem inside)

/-- **A block that says it has no nulls has none.** Such a block is loaded as far as its leaf. -/
theorem exists_datum_of_mayHaveNull_eq_false {b : Block} (mem : b ∈ K)
    (none : b.mayHaveNull loads = false) {position : Nat} (inside : position < b.positionCount) :
    ∃ datum, b.datum? position = some datum ∧ datum.isNull = false := by
  induction b using Block.walk generalizing position with
  | step b ih =>
    rw [Block.mayHaveNull] at none
    split at none
    -- A block that is not loaded says that it may have nulls.
    next => cases none
    next leaf shown =>
      obtain ⟨-, mirrors⟩ := sound.face mem shown
      obtain ⟨n, -, found⟩ := Ints.datum?_of_lt (inside.trans_eq mirrors.count.symm)
      rw [← mirrors.datum]
      exact ⟨_, found, Nulls.marks_of_mayHaveNull_eq_false none position⟩
    next leaf shown =>
      obtain ⟨-, mirrors⟩ := sound.face mem shown
      rw [← mirrors.datum]
      exact ⟨_, Slices.datum?_of_lt (inside.trans_eq mirrors.count.symm),
        Nulls.marks_of_mayHaveNull_eq_false none position⟩
    next lists elements below shown =>
      obtain ⟨-, mirrors⟩ := sound.face mem shown
      rw [← mirrors.datum]
      exact ⟨_, Lists.datum?_of_lt (inside.trans_eq mirrors.count.symm),
        Nulls.marks_of_mayHaveNull_eq_false none _⟩
    next keys entries below shown =>
      obtain ⟨present, mirrors⟩ := sound.face mem shown
      obtain ⟨id, listed⟩ := keys.exists_getElem?_toList (inside.trans_eq mirrors.count.symm)
      have some : 0 < keys.count := Nat.zero_lt_of_lt (inside.trans_eq mirrors.count.symm)
      obtain ⟨datum, found, marked⟩ := ih entries below (sound.entries_mem present)
        (by simpa [some] using none) (sound.formed _ present id (List.mem_of_getElem? listed))
      refine ⟨datum, ?_, marked⟩
      rw [← mirrors.datum, Face.toBlock, Block.datum?, listed]
      exact found

end Sound

end BatchColumn
