import BatchColumn.Proofs.Agreement
import BatchColumn.Proofs.Recall

/-!
# How sizes of parts and of wholes compare

Three ways lead to the size of some positions of a block: flags select them, a region names them, or
a window is made of them and sized. All three are compared with the weight of the positions.

* Sizing by flags comes to the weight, so it is monotone and subadditive in the flags, in every
  reachable world (`Reachable.positionsSize_union`).
* Sizing by a region comes to at most the weight. A part is never sized above the flags of the
  whole, and not above the whole unless sizing the whole merges dictionaries
  (`Reachable.sizeOf_within`).
* Where no dictionaries are nested and nothing is promised, all three ways agree, whatever is
  remembered (`Reachable.sizes_agree`).

Merging is what makes the difference: all of `World.stacked` is sized as one dictionary, but two of
its three positions as a dictionary over a dictionary, and that is more.
-/

namespace BatchColumn

/-! ### Flags as masks -/

namespace Mask

theorem ofFlags_eq_true {flags : List Bool} {p : Nat} :
    ofFlags flags p = true ↔ flags[p]? = some true := by
  rw [ofFlags, List.getD_eq_getElem?_getD]
  rcases flags[p]? with - | flag <;> simp

theorem ofFlags_le {flags others : List Bool}
    (subset : ∀ p : Nat, flags[p]? = some true → others[p]? = some true) :
    ofFlags flags ≤ ofFlags others :=
  fun p marked ↦ ofFlags_eq_true.2 (subset p (ofFlags_eq_true.1 marked))

/-- The union of two selections of the same positions. -/
theorem ofFlags_zipWith_or {flags others : List Bool} (same : flags.length = others.length) :
    ofFlags (flags.zipWith (· || ·) others) = ofFlags flags ⊔ ofFlags others := by
  refine Mask.ext fun p ↦ ?_
  simp only [sup_eq_true, ofFlags_eq_true, List.getElem?_zipWith_eq_some, Bool.or_eq_true]
  constructor
  · rintro ⟨flag, other, found, there, rfl | rfl⟩
    · exact .inl found
    · exact .inr there
  · rintro (found | there)
    · have inside := (List.getElem?_eq_some_iff.1 found).1
      exact ⟨true, _, found, List.getElem?_eq_getElem (same ▸ inside), .inl rfl⟩
    · have inside := (List.getElem?_eq_some_iff.1 there).1
      exact ⟨_, true, List.getElem?_eq_getElem (same ▸ inside), there, .inr rfl⟩

/-- The flags of a mask select what the mask does. -/
theorem ofFlags_map_range (mask : Mask) {count p : Nat} (inside : p < count) :
    ofFlags ((List.range count).map mask) p = mask p := by
  rw [Bool.eq_iff_iff, ofFlags_eq_true, List.getElem?_map, List.getElem?_range inside]
  simp

end Mask

namespace Sound

variable {K : Census} {loads : Loads} {ledger : Ledger} (sound : Sound K loads ledger)

include sound

/-- **Sizing by flags comes to the weight of the positions flagged.** -/
theorem positionsSize_eq_weight {b : Block} (mem : b ∈ K) (roomy : b.Roomy loads)
    {flags : List Bool} (all : flags.length = b.positionCount) :
    b.positionsSize loads flags = .ok (b.weight loads (.ofFlags flags)) := by
  rw [Block.positionsSize, checkFlags, if_pos all]
  exact sound.maskSize_eq_weight mem roomy _

theorem positionsSize_map_range {b : Block} (mem : b ∈ K) (roomy : b.Roomy loads) (mask : Mask) :
    b.positionsSize loads ((List.range b.positionCount).map mask) = .ok (b.weight loads mask) := by
  rw [sound.positionsSize_eq_weight mem roomy (by simp)]
  exact congrArg _ (sound.weight_congr mem fun _ ↦ mask.ofFlags_map_range)

/-- Sizing an extent of a block of which everything stands comes to at most the weight of its
positions. -/
theorem sizeOf_weighs {b : Block} (mem : b ∈ K) (stands : b.Stands ⟨loads, ledger⟩)
    (roomy : b.Roomy loads) {extent : Extent}
    (fits : extent.offset + extent.length b.positionCount ≤ b.positionCount) :
    ∃ n, ((b.sizeOf extent).outcome loads ledger).1 = .ok n ∧
      n ≤ b.weight loads (extent.mask b.positionCount) ∧
        (b.Unmerged loads extent → n = b.weight loads (extent.mask b.positionCount)) := by
  obtain ⟨n, run, worked⟩ := sound.sizeOf_of_stands mem stands roomy fits
  obtain ⟨m, again, le, exactly⟩ := sound.weighs mem roomy fits
  obtain rfl : n = m := Except.ok.inj (worked.symm.trans again)
  exact ⟨n, run, le, exactly⟩

end Sound

/-! ### Flags -/

/-- **Sizing by flags is monotone and subadditive**: in every reachable world, more flags come to no
less, and the flags of either to no more than both together. -/
theorem Reachable.positionsSize_union {w : World} (reachable : Reachable w) {b : Block}
    (held : b ∈ w.blocks) (roomy : b.Roomy w.store.loads) {flags others : List Bool}
    (all : flags.length = b.positionCount) (rest : others.length = b.positionCount) :
    ∃ n m u, b.positionsSize w.store.loads flags = .ok n ∧
      b.positionsSize w.store.loads others = .ok m ∧
      b.positionsSize w.store.loads (flags.zipWith (· || ·) others) = .ok u ∧ u ≤ n + m ∧
        ((∀ p : Nat, flags[p]? = some true → others[p]? = some true) → n ≤ m) := by
  obtain ⟨K, sound, known⟩ := reachable.sound
  have mem := known b held
  have union : (flags.zipWith (· || ·) others).length = b.positionCount := by
    rw [List.length_zipWith, all, rest, Nat.min_self]
  refine ⟨_, _, _, sound.positionsSize_eq_weight mem roomy all,
    sound.positionsSize_eq_weight mem roomy rest, sound.positionsSize_eq_weight mem roomy union,
    ?_, fun subset ↦ b.weight_mono _ (Mask.ofFlags_le subset)⟩
  rw [Mask.ofFlags_zipWith_or (all.trans rest.symm)]
  exact b.weight_sup_le _ _ _

/-- Two positions of the sample that share an entry. -/
theorem World.positionsSize_sample : ∃ n m u,
    (Block.dictionary sampleKeys sampleEntries).positionsSize sample.store.loads
        [true, false, false] = .ok n ∧
      (Block.dictionary sampleKeys sampleEntries).positionsSize sample.store.loads
        [false, false, true] = .ok m ∧
      (Block.dictionary sampleKeys sampleEntries).positionsSize sample.store.loads
        [true, false, true] = .ok u ∧ u ≤ n + m := by
  obtain ⟨n, m, u, first, last, both, le, -⟩ :=
    Reachable.positionsSize_union (b := .dictionary sampleKeys sampleEntries) reachable_sample
      (by simp [blocks_sample])
      (Block.roomy_dictionary (by decide) small_sampleEntries.roomy)
      (show [true, false, false].length = 3 by decide)
      (show [false, false, true].length = 3 by decide)
  exact ⟨n, m, u, first, last, both, le⟩

/-! ### Windows -/

/-- A window whose positions are positions of the block is made. -/
theorem Sound.exists_window {K : Census} {loads : Loads} {ledger : Ledger}
    (sound : Sound K loads ledger) {b : Block} (mem : b ∈ K) {offset length : Nat}
    (fits : offset + length ≤ b.positionCount) :
    ∃ r after L, (b.window offset length).outcome loads ledger = (.ok r, after) ∧
      Sound L loads after ∧ Block.IsWindow L r b offset length := by
  obtain ⟨-, L, -, later, ends⟩ := Block.windowWithin_meets mem offset length ledger sound
  rcases run : (b.windowWithin offset length).outcome loads ledger with ⟨fault | r, after⟩
  all_goals rw [run] at later ends
  · exact absurd fits ends.2
  · exact ⟨r.1, after, L, Query.outcome_bind_of_ok run, later, ends⟩

/-- Of a block in which nothing is promised everything stands. -/
theorem Sound.stands_of_eager {K : Census} {loads : Loads} {ledger : Ledger}
    (sound : Sound K loads ledger) {b : Block} (mem : b ∈ K) (eager : b.Eager) :
    b.Stands ⟨loads, ledger⟩ :=
  sound.stands_of_follows mem ⟨.inl rfl, fun _ _ part ↦ (eager.part part).elim⟩

/-- **Where no dictionaries are nested and nothing is promised, a region has one size**: as a
region, by flags, and as a window. -/
theorem Reachable.sizes_agree {w : World} (reachable : Reachable w) {b : Block}
    (held : b ∈ w.blocks) (roomy : b.Roomy w.store.loads) (eager : b.Eager)
    (unnested : b.Unnested w.store.loads) {offset length : Nat}
    (fits : offset + length ≤ b.positionCount) :
    ∃ n r after,
      ((b.regionSize offset length).outcome w.store.loads w.store.ledger).1 = .ok n ∧
      b.positionsSize w.store.loads
          ((List.range b.positionCount).map (Mask.region offset length)) = .ok n ∧
      (b.window offset length).outcome w.store.loads w.store.ledger = (.ok r, after) ∧
        (r.size.outcome w.store.loads after).1 = .ok n := by
  obtain ⟨K, sound, known⟩ := reachable.sound
  have mem := known b held
  obtain ⟨n, region, -, exactly⟩ := sound.sizeOf_weighs mem (sound.stands_of_eager mem eager) roomy
    (show Extent.offset (.region offset length) + Extent.length _ (.region offset length) ≤
      b.positionCount from fits)
  obtain ⟨r, after, L, made, later, window⟩ := sound.exists_window mem fits
  have trimmed := window.trimmed eager
  obtain ⟨m, whole, -, again⟩ := later.sizeOf_weighs window.mem
    (later.stands_of_eager window.mem trimmed.eager) (trimmed.roomy _ roomy)
    (Extent.fits_all r.positionCount)
  have count : r.positionCount = length := window.shows.count.trans List.length_range'
  have same : m = n := calc
    m = r.weight w.store.loads (.region 0 r.positionCount) :=
      again ((trimmed.unnested _ unnested).unmerged .all)
    _ = b.weight w.store.loads (.region offset length) := by
      rw [count]
      exact trimmed.weight _
    _ = n := (exactly (unnested.unmerged _)).symm
  exact ⟨n, r, after, region, exactly (unnested.unmerged _) ▸
    sound.positionsSize_map_range mem roomy _, made, same ▸ whole⟩

/-- The last two positions of the sample share an entry with the first and the second. -/
theorem World.sizes_agree_sample : ∃ n r after,
    (((Block.dictionary sampleKeys sampleEntries).regionSize 1 2).outcome
      sample.store.loads sample.store.ledger).1 = .ok n ∧
    (Block.dictionary sampleKeys sampleEntries).positionsSize sample.store.loads
      [false, true, true] = .ok n ∧
    ((Block.dictionary sampleKeys sampleEntries).window 1 2).outcome
      sample.store.loads sample.store.ledger = (.ok r, after) ∧
      (r.size.outcome sample.store.loads after).1 = .ok n :=
  Reachable.sizes_agree (b := .dictionary sampleKeys sampleEntries) reachable_sample
    (by simp [blocks_sample]) (Block.roomy_dictionary (by decide) small_sampleEntries.roomy)
    trivial (by simp [sampleEntries]) (show 1 + 2 ≤ 3 by decide)

/-! ### Parts and wholes -/

theorem Extent.mask_le {inner outer : Extent} {count : Nat} (after : outer.offset ≤ inner.offset)
    (before : inner.offset + inner.length count ≤ outer.offset + outer.length count) :
    inner.mask count ≤ outer.mask count := by
  intro p marked
  rw [mask, Mask.region_eq_true] at marked ⊢
  omega

/-- **No part is sized above the flags of the whole**, and none above the whole unless sizing the
whole merges dictionaries. Nothing may have been loaded in the block since what is remembered of it
stood. -/
theorem Reachable.sizeOf_within {w : World} (reachable : Reachable w) {b : Block}
    (held : b ∈ w.blocks) (roomy : b.Roomy w.store.loads) (steady : w.Steady b)
    {inner outer : Extent}
    (fits : outer.offset + outer.length b.positionCount ≤ b.positionCount)
    (after : outer.offset ≤ inner.offset) (before : inner.offset + inner.length b.positionCount ≤
      outer.offset + outer.length b.positionCount) :
    ∃ part whole flagged,
      ((b.sizeOf inner).outcome w.store.loads w.store.ledger).1 = .ok part ∧
      ((b.sizeOf outer).outcome w.store.loads w.store.ledger).1 = .ok whole ∧
      b.positionsSize w.store.loads
          ((List.range b.positionCount).map (outer.mask b.positionCount)) = .ok flagged ∧
        part ≤ flagged ∧ whole ≤ flagged ∧
          (b.Unmerged w.store.loads outer → part ≤ whole ∧ whole = flagged) := by
  have stands := reachable.stands_of_steady held steady
  obtain ⟨K, sound, known⟩ := reachable.sound
  have mem := known b held
  obtain ⟨part, smaller, below, -⟩ := sound.sizeOf_weighs mem stands roomy (before.trans fits)
  obtain ⟨whole, larger, le, exactly⟩ := sound.sizeOf_weighs mem stands roomy fits
  have within := below.trans (b.weight_mono w.store.loads (Extent.mask_le after before))
  exact ⟨part, whole, _, smaller, larger, sound.positionsSize_map_range mem roomy _, within, le,
    fun unmerged ↦ ⟨exactly unmerged ▸ within, exactly unmerged⟩⟩

namespace World

/-- Two positions of the sample are no larger than all three. -/
theorem sizeOf_within_sample : ∃ part whole,
    (((Block.dictionary sampleKeys sampleEntries).regionSize 0 2).outcome
      sample.store.loads sample.store.ledger).1 = .ok part ∧
    ((Block.dictionary sampleKeys sampleEntries).size.outcome
      sample.store.loads sample.store.ledger).1 = .ok whole ∧ part ≤ whole := by
  obtain ⟨part, whole, _, smaller, larger, -, -, -, plain⟩ :=
    @Reachable.sizeOf_within sample reachable_sample (.dictionary sampleKeys sampleEntries)
      (by simp [blocks_sample]) (Block.roomy_dictionary (by decide) small_sampleEntries.roomy)
      (.inl fun _ _ _ ↦ rfl) (.region 0 2) .all (by decide) (by decide) (by decide)
  exact ⟨part, whole, smaller, larger,
    (plain (Block.Unnested.unmerged (by simp [sampleEntries]) _)).1⟩

/-- The dictionary block of the sample as entries: a duplicate. -/
def stackedEntries : Block := .dictionary { sampleKeys with memory := 5 } sampleEntries

/-- Three keys to them. -/
def stackedKeys : Keys := ⟨0, 3, .ofList 7 [0, 1, 2], ⟨.own, 1⟩, 6, 8, by decide⟩

/-- The world that holds a dictionary block over the one of the sample. -/
def stacked : World :=
  sample.after (.dictionary (.dictionary sampleKeys sampleEntries) [0, 1, 2] none)

theorem blocks_stacked :
    stacked.blocks = .dictionary stackedKeys stackedEntries :: sample.blocks := by
  cbv

theorem reachable_stacked : Reachable stacked :=
  reachable_sample.after (by simp [Call.operands, blocks_sample]) trivial

/-- **Two of the three positions are sized above all of them**: with them the ids of the inner
dictionary are counted, with all three they are not. -/
theorem not_sizeOf_within : Reachable stacked ∧
    .dictionary stackedKeys stackedEntries ∈ stacked.blocks ∧
    (Block.dictionary stackedKeys stackedEntries).Eager ∧
    ((Block.dictionary stackedKeys stackedEntries).size.outcome
      stacked.store.loads stacked.store.ledger).1 = .ok 30 ∧
    (((Block.dictionary stackedKeys stackedEntries).regionSize 0 2).outcome
      stacked.store.loads stacked.store.ledger).1 = .ok 34 := by
  refine ⟨reachable_stacked, by simp [blocks_stacked], trivial, ?_, ?_⟩
  · cbv
  · cbv

end World

end BatchColumn
