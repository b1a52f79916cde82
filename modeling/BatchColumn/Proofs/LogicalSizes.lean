import BatchColumn.Proofs.Chains

/-!
# Logical sizes along a chain of dictionaries

The logical size of a dictionary block asks the entries for the size of one position at a time. An
entry that is itself a key is sized as a key: its id is counted with what it refers to, and so is
the id of each layer below. So the logical size of a chain is that of the positions of the bottom
that its ids land on, and of the ids of every layer but the first, if that is a word
(`Sound.logicalSize_of_chain`).

How many ids are counted with a position is its **charge** (`Block.charge`). The charge is the
number of layers below the first, except that a single position is all of its block: all of a block
is sized as if its layers were one, and one id is counted.

So the logical size depends on how many layers encode the values. Compacting leaves one layer, which
charges nothing, and takes the charge off (`Reachable.logicalSize_compact`).
-/

namespace BatchColumn

variable {K : Census} {loads : Loads} {ledger : Ledger}

/-! ### Charges -/

namespace Block

/-- How many ids are sized with one of the entries: one for each layer, but at most one if the entry
is all there is. -/
def charge (loads : Loads) (entries : Block) : Nat :=
  if entries.positionCount = 1 then min 1 (entries.keyDepth loads) else entries.keyDepth loads

theorem keyDepth_of_isNested_eq_false {b : Block} (flat : b.isNested loads = false) :
    b.keyDepth loads = 0 := by
  rw [keyDepth]
  split
  next shown => exact absurd shown (isNested_eq_false_iff.1 flat _ _ _)
  next => rfl

theorem charge_of_isNested_eq_false {b : Block} (flat : b.isNested loads = false) :
    b.charge loads = 0 := by
  simp [charge, keyDepth_of_isNested_eq_false flat]

theorem keyDepth_of_dictionary {b : Block} {keys : Keys} {inner : Block}
    {below : inner.depth < b.depth} (shown : b.face? loads = some (.dictionary keys inner below)) :
    b.keyDepth loads = inner.keyDepth loads + 1 := by
  rw [keyDepth, shown]

/-- A key costs what the entry that it refers to costs. -/
theorem cost_dictionary {keys : Keys} {inner : Block} {p id : Nat}
    (found : keys.toList[p]? = some id) : (dictionary keys inner).cost p = inner.cost id := by
  rw [cost, Block.datum?, found, Option.bind_some, cost]

/-- The keys of a dictionary block cost what the entries at the ids cost. -/
theorem map_cost_dictionary (keys : Keys) (entries : Block) :
    (List.range keys.count).map (dictionary keys entries).cost =
      keys.toList.map entries.cost := by
  refine List.ext_getElem? fun p ↦ ?_
  rw [List.getElem?_map, List.getElem?_map]
  rcases found : keys.toList[p]? with - | id
  · have outside : keys.count ≤ p := keys.length_toList ▸ List.getElem?_eq_none_iff.1 found
    rw [List.getElem?_eq_none (by simpa using outside)]
    rfl
  · have inside : p < keys.count := keys.length_toList ▸ (List.getElem?_eq_some_iff.1 found).1
    rw [List.getElem?_range inside, Option.map_some, Option.map_some, cost_dictionary found]

end Block

/-- A single position refers to a single entry. -/
theorem Keys.referred_single {keys : Keys} {p id : Nat} (found : keys.toList[p]? = some id) :
    keys.referred [p].contains = [id].contains := by
  refine Mask.ext fun q ↦ ?_
  simp only [referred_eq_true, List.contains_iff_mem, List.mem_singleton]
  constructor
  · rintro ⟨_, there, rfl⟩
    exact Option.some.inj (there.symm.trans found)
  · rintro rfl
    exact ⟨p, found, rfl⟩

/-- A region of one position. -/
theorem Mask.region_one (p : Nat) : region p 1 = [p].contains := by
  refine Mask.ext fun q ↦ ?_
  rw [region_eq_true, List.contains_iff_mem, List.mem_singleton]
  omega

theorem Mask.tally_single {p count : Nat} (inside : p < count) (cost : Nat → Nat) :
    tally [p].contains count cost = cost p := by
  rw [tally_contains (by simpa using inside), eraseDups_of_nodup (List.nodup_singleton p),
    List.map_singleton, List.sum_singleton]

/-! ### One position of a chain -/

section Single

variable (sound : Sound K loads ledger)

include sound

/-- **A position costs what it lands on.** -/
theorem Sound.cost_of_landing {entries : Block} (mem : entries ∈ K) (handle : Nat) {p r : Nat}
    (lands : entries.landing loads p = some r) :
    entries.cost p = (entries.bottom loads handle).2.cost r := by
  induction entries using Block.chain_induction loads generalizing handle p with
  | flat b flat =>
    rw [Block.landing_of_isNested_eq_false flat] at lands
    obtain rfl := Option.some.inj lands
    rw [Block.bottom_of_isNested_eq_false flat]
  | step b keys inner below shown ih =>
    obtain ⟨present, mirrors⟩ := sound.face mem shown
    rw [Block.landing_of_dictionary shown] at lands
    obtain ⟨id, found, lands⟩ := Option.bind_eq_some_iff.1 lands
    rw [Block.bottom_of_dictionary shown, ← mirrors.cost, Face.toBlock,
      Block.cost_dictionary found]
    exact ih (sound.entries_mem present) keys.handle lands

/-- **A position of a chain weighs what it costs, and an id for each layer**; if the layers were
one, it would weigh what it costs. -/
theorem Sound.weight_of_single {entries : Block} (mem : entries ∈ K) {handle : Nat}
    (keyless : (entries.bottom loads handle).2.Keyless loads) {p : Nat}
    (inside : p < entries.positionCount) :
    entries.weight loads [p].contains = entries.cost p + idSize * entries.keyDepth loads ∧
      entries.flatWeight loads [p].contains = entries.cost p := by
  induction entries using Block.chain_induction loads generalizing handle p with
  | flat b flat =>
    rw [Block.bottom_of_isNested_eq_false flat] at keyless
    rw [Block.flatWeight_of_isNested_eq_false flat, sound.weight_of_keyless mem keyless,
      Block.keyDepth_of_isNested_eq_false flat, Mask.tally_single inside]
    exact ⟨rfl, rfl⟩
  | step b keys inner below shown ih =>
    obtain ⟨present, mirrors⟩ := sound.face mem shown
    rw [Block.bottom_of_dictionary shown] at keyless
    have counted : p < keys.count := inside.trans_eq mirrors.count.symm
    obtain ⟨id, found⟩ := keys.exists_getElem?_toList counted
    have low : id < inner.positionCount := sound.formed _ present id (List.mem_of_getElem? found)
    obtain ⟨weight, flatWeight⟩ := ih (sound.entries_mem present) keyless low
    rw [b.weight_of_face shown, Block.flatWeight_of_dictionary shown,
      Block.keyDepth_of_dictionary shown, Face.toBlock, Block.weight_dictionary,
      Keys.referred_single found, weight, flatWeight, ← mirrors.cost, Face.toBlock,
      Block.cost_dictionary found, Mask.tally_single counted]
    exact ⟨by ring, rfl⟩

section Keys

variable {keys : Keys} {inner : Block} (mem : .dictionary keys inner ∈ K)
  (roomy : inner.Roomy loads) {handle : Nat}
  (keyless : (inner.bottom loads handle).2.Keyless loads) {p id : Nat}
  (found : keys.toList[p]? = some id)

include mem roomy keyless found

/-- A position that is all there is, is sized as if the layers were one. -/
theorem Sound.plainSize_of_only (only : keys.count = 1) :
    (Block.dictionary keys inner).plainSize loads (.region p 1) =
      .ok (inner.cost id + idSize) := by
  have low : id < inner.positionCount := sound.formed _ mem id (List.mem_of_getElem? found)
  obtain ⟨-, flatWeight⟩ := sound.weight_of_single (sound.entries_mem mem) keyless low
  obtain rfl : p = 0 := by
    have inside := (List.getElem?_eq_some_iff.1 found).1
    rw [keys.length_toList] at inside
    omega
  have whole : Extent.isWhole keys.count (.region 0 1) = true := by
    rw [only]
    rfl
  have alone : keys.toList = [id] := by
    obtain ⟨single, same⟩ := List.length_eq_one_iff.1 (keys.length_toList.trans only)
    rw [same] at found ⊢
    exact congrArg (fun id ↦ [id]) (Option.some.inj found)
  rw [Block.plainSize_dictionary_of_isWhole whole,
    sound.plainSize_of_chain mem roomy keyless.unnested, alone, flatWeight, only, Nat.mul_one]

/-- One position of several is sized as the entry, and an id for each layer. -/
theorem Sound.plainSize_of_several (several : keys.count ≠ 1) :
    (Block.dictionary keys inner).plainSize loads (.region p 1) =
      .ok (inner.cost id + idSize * (inner.keyDepth loads + 1)) := by
  have low : id < inner.positionCount := sound.formed _ mem id (List.mem_of_getElem? found)
  obtain ⟨weight, -⟩ := sound.weight_of_single (sound.entries_mem mem) keyless low
  have fits : Extent.offset (.region p 1) + Extent.length keys.count (.region p 1) ≤ keys.count :=
    (List.getElem?_eq_some_iff.1 found).1.trans_eq keys.length_toList
  have part : ¬ Extent.isWhole keys.count (.region p 1) = true := by
    simp only [Extent.isWhole, Extent.offset, Extent.length, Bool.and_eq_true, beq_iff_eq]
    omega
  have used : stretch keys.toList p 1 = [id] := stretch_succ found 0
  rw [Block.plainSize_dictionary_of_part fits part]
  show (do
    let used ← markUsed inner.positionCount (stretch keys.toList p 1)
    return (← inner.maskSize loads used) + idSize * 1 : Except Fault Nat) = _
  rw [used, markUsed_eq_ok roomy.positionCount_lt (by simpa using low), ok_bind,
    sound.maskSize_eq_weight (sound.entries_mem mem) roomy, ok_bind]
  show Except.ok (inner.weight loads [id].contains + idSize * 1) = _
  rw [weight, Nat.mul_add, Nat.add_assoc]

end Keys

/-- **One position of a chain is sized as what it costs, and its charge of ids.** -/
theorem Sound.plainSize_of_single {entries : Block} (mem : entries ∈ K) {handle : Nat}
    (roomy : entries.Roomy loads) (keyless : (entries.bottom loads handle).2.Keyless loads)
    {p : Nat} (inside : p < entries.positionCount) : entries.plainSize loads (.region p 1) =
      .ok (entries.cost p + idSize * entries.charge loads) := by
  have fits : Extent.offset (.region p 1) + Extent.length entries.positionCount (.region p 1) ≤
      entries.positionCount := inside
  induction entries using Block.chain_induction loads with
  | flat b flat =>
    rw [Block.bottom_of_isNested_eq_false flat] at keyless
    obtain ⟨n, worked, -, exactly⟩ := sound.weighs mem roomy fits
    rw [worked, exactly (keyless.unnested.unmerged _), Block.charge_of_isNested_eq_false flat]
    show Except.ok (b.weight loads (.region p 1)) = _
    rw [Mask.region_one, sound.weight_of_keyless mem keyless, Mask.tally_single inside]
    rfl
  | step b keys inner below shown _ =>
    obtain ⟨present, mirrors⟩ := sound.face mem shown
    rw [Block.bottom_of_dictionary shown] at keyless
    have counted : p < keys.count := inside.trans_eq mirrors.count.symm
    obtain ⟨id, found⟩ := keys.exists_getElem?_toList counted
    have deep := (roomy.face shown).entries
    rw [Block.plainSize_of_face shown mirrors.count, Block.charge,
      Block.keyDepth_of_dictionary shown, ← mirrors.count, ← mirrors.cost, Face.toBlock,
      Block.cost_dictionary found]
    show _ = Except.ok (_ + idSize * if keys.count = 1 then _ else _)
    split
    next only =>
      rw [sound.plainSize_of_only present deep keyless found only,
        Nat.min_eq_left (Nat.le_add_left 1 _), Nat.mul_one]
    next several => exact sound.plainSize_of_several present deep keyless found several

end Single

/-! ### All positions of a chain -/

section Chain

variable (sound : Sound K loads ledger) {keys : Keys} {entries : Block} {handle : Nat}
  (mem : .dictionary keys entries ∈ K)

include sound mem

/-- **The logical size of a chain is what its positions cost, and the charge for each**, if that is
a word. -/
theorem Sound.plainLogicalSize_of_chain (roomy : entries.Roomy loads)
    (room : entries.positionCount < 2 ^ 32 - 1)
    (keyless : (entries.bottom loads handle).2.Keyless loads) :
    (Block.dictionary keys entries).plainLogicalSize loads =
      checkSize (((List.range keys.count).map (Block.dictionary keys entries).cost).sum +
        idSize * entries.charge loads * keys.count) := by
  have inside : ∀ id ∈ keys.toList, id < entries.positionCount := sound.formed _ mem
  have allocated : allocate entries.positionCount optionalSize = .ok () :=
    allocate_of_lt (by rw [optionalSize]; omega)
  have each : ∀ id ∈ keys.toList, entries.plainEntrySize loads id =
      .ok (entries.cost id + idSize * entries.charge loads) := by
    intro id listed
    rw [Block.plainEntrySize, if_neg (Nat.not_le.2 (inside id listed))]
    exact sound.plainSize_of_single (sound.entries_mem mem) roomy keyless (inside id listed)
  rw [Block.plainLogicalSize, Block.face?]
  simp only [allocated, ok_bind]
  rw [sumOver_eq_checkSize fun id listed ↦ .inl (each id listed), Block.map_cost_dictionary,
    List.sum_map_add, List.map_const', List.sum_replicate, smul_eq_mul, keys.length_toList,
    Nat.mul_comm keys.count]

/-- A chain of which everything stands is asked for what its positions cost, and the charge for
each. -/
theorem Sound.logicalSize_of_chain
    (stands : (Block.dictionary keys entries).Stands ⟨loads, ledger⟩)
    (small : (Block.dictionary keys entries).Small loads)
    (keyless : (entries.bottom loads handle).2.Keyless loads) :
    ((Block.dictionary keys entries).logicalSize.outcome loads ledger).1 =
      checkSize (((List.range keys.count).map (Block.dictionary keys entries).cost).sum +
        idSize * entries.charge loads * keys.count) :=
  (sound.logicalSize_of_stands mem stands small).trans
    (sound.plainLogicalSize_of_chain mem small.entries.roomy (small.entries _ .refl) keyless)

/-- **Compacting takes the charge off.** -/
theorem Sound.logicalSize_of_compact
    (stands : (Block.dictionary keys entries).Stands ⟨loads, ledger⟩)
    (small : (Block.dictionary keys entries).Small loads)
    (keyless : (entries.bottom loads keys.handle).2.Keyless loads) :
    ∃ out after, (keys.compact entries).outcome loads ledger = (.ok out, after) ∧
      ((Block.dictionary out.1 out.2).logicalSize.outcome loads after).1 =
        checkSize ((List.range keys.count).map (Block.dictionary keys entries).cost).sum := by
  have base := sound.bottom (sound.entries_mem mem) keys.handle
  have fits := sound.fitsCompacted_of_keyless mem keyless
  obtain ⟨-, L, le, later, ends⟩ := Keys.compact_meets mem ledger sound
  rcases run : (keys.compact entries).outcome loads ledger with ⟨fault | out, after⟩
  all_goals rw [run] at later ends
  · exact absurd fits (ends small.entries).2
  obtain ⟨-, mirrors, flattened, toBottom, shrunk⟩ := ends
  rw [← toBottom.bottom] at keyless base
  have count : out.1.count = keys.count := mirrors.count
  have few : flattened.2.Small loads := fun c part ↦ small c (.entries (part.trans base.part))
  have others : (Block.dictionary out.1 out.2).Small loads :=
    Block.small_dictionary (count ▸ small _ .refl) (shrunk.bounded keyless few)
  -- One layer is left, over entries that are no dictionary block.
  have single := shrunk.keyless keyless
  have flat := single.isNested_eq_false
  have bottom : (out.2.bottom loads out.1.handle).2.Keyless loads := by
    rwa [Block.bottom_of_isNested_eq_false flat]
  have size := later.logicalSize_of_chain shrunk.mem (sound.stands_of_compact mem stands run)
    others bottom
  rw [Block.charge_of_isNested_eq_false flat, mirrors.cost, count, Nat.mul_zero, Nat.zero_mul,
    Nat.add_zero] at size
  exact ⟨out, after, rfl, size⟩

/-- The positions of a chain cost what they land on. -/
theorem Sound.map_cost_of_landing {flat : List Nat} (length : flat.length = keys.count)
    (lands : ∀ p : Nat, flat[p]? = keys.toList[p]?.bind (entries.landing loads)) :
    (List.range keys.count).map (Block.dictionary keys entries).cost =
      flat.map (entries.bottom loads keys.handle).2.cost := by
  rw [Block.map_cost_dictionary]
  refine List.ext_getElem? fun p ↦ ?_
  rw [List.getElem?_map, List.getElem?_map, lands]
  rcases found : keys.toList[p]? with - | id
  · rfl
  · rcases landed : entries.landing loads id with - | r
    · -- Every id lands somewhere.
      have missing : flat[p]? = none := by rw [lands, found, Option.bind_some, landed]
      have inside := (List.getElem?_eq_some_iff.1 found).1
      rw [keys.length_toList, ← length] at inside
      exact absurd (List.getElem?_eq_none_iff.1 missing) (Nat.not_le.2 inside)
    · rw [Option.bind_some, landed, Option.map_some, Option.map_some,
        sound.cost_of_landing (sound.entries_mem mem) keys.handle landed]

end Chain

/-! ### In reachable worlds -/

/-- **The logical size of a chain is that of what its ids land on, and of the ids charged for**, and
compacting takes the charge off. A sum that is no word is not answered. Nothing may have been loaded
in the block since what is remembered of it stood. -/
theorem Reachable.logicalSize_compact {w : World} (reachable : Reachable w) {keys : Keys}
    {entries bottom : Block} (held : .dictionary keys entries ∈ w.blocks)
    (small : (Block.dictionary keys entries).Small w.store.loads)
    (steady : w.Steady (.dictionary keys entries))
    (chain : (entries.bottom w.store.loads keys.handle).2 = bottom)
    (keyless : bottom.Keyless w.store.loads) :
    ∃ (flat sizes : List Nat) (compacted : Keys) (others : Block) (after : Ledger),
      flat.length = keys.count ∧
      (∀ p : Nat, flat[p]? = keys.toList[p]?.bind (entries.landing w.store.loads)) ∧
      List.Forall₂ (fun r n ↦
        ((bottom.regionSize r 1).outcome w.store.loads w.store.ledger).1 = .ok n) flat sizes ∧
      ((Block.dictionary keys entries).logicalSize.outcome w.store.loads w.store.ledger).1 =
        checkSize (sizes.sum + idSize * entries.charge w.store.loads * keys.count) ∧
      (keys.compact entries).outcome w.store.loads w.store.ledger =
        (.ok (compacted, others), after) ∧
      ((Block.dictionary compacted others).logicalSize.outcome w.store.loads after).1 =
        checkSize sizes.sum := by
  subst chain
  have stands := reachable.stands_of_steady held steady
  obtain ⟨K, sound, known⟩ := reachable.sound
  have mem := known _ held
  have base := sound.bottom (sound.entries_mem mem) keys.handle
  obtain ⟨flat, -, length, lands, low, -⟩ :=
    sound.flattenIds_eq_ok (sound.entries_mem mem) keys.handle (sound.formed _ mem)
  rw [keys.length_toList] at length
  have size := sound.logicalSize_of_chain mem stands small keyless
  obtain ⟨out, after, run, again⟩ := sound.logicalSize_of_compact mem stands small keyless
  rw [sound.map_cost_of_landing mem length lands] at size again
  refine ⟨flat, _, out.1, out.2, after, length, lands, ?_, size, run, again⟩
  rw [List.forall₂_map_right_iff, List.forall₂_same]
  intro r landed
  have roomy : (entries.bottom w.store.loads keys.handle).2.Roomy w.store.loads := fun c part ↦
    small.roomy c (.entries (part.trans base.part))
  have single : ((entries.bottom w.store.loads keys.handle).2.bottom w.store.loads 0).2.Keyless
      w.store.loads := by
    rwa [Block.bottom_of_isNested_eq_false base.flat]
  obtain ⟨n, asked, worked⟩ := sound.sizeOf_of_stands base.mem
    (stands.part (.entries base.part)) roomy
    (show Extent.offset (.region r 1) + Extent.length _ (.region r 1) ≤
      (entries.bottom w.store.loads keys.handle).2.positionCount from low r landed)
  rw [sound.plainSize_of_single base.mem roomy single (low r landed),
    Block.charge_of_isNested_eq_false base.flat] at worked
  rw [Block.regionSize, asked, ← worked]
  rfl

namespace World

/-- Three positions of nine bytes each, and an id of the lower keys with each. -/
theorem outcome_logicalSize_stacked :
    ((Block.dictionary stackedKeys stackedEntries).logicalSize.outcome stacked.store.loads
      stacked.store.ledger).1 = .ok 39 := by
  cbv

/-- Keys over keys are charged an id for each position, until they are compacted. -/
theorem logicalSize_compact_stacked : ∃ n compacted others after,
    ((Block.dictionary stackedKeys stackedEntries).logicalSize.outcome stacked.store.loads
      stacked.store.ledger).1 = .ok (n + 12) ∧
    (stackedKeys.compact stackedEntries).outcome stacked.store.loads stacked.store.ledger =
      (.ok (compacted, others), after) ∧
    ((Block.dictionary compacted others).logicalSize.outcome stacked.store.loads after).1 =
      .ok n := by
  have small : (Block.dictionary stackedKeys stackedEntries).Small stacked.store.loads :=
    Block.small_dictionary (by decide) (Block.small_dictionary (by decide) small_sampleEntries)
  obtain ⟨flat, sizes, compacted, others, after, -, -, -, size, run, again⟩ :=
    reachable_stacked.logicalSize_compact (by simp [blocks_stacked]) small
      (.inl fun _ _ _ ↦ rfl) (show _ = sampleEntries by cbv) (by simp [sampleEntries])
  have charge : stackedEntries.charge stacked.store.loads = 1 := by cbv
  rw [charge] at size
  -- The sum is a word, since it is answered.
  obtain ⟨word, -⟩ := checkSize_eq_ok_iff.1 (size.symm.trans outcome_logicalSize_stacked)
  refine ⟨sizes.sum, compacted, others, after, size.trans (checkSize_of_lt word), run, ?_⟩
  exact again.trans (checkSize_of_lt (Nat.lt_of_le_of_lt (Nat.le_add_right _ _) word))

/-- **The logical size depends on the layers.** Every position of the sample has eight bytes and a
flag, and three of them make 27 bytes. The keys over the keys of the sample come to 39, and to 27
when they are compacted. -/
theorem not_logicalSize_stacked : Reachable stacked ∧
    .dictionary stackedKeys stackedEntries ∈ stacked.blocks ∧
    (∀ r < sampleEntries.positionCount, ((sampleEntries.regionSize r 1).outcome
      stacked.store.loads stacked.store.ledger).1 = .ok 9) ∧
    ((Block.dictionary stackedKeys stackedEntries).logicalSize.outcome stacked.store.loads
      stacked.store.ledger).1 = .ok 39 ∧
    (Query.outcome (do
        let (compacted, others) ← stackedKeys.compact stackedEntries
        (Block.dictionary compacted others).logicalSize)
      stacked.store.loads stacked.store.ledger).1 = .ok 27 := by
  refine ⟨reachable_stacked, by simp [blocks_stacked], fun r inside ↦ ?_, ?_, ?_⟩
  · have few : sampleEntries.positionCount = 2 := rfl
    obtain rfl | rfl : r = 0 ∨ r = 1 := by omega
    · cbv
    · cbv
  · exact outcome_logicalSize_stacked
  · cbv

end World

end BatchColumn
