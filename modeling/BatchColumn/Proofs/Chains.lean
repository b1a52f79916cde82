import BatchColumn.Proofs.Compacting
import BatchColumn.Proofs.Measures

/-!
# Sizes along a chain of dictionaries

A chain of directly nested dictionaries is sized as one dictionary over its bottom: what comes of
all of it is the size of the positions of the bottom that are landed on, and of the ids of the first
dictionary (`Sound.plainSize_of_chain`, by induction along the chain).

Compacting makes that one dictionary, and keeps the size (`Reachable.size_compact`). Entries without
keys weigh what their data cost, and what is gathered of them holds the same data, each datum once
(`Keys.Shrunk.weight`). That the new block is also *asked* for that size needs more: it may start
with what the old block remembers. If everything stood of the block, everything stands of what it is
compacted to (`Sound.stands_of_compact`).
-/

namespace BatchColumn

variable {K : Census} {loads : Loads}

/-! ### Landings -/

namespace Block

/-- The positions of the bottom that the selected positions come to. -/
def landed (loads : Loads) (entries : Block) (mask : Mask) : Mask :=
  match entries.face? loads with
  | some (.dictionary keys inner _) => inner.landed loads (keys.referred mask)
  | _ => mask
termination_by entries.depth

theorem landed_of_isNested_eq_false {b : Block} (flat : b.isNested loads = false) (mask : Mask) :
    b.landed loads mask = mask := by
  rw [landed]
  split
  next shown => exact absurd shown (isNested_eq_false_iff.1 flat _ _ _)
  next => rfl

section Dictionary

variable {b : Block} {keys : Keys} {inner : Block} {below : inner.depth < b.depth}
  (shown : b.face? loads = some (.dictionary keys inner below))

include shown

theorem landed_of_dictionary (mask : Mask) :
    b.landed loads mask = inner.landed loads (keys.referred mask) := by
  rw [landed, shown]

theorem flatWeight_of_dictionary (mask : Mask) :
    b.flatWeight loads mask = inner.flatWeight loads (keys.referred mask) := by
  rw [flatWeight, shown]

end Dictionary

theorem landed_eq_true {entries : Block} {mask : Mask} {q : Nat} :
    entries.landed loads mask q = true ↔
      ∃ p, mask p = true ∧ entries.landing loads p = some q := by
  induction entries using chain_induction loads generalizing mask with
  | flat b flat => simp [landed_of_isNested_eq_false flat, landing_of_isNested_eq_false flat]
  | step b keys inner below shown ih =>
    simp only [landed_of_dictionary shown, landing_of_dictionary shown, ih, Keys.referred_eq_true,
      Option.bind_eq_some_iff]
    constructor
    · intro ⟨id, ⟨p, found, marked⟩, lands⟩
      exact ⟨p, marked, id, found, lands⟩
    · intro ⟨p, marked, id, found, lands⟩
      exact ⟨id, ⟨p, found, marked⟩, lands⟩

/-- Listed positions come to the list of their landings. -/
theorem landed_contains {entries : Block} {ids flat : List Nat}
    (lands : ∀ i : Nat, flat[i]? = ids[i]?.bind (entries.landing loads)) :
    entries.landed loads ids.contains = flat.contains := by
  refine Mask.ext fun q ↦ ?_
  simp only [landed_eq_true, List.contains_iff_mem, List.mem_iff_getElem?, lands,
    Option.bind_eq_some_iff]
  constructor
  · intro ⟨id, ⟨i, listed⟩, lands⟩
    exact ⟨i, id, listed, lands⟩
  · intro ⟨i, id, listed, lands⟩
    exact ⟨id, ⟨i, listed⟩, lands⟩

/-- **Directly nested dictionaries weigh what is landed on.** -/
theorem flatWeight_eq_weight (entries : Block) (handle : Nat) (mask : Mask) :
    entries.flatWeight loads mask =
      (entries.bottom loads handle).2.weight loads (entries.landed loads mask) := by
  induction entries using chain_induction loads generalizing handle mask with
  | flat b flat =>
    rw [flatWeight_of_isNested_eq_false flat, bottom_of_isNested_eq_false flat,
      landed_of_isNested_eq_false flat]
  | step b keys inner below shown ih =>
    rw [flatWeight_of_dictionary shown, bottom_of_dictionary shown, landed_of_dictionary shown,
      ih keys.handle]

end Block

/-- Where every position is selected, every key is referred to. -/
theorem Keys.referred_of_forall {keys : Keys} {mask : Mask}
    (all : ∀ p < keys.count, mask p = true) : keys.referred mask = keys.toList.contains := by
  refine Mask.ext fun id ↦ ?_
  rw [referred_eq_true, List.contains_iff_mem, List.mem_iff_getElem?]
  refine exists_congr fun p ↦ and_iff_left_of_imp fun found ↦ all p ?_
  exact keys.length_toList ▸ (List.getElem?_eq_some_iff.1 found).1

/-! ### Sizes -/

section Sizes

variable {ledger : Ledger} (sound : Sound K loads ledger)

include sound

/-- **A chain is sized as one dictionary over its bottom**: its entries count for what is landed on,
and of all ids those of the first dictionary count. -/
theorem Sound.plainSize_of_chain {keys : Keys} {entries : Block} {handle : Nat}
    (mem : .dictionary keys entries ∈ K) (roomy : entries.Roomy loads)
    (unnested : (entries.bottom loads handle).2.Unnested loads) :
    keys.plainSize loads entries (entries.plainSize loads .all) =
      .ok (entries.flatWeight loads keys.toList.contains + idSize * keys.count) := by
  induction entries using Block.chain_induction loads generalizing keys handle with
  | flat entries flat =>
    rw [Block.bottom_of_isNested_eq_false flat] at unnested
    have whole := Extent.isWhole_all keys.count
    obtain ⟨n, worked, -, exactly⟩ := sound.weighs_dictionary_of_isWhole mem roomy
      (sound.weighs (sound.entries_mem mem) roomy (Extent.fits_all _)) whole
    have unmerged : (Block.dictionary keys entries).Unmerged loads .all :=
      ((Block.unnested_dictionary loads keys entries).2 ⟨flat, unnested⟩).unmerged .all
    rw [← Block.plainSize_dictionary_of_isWhole whole, worked, exactly unmerged,
      Block.flatWeight_of_isNested_eq_false flat]
    exact congrArg Except.ok (Block.weight_dictionary_of_isWhole loads whole entries)
  | step entries inner others below shown ih =>
    obtain ⟨present, mirrors⟩ := sound.face (sound.entries_mem mem) shown
    have ids : ∀ id ∈ keys.toList, id < entries.positionCount := sound.formed _ mem
    rw [Keys.plainSize]
    split
    next covers =>
      -- All of the next dictionary is sized, and its ids are taken off.
      have every : ∀ p < inner.count, keys.toList.contains p = true := fun p inside ↦
        List.contains_iff_mem.2 (mem_of_length_eraseDups ids covers (mirrors.count ▸ inside))
      rw [Block.bottom_of_dictionary shown] at unnested
      have next := ih present (roomy.face shown).entries unnested
      rw [Block.plainSize_of_face shown mirrors.count, Face.toBlock,
        Block.plainSize_dictionary_of_isWhole (Extent.isWhole_all _), next, Block.resolved?, shown,
        Block.flatWeight_of_dictionary shown, Keys.referred_of_forall every]
      simp
    next =>
      rw [markUsed_eq_ok roomy.positionCount_lt ids, ok_bind,
        sound.flatMaskSize_eq_flatWeight (sound.entries_mem mem) roomy]
      rfl

/-- All of a chain of which everything stands is asked for the size of what its ids land on. -/
theorem Sound.size_of_chain {keys : Keys} {entries : Block} {handle : Nat} {flat : List Nat}
    (mem : .dictionary keys entries ∈ K) (roomy : (Block.dictionary keys entries).Roomy loads)
    (stands : (Block.dictionary keys entries).Stands ⟨loads, ledger⟩)
    (unnested : (entries.bottom loads handle).2.Unnested loads)
    (lands : ∀ i : Nat, flat[i]? = keys.toList[i]?.bind (entries.landing loads)) :
    ((Block.dictionary keys entries).size.outcome loads ledger).1 =
      .ok ((entries.bottom loads handle).2.weight loads flat.contains + idSize * keys.count) := by
  obtain ⟨n, run, worked⟩ :=
    sound.sizeOf_of_stands mem stands roomy (Extent.fits_all keys.count)
  rw [Block.plainSize_dictionary_of_isWhole (Extent.isWhole_all _),
    sound.plainSize_of_chain mem roomy.entries unnested, entries.flatWeight_eq_weight handle,
    Block.landed_contains lands] at worked
  rw [Block.size, run, worked]

/-- A dictionary block over entries without keys is asked for the size of what it refers to. -/
theorem Sound.size_of_keyless {keys : Keys} {entries : Block}
    (mem : .dictionary keys entries ∈ K) (roomy : (Block.dictionary keys entries).Roomy loads)
    (stands : (Block.dictionary keys entries).Stands ⟨loads, ledger⟩)
    (keyless : entries.Keyless loads) :
    ((Block.dictionary keys entries).size.outcome loads ledger).1 =
      .ok (entries.weight loads keys.toList.contains + idSize * keys.count) := by
  have flat := keyless.isNested_eq_false
  have bottom := Block.bottom_of_isNested_eq_false flat keys.handle
  have unnested : (entries.bottom loads keys.handle).2.Unnested loads := by
    rw [bottom]
    exact keyless.unnested
  have lands : ∀ i : Nat, keys.toList[i]? = keys.toList[i]?.bind (entries.landing loads) := by
    rw [funext (Block.landing_of_isNested_eq_false flat)]
    exact fun i ↦ (Option.bind_fun_some _).symm
  have size := sound.size_of_chain mem roomy stands unnested lands
  rwa [bottom] at size

end Sizes

/-! ### Compacting keeps the size -/

namespace Keys

variable {keys : Keys} {entries : Block} {out : Keys × Block}

/-- The entries are kept with the keys, or gathered. -/
theorem Shrunk.kept_or_gathered (shrunk : Shrunk K loads keys entries out) :
    (out.2 = entries ∧ out.1.toList = keys.toList) ∨
      Block.Gathered K loads entries out.2 keys.toList.eraseDups ∧
        out.1.toList = renumber keys.toList := by
  by_cases kept : keys.toList.eraseDups.length = entries.positionCount ∨
      entries.supportsGather loads = false
  · exact .inl ((shrunk.kept kept).imp_left (congrArg Prod.snd))
  · simp only [not_or, Bool.not_eq_false] at kept
    exact .inr (shrunk.made kept.1 kept.2)

theorem Shrunk.keyless (shrunk : Shrunk K loads keys entries out)
    (keyless : entries.Keyless loads) : out.2.Keyless loads := by
  obtain ⟨same, -⟩ | ⟨gathered, -⟩ := shrunk.kept_or_gathered
  · exact same ▸ keyless
  · exact gathered.keyless keyless

theorem Shrunk.bounded {bound : Nat} (shrunk : Shrunk K loads keys entries out)
    (keyless : entries.Keyless loads) (few : entries.Bounded bound loads) :
    out.2.Bounded bound loads := by
  obtain ⟨same, -⟩ | ⟨gathered, -⟩ := shrunk.kept_or_gathered
  · exact same ▸ few
  · exact gathered.bounded keyless bound few (nodup_eraseDups _)

/-- **What is gathered weighs what is referred to**, where no data are shared. -/
theorem Shrunk.weight {ledger : Ledger} (sound : Sound K loads ledger)
    (shrunk : Shrunk K loads keys entries out) (mem : entries ∈ K)
    (keyless : entries.Keyless loads) :
    out.2.weight loads out.1.toList.contains = entries.weight loads keys.toList.contains := by
  obtain ⟨same, ids⟩ | ⟨gathered, ids⟩ := shrunk.kept_or_gathered
  · rw [same, ids]
  · -- The new keys refer to all that was gathered.
    have every : ∀ p < out.2.positionCount,
        (renumber keys.toList).contains p = Mask.region 0 out.2.positionCount p := by
      intro p inside
      have low : p < keys.toList.eraseDups.length := gathered.shows.count ▸ inside
      rw [List.contains_iff_mem.2 (mem_renumber_of_lt low),
        Mask.region_eq_true.2 ⟨Nat.zero_le p, (Nat.zero_add _).symm ▸ inside⟩]
    have inside : ∀ id ∈ keys.toList, id < entries.positionCount := fun id listed ↦
      gathered.inside id (List.mem_eraseDups.2 listed)
    calc out.2.weight loads out.1.toList.contains
        = out.2.weight loads (.region 0 out.2.positionCount) := by
          rw [ids, sound.weight_congr gathered.mem every]
      _ = (keys.toList.eraseDups.map entries.cost).sum := by
          rw [sound.weight_of_keyless gathered.mem (gathered.keyless keyless),
            gathered.shows.tally_cost]
      _ = entries.weight loads keys.toList.contains := by
          rw [sound.weight_of_keyless mem keyless, Mask.tally_contains inside]

end Keys

/-! ### What stands after compacting -/

theorem Keys.exists_of_ofIds_none (handle : Nat) (entries : Block) (ids : List Nat)
    (source : SourceId) (loads : Loads) (ledger : Ledger) :
    ∃ keys : Keys, (ofIds handle entries ids source .none).outcome loads ledger =
      (.ok keys, { ledger with next := ledger.next + 2 }) ∧ keys.memory = ledger.next + 1 ∧
        keys.toList = ids := by
  have fits : 0 + ids.length ≤ (View.ofList ledger.next ids).length := by simp
  exact ⟨_, outcome_make_none fits handle entries source loads
    { ledger with next := ledger.next + 1 }, rfl, by simp [toList]⟩

section Stands

variable {ledger : Ledger} (sound : Sound K loads ledger)

include sound

variable {keys : Keys} {entries : Block} (mem : .dictionary keys entries ∈ K)
  (stands : (Block.dictionary keys entries).Stands ⟨loads, ledger⟩)

include mem stands

/-- What stands of keys stands of the same keys under a memory that took over theirs. -/
theorem Sound.stands_of_carried :
    (Block.dictionary { keys with memory := ledger.next } entries).Stands
      ⟨loads, ledger.carried keys.memory⟩ := by
  have blank := (sound.blank ledger.next (Nat.le_refl _)).1
  intro c part n own
  cases part with
  | refl =>
    obtain rfl : ledger.next = n := Option.some.inj own
    obtain ⟨sized, logical⟩ := stands _ .refl keys.memory rfl
    have same : Keys.toList { keys with memory := ledger.next } = keys.toList := rfl
    show (Ledger.memo _ _).Right _ _
    rw [Ledger.memo_carried blank, if_pos rfl, Memo.Right,
      Block.plainSize_dictionary_congr same, Block.plainLogicalSize_dictionary_congr same]
    exact ⟨sized, logical⟩
  | entries part =>
    have old : n ≠ ledger.next :=
      Nat.ne_of_lt (sound.spent c (sound.part_mem (.entries part) mem) n own)
    show (Ledger.memo _ _).Right _ _
    rw [Ledger.memo_carried blank, if_neg old]
    exact stands c (.entries part) n own

variable {out : Keys × Block} {after : Ledger}

theorem Sound.stands_of_shrink (flat : entries.isNested loads = false)
    (run : (keys.shrink entries).outcome loads ledger = (.ok out, after)) :
    (Block.dictionary out.1 out.2).Stands ⟨loads, after⟩ := by
  obtain ⟨-, L, -, later, ends⟩ := Keys.shrink_meets mem flat ledger sound
  rw [run] at later ends
  obtain ⟨shrunk, -⟩ := ends
  by_cases kept : keys.toList.eraseDups.length = entries.positionCount ∨
      entries.supportsGather loads = false
  · -- The result is a duplicate, made after the statistics were asked for.
    obtain ⟨stats, middle, counted, run⟩ := Query.exists_of_outcome_bind run
    have still := sound.stands_of_meets mem stands (Keys.stats_meets mem)
    obtain ⟨-, M, le, sound, truth⟩ := Keys.stats_meets mem ledger sound
    rw [counted] at still sound truth
    obtain ⟨_, _, ⟨⟩, run⟩ := Query.exists_of_outcome_bind run
    rw [if_pos (by simpa [truth.unique] using kept)] at run
    obtain ⟨copy, _, duplicated, ⟨⟩⟩ := Query.exists_of_outcome_bind run
    obtain ⟨⟩ := duplicated
    exact sound.stands_of_carried (Census.mem_of_le le mem) still
  · simp only [not_or, Bool.not_eq_false] at kept
    have eager : (Block.dictionary out.1 out.2).Eager := (shrunk.made kept.1 kept.2).1.eager
    exact later.stands_of_eager shrunk.mem eager

theorem Sound.stands_of_flatten
    (run : (keys.flatten entries).outcome loads ledger = (.ok out, after)) :
    (Block.dictionary out.1 out.2).Stands ⟨loads, after⟩ := by
  have bottom := sound.bottom (sound.entries_mem mem) keys.handle
  obtain ⟨flat, found, -⟩ :=
    sound.flattenIds_eq_ok (sound.entries_mem mem) keys.handle (sound.formed _ mem)
  obtain ⟨_, _, ⟨⟩, run⟩ := Query.exists_of_outcome_bind run
  rw [found] at run
  obtain ⟨_, _, ⟨⟩, run⟩ := Query.exists_of_outcome_bind run
  obtain ⟨source, minted, mint, run⟩ := Query.exists_of_outcome_bind run
  obtain ⟨flattened, _, made, ⟨⟩⟩ := Query.exists_of_outcome_bind run
  obtain ⟨⟩ := mint
  obtain ⟨others, answered, memory, -⟩ := Keys.exists_of_ofIds_none
    (entries.bottom loads keys.handle).1 (entries.bottom loads keys.handle).2 flat
    ⟨.own, ledger.minted⟩ loads { ledger with minted := ledger.minted + 1 }
  obtain ⟨⟩ := answered.symm.trans made
  intro c part n own
  cases part with
  | refl =>
    obtain rfl : ledger.next + 1 = n := memory.symm.trans (Option.some.inj own)
    have blank := (sound.blank (ledger.next + 1) (Nat.le_succ _)).1
    show (ledger.memo (ledger.next + 1)).Right _ _
    exact blank ▸ Memo.right_blank _ _
  | entries part => exact stands c (.entries (part.trans bottom.part)) n own

/-- **What a block is compacted to starts with what stands.** -/
theorem Sound.stands_of_compact
    (run : (keys.compact entries).outcome loads ledger = (.ok out, after)) :
    (Block.dictionary out.1 out.2).Stands ⟨loads, after⟩ := by
  obtain ⟨_, _, ⟨⟩, run⟩ := Query.exists_of_outcome_bind run
  split at run
  next nested =>
    obtain ⟨flat, middle, flattened, run⟩ := Query.exists_of_outcome_bind run
    have still := sound.stands_of_flatten mem stands flattened
    have bottom := sound.bottom (sound.entries_mem mem) keys.handle
    obtain ⟨-, L, -, later, ends⟩ := Keys.flatten_meets mem ledger sound
    rw [flattened] at later ends
    rw [← ends.1.bottom] at bottom
    exact later.stands_of_shrink ends.1.mem still bottom.flat run
  next alone => exact sound.stands_of_shrink mem stands (Bool.eq_false_iff.2 alone) run

/-- **Compacting a chain succeeds**, and the result is asked for the size of what the ids land
on. -/
theorem Sound.exists_compact {flat : List Nat}
    (small : (Block.dictionary keys entries).Small loads)
    (keyless : (entries.bottom loads keys.handle).2.Keyless loads)
    (lands : ∀ i : Nat, flat[i]? = keys.toList[i]?.bind (entries.landing loads)) :
    ∃ out after, (keys.compact entries).outcome loads ledger = (.ok out, after) ∧
      ((Block.dictionary out.1 out.2).size.outcome loads after).1 =
        .ok ((entries.bottom loads keys.handle).2.weight loads flat.contains +
          idSize * keys.count) := by
  have base := sound.bottom (sound.entries_mem mem) keys.handle
  obtain ⟨-, L, le, later, ends⟩ := Keys.compact_meets mem ledger sound
  rcases run : (keys.compact entries).outcome loads ledger with ⟨fault | out, after⟩
  all_goals rw [run] at later ends
  · exact absurd (sound.fitsCompacted_of_keyless mem keyless) (ends small.entries).2
  obtain ⟨-, mirrors, flattened, toBottom, shrunk⟩ := ends
  rw [← toBottom.bottom] at keyless base ⊢
  obtain rfl : flattened.1.toList = flat := List.ext_getElem? fun p ↦
    (toBottom.lands p).trans (lands p).symm
  have count : out.1.count = keys.count := mirrors.count
  have few : out.1.count < 2 ^ 63 := count ▸ small.roomy.positionCount_lt
  have roomy : out.2.Roomy loads := shrunk.bounded keyless fun c part ↦
    small.roomy c (.entries (part.trans base.part))
  have size := later.size_of_keyless shrunk.mem (Block.roomy_dictionary few roomy)
    (sound.stands_of_compact mem stands run) (shrunk.keyless keyless)
  rw [shrunk.weight later (Census.mem_of_le le base.mem) keyless, count] at size
  exact ⟨out, after, rfl, size⟩

end Stands

/-! ### In reachable worlds -/

/-- **Chains are sized as if they were flattened, and compacting keeps the size.** The size of a
dictionary block over directly nested ones is that of the positions of the bottom that its ids land
on, and of the ids, if there are no keys in the bottom. Nothing may have been loaded in the block
since what is remembered of it stood. -/
theorem Reachable.size_compact {w : World} (reachable : Reachable w) {keys : Keys}
    {entries bottom : Block} (held : .dictionary keys entries ∈ w.blocks)
    (small : (Block.dictionary keys entries).Small w.store.loads)
    (steady : w.Steady (.dictionary keys entries))
    (chain : (entries.bottom w.store.loads keys.handle).2 = bottom)
    (keyless : bottom.Keyless w.store.loads) :
    ∃ (flat : List Nat) (n : Nat) (compacted : Keys) (others : Block) (after : Ledger),
      flat.length = keys.count ∧
      (∀ p : Nat, flat[p]? = keys.toList[p]?.bind (entries.landing w.store.loads)) ∧
      bottom.positionsSize w.store.loads ((List.range bottom.positionCount).map flat.contains) =
        .ok n ∧
      ((Block.dictionary keys entries).size.outcome w.store.loads w.store.ledger).1 =
        .ok (n + idSize * keys.count) ∧
      (keys.compact entries).outcome w.store.loads w.store.ledger =
        (.ok (compacted, others), after) ∧
      ((Block.dictionary compacted others).size.outcome w.store.loads after).1 =
        .ok (n + idSize * keys.count) := by
  subst chain
  have stands := reachable.stands_of_steady held steady
  obtain ⟨K, sound, known⟩ := reachable.sound
  have mem := known _ held
  have base := sound.bottom (sound.entries_mem mem) keys.handle
  obtain ⟨flat, -, length, lands, -⟩ :=
    sound.flattenIds_eq_ok (sound.entries_mem mem) keys.handle (sound.formed _ mem)
  have roomy : (entries.bottom w.store.loads keys.handle).2.Roomy w.store.loads := fun c part ↦
    small.roomy c (.entries (part.trans base.part))
  have size := sound.size_of_chain mem small.roomy stands keyless.unnested lands
  obtain ⟨out, after, run, again⟩ := sound.exists_compact mem stands small keyless lands
  exact ⟨flat, _, out.1, out.2, after, length.trans keys.length_toList, lands,
    sound.positionsSize_map_range base.mem roomy _, size, run, again⟩

namespace World

/-- A promise of the dictionary block of the sample. -/
def promisedEntries : Block := .lazy ⟨⟨6, 3, fun _ ↦ none⟩, []⟩ stackedEntries

/-- Two keys to it. -/
def linkedKeys : Keys := ⟨0, 2, .ofList 8 [0, 2], ⟨.own, 1⟩, 7, 9, by decide⟩

/-- The world in which the dictionary block of the sample is promised. -/
def promised : World :=
  sample.after (.defer (.dictionary sampleKeys sampleEntries) 3 fun _ ↦ none)

/-- The world in which the promise is loaded. -/
def fulfilled : World :=
  promised.after (.load ⟨⟨6, 3, fun _ ↦ none⟩, []⟩ stackedEntries)

/-- The world that holds the keys to it as well. -/
def linked : World :=
  fulfilled.after (.dictionary promisedEntries [0, 2] none)

theorem blocks_promised : promised.blocks = promisedEntries :: sample.blocks := rfl

theorem blocks_fulfilled : fulfilled.blocks = stackedEntries :: promised.blocks := by
  cbv

theorem blocks_linked :
    linked.blocks = .dictionary linkedKeys promisedEntries :: fulfilled.blocks := by
  cbv

theorem reachable_linked : Reachable linked := by
  have reachable_promised : Reachable promised :=
    reachable_sample.after (by simp [Call.operands, blocks_sample]) trivial
  have reachable_fulfilled : Reachable fulfilled :=
    reachable_promised.after (by simp [Call.operands, blocks_promised, promisedEntries]) trivial
  exact reachable_fulfilled.after
    (by simp [Call.operands, blocks_fulfilled, blocks_promised]) trivial

/-- Both keys land on the null entry of the sample. It is all that is gathered, and counts once in
the size of the chain and in that of the block that it is compacted to. -/
theorem size_compact_linked : ∃ compacted others after,
    ((Block.dictionary linkedKeys promisedEntries).size.outcome
      linked.store.loads linked.store.ledger).1 = .ok 17 ∧
    (linkedKeys.compact promisedEntries).outcome linked.store.loads linked.store.ledger =
      (.ok (compacted, others), after) ∧
    ((Block.dictionary compacted others).size.outcome linked.store.loads after).1 = .ok 17 := by
  have held : .dictionary linkedKeys promisedEntries ∈ linked.blocks := by
    simp [blocks_linked]
  have small : (Block.dictionary linkedKeys promisedEntries).Small linked.store.loads := by
    obtain ⟨K, sound, known⟩ := reachable_linked.sound
    refine sound.small (known _ held) (Block.small_dictionary (by decide) ?_)
    exact Block.small_lazy (by decide) (Block.small_dictionary (by decide) small_sampleEntries) rfl
  -- Nothing was ever asked for, so nothing is remembered.
  have blank : ∀ n, linked.store.ledger.memo n = .blank := by
    have sizes : linked.store.ledger.sizes = .empty := by cbv
    have stats : linked.store.ledger.stats = .empty := by cbv
    have logicalSizes : linked.store.ledger.logicalSizes = .empty := by cbv
    intro n
    rw [Ledger.memo, sizes, stats, logicalSizes]
    rfl
  have steady : linked.Steady (.dictionary linkedKeys promisedEntries) :=
    Leads.steady_of_blank reachable_linked .refl held (fun _ _ n _ ↦ blank n) (.refl _ _)
  have size : ((Block.dictionary linkedKeys promisedEntries).size.outcome
      linked.store.loads linked.store.ledger).1 = .ok 17 := by
    cbv
  obtain ⟨flat, n, compacted, others, after, -, -, -, whole, run, again⟩ :=
    Reachable.size_compact reachable_linked held small steady
      (show _ = sampleEntries by cbv) (by simp [sampleEntries])
  exact ⟨compacted, others, after, size, run, again.trans (whole.symm.trans size)⟩

end World

end BatchColumn
