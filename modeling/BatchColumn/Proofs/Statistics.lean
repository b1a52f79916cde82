import BatchColumn.Proofs.Worlds
import Mathlib

/-!
# Statistics tell the truth

What a dictionary block says of its ids is counted when it is first asked for, or was vouched for by
whoever made the block: gathers, selections and compacting all publish statistics that they have not
counted. Either way they are those of the ids (`Keys.stats_meets`), because makers vouch only for
what they have arranged (`Keys.make_meets`).

So three facts hold of every dictionary block at every depth of a reachable world, whatever is
loaded and remembered (`Keys.Tells`, `Reachable.dictionary_tells`): the number of unique ids is that
of the entries referred to, a block is called compact just if it is, and ids that are called
sequential grow from each position to the next. Only counting needs room, a mask over the entries.

Ids that grow need not be called sequential. Over a dictionary block they never are. Over other
entries there is one maker that misses them: a selection from compact keys that refers to every
entry again is vouched for as compact, and as not sequential unseen
(`World.not_sequential_selected`). So ids that grow are called sequential wherever nothing is
selected, and wherever some entry is not referred to (`World.Leads.sequential_iff`).
-/

namespace BatchColumn

/-- There are as many entries referred to as there are distinct ids. -/
theorem card_toFinset_eq_length_eraseDups (ids : List Nat) :
    ids.toFinset.card = ids.eraseDups.length := by
  have same : ids.eraseDups.toFinset = ids.toFinset := by
    ext id
    simp
  rw [← same, List.toFinset_card_of_nodup (nodup_eraseDups ids)]

/-- There are as many distinct ids as entries just if every entry is referred to. -/
theorem Keys.Intact.length_eraseDups_eq_iff {keys : Keys} {count : Nat}
    (intact : keys.Intact count) :
    keys.toList.eraseDups.length = count ↔ ∀ position < count, position ∈ keys.toList :=
  ⟨fun whole _ room ↦ mem_of_length_eraseDups intact whole room,
    length_eraseDups_of_covers intact⟩

/-- What a dictionary block tells of its ids is what is true of them. If it does not tell, there is
no room for a mask over its entries. -/
structure Keys.Tells (store : Store) (keys : Keys) (entries : Block) : Prop where
  /-- The unique ids are counted right, and ids that are called sequential grow. -/
  stats : Ends ((keys.stats entries).outcome store.loads store.ledger).1
    (fun stats ↦ stats.unique = keys.toList.toFinset.card ∧
      (stats.sequential = true → keys.toList.Pairwise (· < ·)))
    fun _ ↦ ¬ entries.Roomy store.loads
  /-- The block is called compact just if its entries are no dictionary block and all of them are
  referred to. -/
  isCompact : Ends ((keys.isCompact entries).outcome store.loads store.ledger).1
    (fun compact ↦ compact = true ↔ entries.isNested store.loads = false ∧
      ∀ position < entries.positionCount, position ∈ keys.toList)
    fun _ ↦ ¬ entries.Roomy store.loads

/-- What a dictionary block of the census tells of its ids is true. -/
theorem Sound.keys_tell {K : Census} {store : Store}
    (sound : Sound K store.loads store.ledger) {keys : Keys} {entries : Block}
    (mem : .dictionary keys entries ∈ K) : keys.Tells store entries where
  stats := by
    obtain ⟨-, L, -, -, ends⟩ := Keys.stats_meets mem store.ledger sound
    refine ends.mono (fun stats told ↦ ⟨?_, fun grows ↦ ?_⟩) fun _ ↦ And.right
    · rw [told.unique, card_toFinset_eq_length_eraseDups]
    · exact increasing_iff_pairwise.1 (told.sequential grows)
  isCompact := by
    have intact : keys.Intact entries.positionCount := sound.formed _ mem
    obtain ⟨-, L, -, -, ends⟩ := Keys.isCompact_meets mem store.ledger sound
    exact ends.mono (fun compact told ↦ told.trans
      (and_congr_right fun _ ↦ intact.length_eraseDups_eq_iff)) fun _ ↦ id

/-- **Statistics are truthful.** Whatever a dictionary block was made by, and whatever is loaded and
remembered, what it tells of its ids is what is true of them. -/
theorem Reachable.dictionary_tells {w : World} (reachable : Reachable w) {b : Block}
    (held : b ∈ w.blocks) {keys : Keys} {entries : Block}
    (part : Block.Part w.store.loads (.dictionary keys entries) b) :
    keys.Tells w.store entries := by
  obtain ⟨K, sound, known⟩ := reachable.sound
  exact sound.keys_tell (sound.part_mem part (known b held))

namespace World

/-- Two keys to the three integers, the last one first. -/
def pickedKeys : Keys := ⟨0, 2, .ofList 3 [2, 0], ⟨.own, 0⟩, 2, 4, by decide⟩

/-- The two integers that are referred to, in the order of first reference. -/
def compactedEntries : Block := .ints ⟨.long, .ofList 5 [3, 1], ⟨none⟩⟩

/-- Two keys to them. Their statistics were vouched for, not counted. -/
def compactedKeys : Keys := ⟨0, 2, .ofList 8 [0, 1], ⟨.own, 1⟩, 7, 9, by decide⟩

/-- The world that holds a dictionary block of two of the three integers, and what it is compacted
to. -/
def compacted : World :=
  ((empty.after (.intsOfOptions .long [some 1, some 2, some 3])).after
    (.dictionary deferredLeaf [2, 0] none)).after (.compact pickedKeys deferredLeaf)

theorem blocks_compacted : compacted.blocks =
    [.dictionary compactedKeys compactedEntries, .dictionary pickedKeys deferredLeaf,
      deferredLeaf] := by
  cbv

theorem reachable_compacted : Reachable compacted :=
  .after (.after (.after .empty (by rintro _ ⟨⟩) trivial)
    (fun _ mem ↦ List.mem_singleton.1 mem ▸ List.mem_cons_self) trivial)
    (fun _ mem ↦ List.mem_singleton.1 mem ▸ List.mem_cons_self) trivial

/-- Compacting has vouched for two ids, which are there and in order. -/
theorem dictionary_tells_compacted :
    compacted.store.ledger.stats.get? compactedKeys.memory = some ⟨26, 2, true⟩ ∧
      compactedKeys.Tells compacted.store compactedEntries :=
  ⟨by cbv, reachable_compacted.dictionary_tells (blocks_compacted ▸ List.mem_cons_self) .refl⟩

end World

/-! ### Ids that grow -/

/-- Ids that grow are called sequential, unless the entries are a dictionary block or the keys,
which may have been selected, refer to all of them. -/
theorem Keys.Noted.sequential_eq_true_iff {selects : Prop} {loads : Loads} {keys : Keys}
    {entries : Block} {stats : Stats} (told : keys.Noted selects loads entries stats)
    (intact : keys.Intact entries.positionCount) (flat : entries.isNested loads = false)
    (seen : selects → ∃ position < entries.positionCount, position ∉ keys.toList) :
    stats.sequential = true ↔ keys.toList.Pairwise (· < ·) := by
  refine ⟨fun grows ↦ increasing_iff_pairwise.1 (told.sequential grows), fun grows ↦ ?_⟩
  rcases told.noted (increasing_iff_pairwise.2 grows) with sequential | nested | ⟨selects, all⟩
  · exact sequential
  · exact absurd (flat.symm.trans nested) (by decide)
  · -- A selection that was vouched for refers to every entry.
    obtain ⟨position, room, missed⟩ := seen selects
    have covers := intact.length_eraseDups_eq_iff.1 (told.unique.symm.trans all)
    exact absurd (covers position room) missed

/-- **Ids that grow are called sequential**, and no others, if the entries are no dictionary block.
How the block was made makes no difference to that where nothing is selected, or where some entry is
not referred to. -/
theorem World.Leads.sequential_iff {w : World} {allowed : Call → Prop}
    (leads : World.empty.Leads allowed w) {b : Block} (held : b ∈ w.blocks) {keys : Keys}
    {entries : Block} (part : Block.Part w.store.loads (.dictionary keys entries) b)
    (flat : entries.isNested w.store.loads = false)
    (seen : (∀ call, allowed call → ¬ call.Selects) ∨
      ∃ position < entries.positionCount, position ∉ keys.toList) :
    Ends ((keys.stats entries).outcome w.store.loads w.store.ledger).1
      (fun stats ↦ stats.sequential = true ↔ keys.toList.Pairwise (· < ·))
      fun _ ↦ ¬ entries.Roomy w.store.loads := by
  obtain ⟨K, le, sound, known⟩ := leads.counts_of (K := .empty .univ (∃ call, allowed call ∧
    call.Selects)) (fun call _ ↦ call.gives_univ) (fun call kind selects ↦ ⟨call, kind, selects⟩)
    ⟨.empty _ _, by rintro _ ⟨⟩⟩
  have mem := sound.part_mem part (known b held)
  obtain ⟨-, L, later, -, ends⟩ := Keys.stats_meets mem w.store.ledger sound
  refine ends.mono (fun stats told ↦ ?_) fun _ ↦ And.right
  refine told.toNoted.sequential_eq_true_iff (sound.formed _ mem) flat fun selects ↦
    seen.resolve_left ?_
  intro plain
  obtain ⟨call, kind, select⟩ : ∃ call, allowed call ∧ call.Selects :=
    (le.selects.trans later.selects).mpr selects
  exact plain call kind select

namespace World

/-- Two ids that grow are called sequential: nothing is selected on the way. -/
theorem sequential_compacted :
    World.empty.Leads (fun call ↦ ¬ call.Selects) compacted ∧
      Ends ((compactedKeys.stats compactedEntries).outcome compacted.store.loads
        compacted.store.ledger).1 (fun stats ↦ stats.sequential = true) fun _ ↦ False := by
  have leads : World.empty.Leads (fun call ↦ ¬ call.Selects) compacted :=
    .after (.after (.after .refl (by rintro _ ⟨⟩) trivial id)
      (fun _ mem ↦ List.mem_singleton.1 mem ▸ List.mem_cons_self) trivial id)
      (fun _ mem ↦ List.mem_singleton.1 mem ▸ List.mem_cons_self) trivial id
  have told := leads.sequential_iff (blocks_compacted ▸ List.mem_cons_self) .refl
    (Block.isNested_ints _ _) (.inl fun _ ↦ id)
  exact ⟨leads, told.mono (fun _ grows ↦ grows.2 (by decide)) fun _ crowded ↦
    crowded (Block.roomy_ints (by decide))⟩

/-- Two integers. -/
def pairLeaf : Block := .ints (.ofOptions .long 0 1 [some 1, some 2])

/-- Keys to both of them, in their order. -/
def pairKeys : Keys := ⟨0, 2, .ofList 3 [0, 1], ⟨.own, 0⟩, 2, 4, by decide⟩

/-- A selection of both keys. -/
def selectedKeys : Keys := ⟨0, 2, .ofList 5 [0, 1], ⟨.own, 0⟩, 2, 6, by decide⟩

/-- The world that holds the keys, and a selection of all of them. -/
def selected : World :=
  ((empty.after (.intsOfOptions .long [some 1, some 2])).after
    (.dictionary pairLeaf [0, 1] none)).after (.select (.dictionary pairKeys pairLeaf) [0, 1] 0 2)

theorem blocks_selected : selected.blocks =
    [.dictionary selectedKeys pairLeaf, .dictionary pairKeys pairLeaf, pairLeaf] := by
  cbv

theorem reachable_selected : Reachable selected :=
  .after (.after (.after .empty (by rintro _ ⟨⟩) trivial)
    (fun _ mem ↦ List.mem_singleton.1 mem ▸ List.mem_cons_self) trivial)
    (fun _ mem ↦ List.mem_singleton.1 mem ▸ List.mem_cons_self) trivial

/-- **Two blocks with the same ids over the same entries differ in what they are called.** The ids
grow, and are called sequential in the block that was selected from, but not in the selection. -/
theorem not_sequential_selected : Reachable selected ∧
    .dictionary selectedKeys pairLeaf ∈ selected.blocks ∧
    pairLeaf.isNested selected.store.loads = false ∧ pairLeaf.Roomy selected.store.loads ∧
    selectedKeys.toList = pairKeys.toList ∧ selectedKeys.toList.Pairwise (· < ·) ∧
    (∃ stats ledger, (pairKeys.stats pairLeaf).outcome selected.store.loads selected.store.ledger =
      (.ok stats, ledger) ∧ stats.sequential = true) ∧
    ∃ stats ledger, (selectedKeys.stats pairLeaf).outcome selected.store.loads
      selected.store.ledger = (.ok stats, ledger) ∧ stats.sequential = false := by
  refine ⟨reachable_selected, blocks_selected ▸ List.mem_cons_self, Block.isNested_ints _ _,
    Block.roomy_ints (by decide), by decide, by decide,
    ⟨⟨26, 2, true⟩, selected.store.ledger, ?_, rfl⟩, ⟨26, 2, false⟩, selected.store.ledger, ?_, rfl⟩
  · cbv
  · cbv

end World

end BatchColumn
