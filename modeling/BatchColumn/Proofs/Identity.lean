import BatchColumn.Proofs.Worlds
import Mathlib

/-!
# What the identity of a dictionary identifies

In a run in which no identities are given to dictionaries, all of them are minted, and a minted
identity is that of one dictionary: dictionary blocks with equal identities refer to the same
entries under the same handle, however they were made and wherever they are found. The two
operations that put other entries under the keys of a dictionary block, compacting and loading
throughout, mint an identity for them that was not minted before.

The first is read off the census of the last world, which forbids all identities from being given
(`World.Leads.counts`). For the second, the census is raised to what was minted so far
(`Sound.raise`), and the two operations mint above it (`Sound.mints_of_compact`,
`Sound.mints_of_materialise`).
-/

namespace BatchColumn

variable {K : Census} {keys : Keys} {entries : Block}

/-- Entries under another handle have an identity of their own. -/
theorem Keys.Minted.of_handle {floor : Nat} {out : Keys × Block}
    (minted : Minted floor keys entries out) (other : out.1.handle ≠ keys.handle) :
    ∃ n, floor ≤ n ∧ out.1.source = ⟨.own, n⟩ :=
  minted.resolve_left fun ⟨_, same⟩ ↦ other (congrArg Prod.fst same)

namespace Sound

variable {store : Store} (sound : Sound K store.loads store.ledger)
  (mem : .dictionary keys entries ∈ K)

include sound mem

/-- Compacting mints the identity of entries that it makes. -/
theorem mints_of_compact {made : Keys} {others : Block} {ledger : Ledger}
    (run : (keys.compact entries).outcome store.loads store.ledger = (.ok (made, others), ledger))
    (other : made.handle ≠ keys.handle) :
    ∃ n, store.ledger.minted ≤ n ∧ made.source = ⟨.own, n⟩ := by
  obtain ⟨-, _, _, _, ends⟩ := Keys.compact_minted
    (Census.mem_of_le (K.le_raise store.ledger.minted) mem) store.ledger sound.raise
  rw [run] at ends
  obtain ⟨n, late, own⟩ := ends.2.of_handle other
  exact ⟨n, (Nat.le_max_right _ _).trans late, own⟩

/-- Loading throughout mints the identity of entries that it loads. -/
theorem mints_of_materialise {c : Block} {after : Store}
    (run : (Block.dictionary keys entries).materialise.outcome store = (.ok c, after)) :
    ∃ made others, c = .dictionary made others ∧
      (made.handle ≠ keys.handle → ∃ n, store.ledger.minted ≤ n ∧ made.source = ⟨.own, n⟩) := by
  have mem := Census.mem_of_le (K.le_raise store.ledger.minted) mem
  obtain ⟨_, _, _, ends⟩ := Block.materialise_dictionary mem
    (Block.materialise_meets (sound.raise.entries_mem mem)) store sound.raise
  rw [run] at ends
  obtain ⟨-, made, others, rfl, minted⟩ := ends
  refine ⟨made, others, rfl, fun other ↦ ?_⟩
  obtain ⟨n, late, own⟩ := minted.of_handle other
  exact ⟨n, (Nat.le_max_right _ _).trans late, own⟩

end Sound

/-- What the identities of dictionaries tell in a world. -/
structure World.Identifies (w : World) : Prop where
  /-- Every identity was minted. -/
  minted : ∀ b ∈ w.blocks, ∀ keys entries,
    Block.Part w.store.loads (.dictionary keys entries) b →
      ∃ n < w.store.ledger.minted, keys.source = ⟨.own, n⟩
  /-- Equal identities are those of one dictionary. -/
  same : ∀ b ∈ w.blocks, ∀ c ∈ w.blocks, ∀ keys entries others below,
    Block.Part w.store.loads (.dictionary keys entries) b →
      Block.Part w.store.loads (.dictionary others below) c → keys.source = others.source →
        keys.handle = others.handle ∧ entries = below
  /-- Compacting mints the identity of entries that it makes. -/
  compact : ∀ keys entries, .dictionary keys entries ∈ w.blocks → ∀ made others ledger,
    (keys.compact entries).outcome w.store.loads w.store.ledger = (.ok (made, others), ledger) →
      made.handle ≠ keys.handle → ∃ n, w.store.ledger.minted ≤ n ∧ made.source = ⟨.own, n⟩
  /-- Loading throughout makes a dictionary block, and mints the identity of entries that it
  loads. -/
  materialise : ∀ keys entries, .dictionary keys entries ∈ w.blocks → ∀ c store,
    (Block.dictionary keys entries).materialise.outcome w.store = (.ok c, store) →
      ∃ made others, c = .dictionary made others ∧
        (made.handle ≠ keys.handle → ∃ n, w.store.ledger.minted ≤ n ∧ made.source = ⟨.own, n⟩)

/-- **A dictionary identity identifies one dictionary**, in every world that is reached without
giving identities. -/
theorem World.Leads.identifies {w : World} (leads : World.empty.Leads (Call.Gives ∅) w) :
    w.Identifies := by
  obtain ⟨K, le, sound, known⟩ := leads.counts (World.counts_empty ∅)
  have ungiven : ∀ source, source ∉ K.given := fun source given ↦ by
    rw [← le.given] at given
    exact given
  have part_mem : ∀ b ∈ w.blocks, ∀ c, Block.Part w.store.loads c b → c ∈ K :=
    fun b held c part ↦ sound.part_mem part (known b held)
  refine ⟨fun b held keys entries part ↦ ?_,
    fun b held c held' keys entries others below part part' same ↦ ?_,
    fun keys entries held made others ledger run other ↦ ?_,
    fun keys entries held c store run ↦ ?_⟩
  · exact sound.sourced.minted keys entries (part_mem b held _ part) (ungiven _)
  · exact sound.sourced.same keys entries others below (part_mem b held _ part)
      (part_mem c held' _ part') same (ungiven _)
  · exact sound.mints_of_compact (known _ held) run other
  · exact sound.mints_of_materialise (known _ held) run

/-! ### Identities that are kept, and one that is minted -/

namespace World

/-- The first of the keys of the sample. -/
def firstKeys : Keys := { sampleKeys with count := 1, memory := 5, fits := by decide }

/-- The two outer keys of the sample, selected from the last to the first. -/
def outerKeys : Keys := ⟨0, 2, .ofList 6 [1, 1], ⟨.own, 0⟩, 2, 7, by decide⟩

/-- The world that holds a window of the sample and a selection. -/
def derived : World :=
  (sample.after (.window (.dictionary sampleKeys sampleEntries) 0 1)).after
    (.select (.dictionary sampleKeys sampleEntries) [2, 0] 0 2)

theorem blocks_derived :
    derived.blocks = .dictionary outerKeys sampleEntries ::
      .dictionary firstKeys sampleEntries :: sample.blocks := by
  cbv

/-- No identities are given on the way. -/
theorem leads_derived : empty.Leads (Call.Gives ∅) derived := by
  have leads : empty.Leads (Call.Gives ∅) sample :=
    .after (.after .refl (by rintro _ ⟨⟩) trivial trivial)
      (fun _ mem ↦ List.mem_singleton.1 mem ▸ List.mem_cons_self) trivial trivial
  refine .after (.after leads ?_ trivial trivial) (fun b mem ↦ ?_) trivial trivial
  · simp [Call.operands, blocks_sample]
  · obtain rfl := List.mem_singleton.1 mem
    exact mem_after (by simp [blocks_sample]) _

/-- A window and a selection keep the identity of the dictionary block of the sample, and all blocks
with that identity refer to its entries. Compacting the window makes another block of entries, and
mints its identity. -/
theorem identifies_derived : ∃ made others ledger,
    (firstKeys.compact sampleEntries).outcome derived.store.loads derived.store.ledger =
      (.ok (made, others), ledger) ∧
    let w := derived.after (.compact firstKeys sampleEntries)
    .dictionary made others ∈ w.blocks ∧ made.source ≠ sampleKeys.source ∧
    .dictionary firstKeys sampleEntries ∈ w.blocks ∧
    .dictionary outerKeys sampleEntries ∈ w.blocks ∧
    ∀ b ∈ w.blocks, ∀ keys entries, Block.Part w.store.loads (.dictionary keys entries) b →
      keys.source = sampleKeys.source → keys.handle = 2 ∧ entries = sampleEntries := by
  have held : .dictionary firstKeys sampleEntries ∈ derived.blocks := by simp [blocks_derived]
  obtain ⟨⟨made, others⟩, ledger, run, other⟩ : ∃ out ledger,
      (firstKeys.compact sampleEntries).outcome derived.store.loads derived.store.ledger =
        (.ok out, ledger) ∧ (out.1.handle != firstKeys.handle) = true :=
    exists_eq_ok_of_any (by cbv)
  obtain ⟨n, late, own⟩ := leads_derived.identifies.compact _ _ held made others ledger run
    (by simpa using other)
  have minted : derived.store.ledger.minted = 1 := by cbv
  have next : derived.after (.compact firstKeys sampleEntries) =
      ⟨{ derived.store with ledger := ledger }, [.dictionary made others] ++ derived.blocks⟩ :=
    after_of_outcome (Session.outcome_bind_of_ok (Session.outcome_query run))
  have leads : empty.Leads (Call.Gives ∅) (derived.after (.compact firstKeys sampleEntries)) :=
    leads_derived.after (by simpa [Call.operands] using held) trivial trivial
  have first := mem_after held (.compact firstKeys sampleEntries)
  refine ⟨made, others, ledger, run, next ▸ List.mem_cons_self, fun same ↦ ?_, first,
    mem_after (by simp [blocks_derived]) _, fun b there keys entries part same ↦ ?_⟩
  · -- The identity of the sample was minted before.
    obtain rfl : 0 = n := congrArg SourceId.sequence (same.symm.trans own)
    omega
  · obtain ⟨handle, below⟩ := leads.identifies.same _ there _ first keys entries firstKeys
      sampleEntries part .refl same
    exact ⟨handle, below⟩

end World

end BatchColumn
