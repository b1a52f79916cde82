import BatchColumn.Proofs.Measures
import BatchColumn.Proofs.Statistics

/-!
# Compacting settles

A dictionary block is **settled** if compacting has nothing to do: its entries are no dictionary
block, and all of them are referred to or they cannot be gathered (`Keys.Settled`).

* Compacting keeps a settled block, with its identity, its handle and its ids
  (`Keys.compact_of_settled`).
* Whatever compacting answers is settled (`Keys.Shrunk.settled`): entries that were gathered are all
  referred to, by keys whose statistics are remembered, and entries that were kept are those of a
  chain's bottom.
* A block that is not settled gets other entries, so its identity is newly minted
  (`Keys.Minted.of_not_settled`).

So compacting is idempotent, and keeps the identity of a dictionary exactly if it changes nothing
(`Reachable.compact_settles`). Being settled depends on what is loaded in the block alone, so this
holds in every later world in which no more of it is loaded.
-/

namespace BatchColumn

variable {K : Census} {loads : Loads} {keys : Keys} {entries : Block}

/-! ### Unmoved blocks -/

namespace Block

variable {since : Loads} {b : Block}

theorem Unmoved.isNested (unmoved : b.Unmoved since loads) :
    b.isNested loads = b.isNested since := by
  rw [Block.isNested, unmoved.resolved?, Block.isNested]

theorem Unmoved.supportsGather (unmoved : b.Unmoved since loads) :
    b.supportsGather loads = b.supportsGather since := by
  induction b using Block.walk with
  | step b ih =>
    rw [Block.supportsGather, Block.supportsGather, unmoved.face?]
    rcases shown : b.face? since with - | face
    · rfl
    · have unmoved := unmoved.of_face shown
      rcases face with leaf | leaf | ⟨lists, elements, below⟩ | ⟨keys, entries, below⟩
      · rfl
      · rfl
      · exact ih elements below unmoved.elements
      · exact ih entries below unmoved.entries

theorem Small.of_unmoved (small : b.Small since) (unmoved : b.Unmoved since loads) :
    b.Small loads :=
  fun c part ↦ small c (unmoved.part_of_part part)

end Block

namespace Keys

/-! ### Settled blocks -/

/-- Compacting has nothing to do: the entries are no dictionary block, and all of them are referred
to or they cannot be gathered. -/
def Settled (loads : Loads) (keys : Keys) (entries : Block) : Prop :=
  entries.isNested loads = false ∧
    ((∀ position < entries.positionCount, position ∈ keys.toList) ∨
      entries.supportsGather loads = false)

theorem Settled.of_unmoved {since : Loads} (settled : keys.Settled since entries)
    (unmoved : entries.Unmoved since loads) : keys.Settled loads entries :=
  ⟨unmoved.isNested.trans settled.1, settled.2.imp_right unmoved.supportsGather.trans⟩

/-- An answer with the same dictionary and the same ids. -/
structure Keeps (keys : Keys) (entries : Block) (out : Keys × Block) : Prop where
  /-- It has the identity of the dictionary. -/
  source : out.1.source = keys.source
  /-- It has the handle of the entries. -/
  handle : out.1.handle = keys.handle
  /-- It has the entries. -/
  entries : out.2 = entries
  /-- It has the ids. -/
  ids : out.1.toList = keys.toList

/-- **Compacting keeps what is settled.** -/
theorem compact_of_settled (mem : .dictionary keys entries ∈ K)
    (settled : keys.Settled loads entries) :
    (keys.compact entries).Meets K loads (fun _ ↦ keys.Keeps entries)
      (fun _ ↦ keys.memory ∉ K.known ∧ ¬ entries.Roomy loads) := by
  refine .of_sound fun ledger sound ↦ .read_bind ?_
  rw [if_neg (by simp [settled.1])]
  refine .bind (stats_meets mem) fun L stats le told ↦ .read_bind ?_
  have intact : keys.Intact entries.positionCount := sound.formed _ mem
  have kept : (decide (stats.unique = entries.positionCount) ||
      !entries.supportsGather loads) = true := by
    rcases settled.2 with covers | unable
    · simp [told.unique, intact.length_eraseDups_eq_iff.2 covers]
    · simp [unable]
  dsimp only
  rw [if_pos kept]
  refine .bind ((duplicate_meets (Census.mem_of_le le mem)).refusing fun _ ↦ False.elim)
    fun M copy _ duplicated ↦ .pure ?_
  obtain ⟨-, memory, rfl⟩ := duplicated
  exact ⟨rfl, rfl, rfl, rfl⟩

/-! ### What compacting answers -/

namespace Shrunk

variable {out : Keys × Block} (shrunk : Shrunk K loads keys entries out)

include shrunk

/-- **Shrinking settles.** -/
theorem settled (flat : entries.isNested loads = false)
    (intact : keys.Intact entries.positionCount) : out.1.Settled loads out.2 := by
  by_cases whole : keys.toList.eraseDups.length = entries.positionCount
  · obtain ⟨same, ids⟩ := shrunk.kept (.inl whole)
    obtain rfl : out.2 = entries := congrArg Prod.snd same
    exact ⟨flat, .inl (ids ▸ intact.length_eraseDups_eq_iff.1 whole)⟩
  · rcases able : entries.supportsGather loads
    · obtain ⟨same, -⟩ := shrunk.kept (.inr able)
      obtain rfl : out.2 = entries := congrArg Prod.snd same
      exact ⟨flat, .inr able⟩
    · -- The keys count through the gathered entries, so they refer to each.
      obtain ⟨gathered, ids⟩ := shrunk.made whole able
      refine ⟨gathered.flat flat, .inl fun position room ↦ ?_⟩
      rw [gathered.shows.count] at room
      exact ids ▸ mem_renumber_of_lt room

/-- The entries are kept, or the statistics are remembered. -/
theorem kept_or_known : out.2 = entries ∨ out.1.memory ∈ K.known := by
  by_cases whole : keys.toList.eraseDups.length = entries.positionCount
  · exact .inl (congrArg Prod.snd (shrunk.kept (.inl whole)).1)
  · rcases able : entries.supportsGather loads
    · exact .inl (congrArg Prod.snd (shrunk.kept (.inr able)).1)
    · exact .inr (shrunk.known whole able)

/-- Entries that are kept were settled already. -/
theorem settled_of_kept (flat : entries.isNested loads = false)
    (intact : keys.Intact entries.positionCount) (kept : out.2 = entries) :
    keys.Settled loads entries := by
  refine ⟨flat, ?_⟩
  by_contra unsettled
  rw [not_or, ← intact.length_eraseDups_eq_iff, Bool.not_eq_false] at unsettled
  -- Gathered entries are fewer than there were.
  have count := (shrunk.made unsettled.1 unsettled.2).1.shows.count
  exact unsettled.1 (kept ▸ count).symm

/-- **What shrinking answers is kept by compacting**, in every sound state in which no more of it is
loaded. -/
theorem ends_compact {L : Census} {later : Loads} {ledger : Ledger}
    (flat : entries.isNested loads = false) (intact : keys.Intact entries.positionCount)
    (sound : Sound L later ledger) (mem : .dictionary out.1 out.2 ∈ L) (known : K.known ⊆ L.known)
    (unmoved : out.2.Unmoved loads later) :
    Ends ((out.1.compact out.2).outcome later ledger).1 (out.1.Keeps out.2)
      fun _ ↦ ¬ entries.Small loads := by
  obtain ⟨-, _, _, _, ends⟩ := compact_of_settled mem
    ((shrunk.settled flat intact).of_unmoved unmoved) ledger sound
  refine ends.mono (fun _ kept ↦ kept) fun _ refused small ↦ ?_
  rcases shrunk.kept_or_known with kept | remembered
  · rw [kept] at unmoved refused
    exact refused.2 (small.of_unmoved unmoved).roomy
  · exact refused.1 (known remembered)

end Shrunk

/-- **The identity of a block that is not settled is newly minted.** -/
theorem Minted.of_not_settled {floor : Nat} {flat out : Keys × Block} {ledger : Ledger}
    (minted : Minted floor keys entries out) (sound : Sound K loads ledger)
    (flattened : Flattened K loads keys entries flat) (shrunk : Shrunk K loads flat.1 flat.2 out)
    (alone : flat.2.isNested loads = false) (unsettled : ¬ keys.Settled loads entries) :
    ∃ n, floor ≤ n ∧ out.1.source = ⟨.own, n⟩ := by
  refine minted.resolve_left fun ⟨_, same⟩ ↦ unsettled ?_
  have intact : flat.1.Intact flat.2.positionCount := sound.formed _ flattened.mem
  have kept : out.2 = entries := congrArg Prod.snd same
  -- What has the old entries was not flattened, and its entries were kept.
  have single : entries.isNested loads = false := kept ▸ (shrunk.settled alone intact).1
  have bottom := flattened.bottom
  rw [Block.bottom_of_isNested_eq_false single] at bottom
  have lands := flattened.lands
  rw [funext (Block.landing_of_isNested_eq_false single)] at lands
  have ids : flat.1.toList = keys.toList := List.ext_getElem? fun p ↦
    (lands p).trans (Option.bind_fun_some _)
  obtain rfl : flat.2 = entries := congrArg Prod.snd bottom
  have settled := shrunk.settled_of_kept alone intact kept
  exact ⟨settled.1, ids ▸ settled.2⟩

end Keys

/-! ### In reachable worlds -/

/-- **Compacting is idempotent, and keeps the identity of a dictionary exactly if it changes
nothing.** A block that is settled is kept; any other gets an identity that was never minted before.
What is answered is kept by every later call to compact it, until more of it is loaded. Compacting
answers wherever there is room and what it gathers fits. -/
theorem Reachable.compact_settles {w : World} (reachable : Reachable w)
    (held : .dictionary keys entries ∈ w.blocks) :
    Ends ((keys.compact entries).outcome w.store.loads w.store.ledger).1
      (fun out ↦
        (keys.Settled w.store.loads entries → keys.Keeps entries out) ∧
        (¬ keys.Settled w.store.loads entries →
          ∃ n, w.store.ledger.minted ≤ n ∧ out.1.source = ⟨.own, n⟩) ∧
        ((∀ n, keys.source = ⟨.own, n⟩ → n < w.store.ledger.minted) →
          (out.1.source = keys.source ↔ keys.Settled w.store.loads entries)) ∧
        ∀ later, (w.after (.compact keys entries)).Leads (fun _ ↦ True) later →
          out.2.Unmoved w.store.loads later.store.loads →
            Ends ((out.1.compact out.2).outcome later.store.loads later.store.ledger).1
              (out.1.Keeps out.2) fun _ ↦ ¬ entries.Small w.store.loads)
      fun fault ↦ entries.Small w.store.loads →
        fault = .panic ∧ ¬ keys.FitsCompacted w.store.loads entries := by
  obtain ⟨K, given, sound, known⟩ := reachable.counts
  have mem := known _ held
  obtain ⟨-, L, le, after, ends⟩ := Keys.compact_minted
    (Census.mem_of_le (K.le_raise w.store.ledger.minted) mem) w.store.ledger sound.raise
  rcases run : (keys.compact entries).outcome w.store.loads w.store.ledger with
    ⟨fault | out, ledger⟩
  all_goals rw [run] at after ends
  · exact ends
  obtain ⟨⟨flat, flattened, shrunk⟩, minted⟩ := ends
  have base := sound.bottom (sound.entries_mem mem) keys.handle
  rw [← flattened.bottom] at base
  have keeps : keys.Settled w.store.loads entries → keys.Keeps entries out := by
    intro settled
    obtain ⟨-, _, _, _, ends⟩ := Keys.compact_of_settled mem settled w.store.ledger sound
    rwa [run] at ends
  have mints : ¬ keys.Settled w.store.loads entries →
      ∃ n, w.store.ledger.minted ≤ n ∧ out.1.source = ⟨.own, n⟩ := by
    intro unsettled
    obtain ⟨n, late, own⟩ :=
      minted.of_not_settled after flattened shrunk base.flat unsettled
    exact ⟨n, (Nat.le_max_right _ _).trans late, own⟩
  refine ⟨keeps, mints, fun issued ↦ ⟨fun same ↦ ?_, fun settled ↦ (keeps settled).source⟩,
    fun later leads unmoved ↦ ?_⟩
  · by_contra unsettled
    obtain ⟨n, late, own⟩ := mints unsettled
    exact (issued n (same.symm.trans own)).not_ge late
  · have next : w.after (.compact keys entries) =
        ⟨{ w.store with ledger := ledger }, [.dictionary out.1 out.2] ++ w.blocks⟩ :=
      World.after_of_outcome (Session.outcome_bind_of_ok (Session.outcome_query run))
    rw [next] at leads
    have old : ∀ b ∈ w.blocks, b ∈ L := fun b held ↦ Census.mem_of_le le (known b held)
    have any : ∀ call : Call, True → call.Gives L.given := by
      intro call _
      rw [← le.given, show (K.raise w.store.ledger.minted).given = .univ from given]
      exact call.gives_univ
    obtain ⟨M, more, sound', -⟩ := (leads.mono any).counts
      ⟨after, by simpa using ⟨shrunk.mem, old⟩⟩
    have kept := shrunk.ends_compact base.flat (after.formed _ flattened.mem) sound'
      (more.blocks shrunk.mem) more.known unmoved
    exact kept.mono (fun _ ↦ id) fun _ cramped small ↦
      cramped fun c part ↦ small c (part.trans base.part)

/-- Keys over keys get a new identity when they are compacted, and keep it when they are compacted
again. -/
theorem World.compact_settles_stacked : ∃ out n,
    ((stackedKeys.compact stackedEntries).outcome stacked.store.loads stacked.store.ledger).1 =
      .ok out ∧ 2 ≤ n ∧ out.1.source = ⟨.own, n⟩ ∧
    let next := stacked.after (.compact stackedKeys stackedEntries)
    Ends ((out.1.compact out.2).outcome next.store.loads next.store.ledger).1
      (out.1.Keeps out.2) fun _ ↦ False := by
  have small : stackedEntries.Small stacked.store.loads :=
    Block.small_dictionary (by decide) small_sampleEntries
  have held : .dictionary stackedKeys stackedEntries ∈ stacked.blocks := by
    simp [blocks_stacked]
  have settles := reachable_stacked.compact_settles held
  rcases run : ((stackedKeys.compact stackedEntries).outcome stacked.store.loads
    stacked.store.ledger).1 with fault | out
  all_goals rw [run] at settles
  · obtain ⟨K, sound, known⟩ := reachable_stacked.sound
    have bottom : (stackedEntries.bottom stacked.store.loads stackedKeys.handle).2 =
        sampleEntries := by
      cbv
    refine absurd (sound.fitsCompacted_of_keyless (known _ held) ?_) (settles small).2
    rw [bottom]
    simp [sampleEntries]
  obtain ⟨-, mints, -, again⟩ := settles
  have unsettled : ¬ stackedKeys.Settled stacked.store.loads stackedEntries := fun settled ↦ by
    simpa [stackedEntries] using settled.1
  obtain ⟨n, late, own⟩ := mints unsettled
  refine ⟨out, n, rfl, ?_, own, (again _ .refl ?_).mono (fun _ ↦ id) fun _ ↦ absurd small⟩
  · exact le_trans (by cbv) late
  · have still : (stacked.after (.compact stackedKeys stackedEntries)).store.loads =
        stacked.store.loads := by cbv
    exact still ▸ .refl _ _

end BatchColumn
