import BatchColumn.Proofs.Census

/-!
# Identities of dictionaries

A dictionary identity that is minted goes to one dictionary: two dictionary blocks with that
identity refer to the same entries, under the same handle. `Sourced` is the part of the soundness of
a store that says so, for all identities but those that callers may give, of which nothing can be
said.

It rests on one condition on every dictionary block that joins the census (`Census.Admits`): its
identity is spare — minted, and of no dictionary block yet — or it is the identity, the handle and
the entries of a dictionary block that exists. In the first case the handle was given out, so if
handles are tracked, a handle that is given out now is that of no dictionary block.
-/

namespace BatchColumn

namespace Census

variable {K : Census}

/-- The identity may be given, or it is minted and that of no dictionary block. -/
def Spare (K : Census) (source : SourceId) : Prop :=
  source ∈ K.given ∨ (∃ n < K.floor, source = ⟨.own, n⟩) ∧
    ∀ keys entries, Block.dictionary keys entries ∈ K → keys.source ≠ source

/-- The identity is spare and the handle was given out, or they go with the entries already. -/
def Offers (K : Census) (source : SourceId) (handle : Nat) (entries : Block) : Prop :=
  K.Spare source ∧ (K.tracks → handle ∈ K.issued) ∨
    ∃ keys, .dictionary keys entries ∈ K ∧ keys.source = source ∧ keys.handle = handle

/-- More arrays and handles may be known to be given out. -/
theorem Offers.issue {source : SourceId} {handle : Nat} {entries : Block}
    (offered : K.Offers source handle entries) (storage : Nat) :
    (K.issue storage).Offers source handle entries :=
  offered.imp_left fun ⟨spare, issued⟩ ↦ ⟨spare, fun tracked ↦ .inr (issued tracked)⟩

/-- A dictionary block may have its identity; other blocks have none. -/
def Admits (K : Census) : Block → Prop
  | .dictionary keys entries => K.Offers keys.source keys.handle entries
  | _ => True

/-- An identity is spare until a dictionary block takes it. -/
theorem Spare.add {source : SourceId} (spare : K.Spare source) {b : Block}
    (other : source ∉ K.given → ∀ keys entries, b = .dictionary keys entries →
      keys.source ≠ source) : (K.add b).Spare source := by
  rcases spare with given | ⟨minted, unused⟩
  · exact .inl given
  · by_cases given : source ∈ K.given
    · exact .inl given
    · refine .inr ⟨minted, fun keys entries mem ↦ ?_⟩
      rcases mem with same | mem
      · exact other given keys entries same.symm
      · exact unused keys entries mem

/-- A spare identity is not that of a dictionary block, unless it was given. -/
theorem Spare.ne {source : SourceId} (spare : K.Spare source) (kept : source ∉ K.given)
    {keys : Keys} {entries : Block} (mem : .dictionary keys entries ∈ K) :
    keys.source ≠ source :=
  (spare.resolve_left kept).2 keys entries mem

end Census

/-- **A minted identity is that of one dictionary.** -/
structure Sourced (K : Census) (ledger : Ledger) : Prop where
  /-- Identities that are known to be minted are. -/
  floor : K.floor ≤ ledger.minted
  /-- Identities that were not given were minted. -/
  minted : ∀ keys entries, .dictionary keys entries ∈ K → keys.source ∉ K.given →
    ∃ n < ledger.minted, keys.source = ⟨.own, n⟩
  /-- Dictionary blocks with one such identity have the same entries, under the same handle. -/
  same : ∀ keys entries others below, .dictionary keys entries ∈ K →
    .dictionary others below ∈ K → keys.source = others.source → keys.source ∉ K.given →
      keys.handle = others.handle ∧ entries = below
  /-- Handles were given out. -/
  handles : K.tracks → ∀ keys entries, .dictionary keys entries ∈ K → keys.handle ∈ K.issued

namespace Sourced

variable {K : Census} {ledger : Ledger}

protected theorem empty (given : Set SourceId) (selects : Prop) :
    Sourced (.empty given selects) .empty where
  floor := Nat.le_refl _
  minted _ _ mem := mem.elim
  same _ _ _ _ mem := mem.elim
  handles _ _ _ mem := mem.elim

variable (sourced : Sourced K ledger)

include sourced

/-- Only the blocks, the floor, the given identities and the handles of a census matter. -/
theorem of_census {L : Census} (blocks : L.blocks = K.blocks) (floor : L.floor = K.floor)
    (given : L.given = K.given) (issued : K.issued ⊆ L.issued) (tracks : L.tracks → K.tracks) :
    Sourced L ledger := by
  obtain ⟨_, _, _, _, _, _, _, _, _, _⟩ := L
  subst blocks floor given
  exact ⟨sourced.floor, sourced.minted, sourced.same,
    fun tracked keys entries mem ↦ issued (sourced.handles (tracks tracked) keys entries mem)⟩

/-- More identities may be minted. -/
theorem mono {after : Ledger} (le : ledger.minted ≤ after.minted) : Sourced K after where
  floor := Nat.le_trans sourced.floor le
  minted keys entries mem kept := by
    obtain ⟨n, inside, own⟩ := sourced.minted keys entries mem kept
    exact ⟨n, Nat.lt_of_lt_of_le inside le, own⟩
  same := sourced.same
  handles := sourced.handles

/-- Minted identities may be known to be. -/
theorem raise {minted : Nat} (le : minted ≤ ledger.minted) : Sourced (K.raise minted) ledger where
  floor := Nat.max_le.2 ⟨sourced.floor, le⟩
  minted := sourced.minted
  same := sourced.same
  handles := sourced.handles

/-- **An identity that is minted is spare.** -/
theorem spare_mint : (K.raise (ledger.minted + 1)).Spare ⟨.own, ledger.minted⟩ := by
  by_cases given : (⟨.own, ledger.minted⟩ : SourceId) ∈ K.given
  · exact .inl given
  · refine .inr ⟨⟨_, Nat.lt_of_lt_of_le (Nat.lt_succ_self _) (Nat.le_max_right _ _), rfl⟩,
      fun keys entries mem same ↦ ?_⟩
    obtain ⟨n, inside, own⟩ := sourced.minted keys entries mem (same ▸ given)
    have minted : ledger.minted = n := congrArg SourceId.sequence (same.symm.trans own)
    omega

/-- A block joins the census if it is admitted. -/
theorem add {b : Block} (admitted : K.Admits b) : Sourced (K.add b) ledger where
  floor := sourced.floor
  minted := by
    rintro keys entries (rfl | mem) kept
    · rcases admitted with ⟨spare, -⟩ | ⟨others, mem, source, -⟩
      · obtain ⟨⟨n, inside, own⟩, -⟩ := spare.resolve_left kept
        exact ⟨n, Nat.lt_of_lt_of_le inside sourced.floor, own⟩
      · rw [← source]
        exact sourced.minted others entries mem (source ▸ kept)
    · exact sourced.minted keys entries mem kept
  same := by
    -- Of two blocks with one identity, at most one is new; it has taken over what the other has.
    have new : ∀ keys entries others below, b = .dictionary keys entries →
        .dictionary others below ∈ K → others.source = keys.source → keys.source ∉ K.given →
          keys.handle = others.handle ∧ entries = below := by
      rintro keys entries others below rfl mem same kept
      rcases admitted with ⟨spare, -⟩ | ⟨older, there, source, handle⟩
      · exact absurd same (spare.ne kept mem)
      · obtain ⟨alike, rfl⟩ := sourced.same older entries others below there mem
          (source.trans same.symm) (source ▸ kept)
        exact ⟨handle.symm.trans alike, rfl⟩
    rintro keys entries others below (one | mem) (two | there) same kept
    · obtain ⟨rfl, rfl⟩ : keys = others ∧ entries = below := by simpa using one.trans two.symm
      exact ⟨rfl, rfl⟩
    · exact new keys entries others below one.symm there same.symm kept
    · obtain ⟨handle, rfl⟩ := new others below keys entries two.symm mem same (same ▸ kept)
      exact ⟨handle.symm, rfl⟩
    · exact sourced.same keys entries others below mem there same kept
  handles := by
    rintro tracked keys entries (rfl | mem)
    · rcases admitted with ⟨-, issued⟩ | ⟨others, mem, -, handle⟩
      · exact issued tracked
      · rw [← handle]
        exact sourced.handles tracked others entries mem
    · exact sourced.handles tracked keys entries mem

end Sourced

end BatchColumn
