import BatchColumn.Block.Compact
import BatchColumn.Proofs.Gathering

/-!
# Compacting keeps the values

Under a chain of directly nested dictionaries lies the first block that is no dictionary block, the
**bottom** of the chain, and every id lands on one of its positions (`Block.landing`). Flattening
replaces the ids by where they land (`Sound.flattenIds_eq_ok`, by induction along the chain), and
shrinking keeps the positions that are landed on.

`Keys.compact_meets` states the result of compacting in terms of the bottom and the landings alone,
whatever is remembered of the dictionaries on the way, and that it mirrors the block compacted. It
fails on small blocks only for what is gathered of the bottom, if that does not fit together
(`Keys.FitsCompacted`).
-/

namespace BatchColumn

variable {K : Census} {loads : Loads} {ledger : Ledger}

/-! ### The bottom of a chain -/

namespace Block

/-- The first block below, through directly nested dictionaries, that is no dictionary block, with
its handle. The block itself has the handle given. -/
def bottom (loads : Loads) (handle : Nat) (entries : Block) : Nat × Block :=
  match entries.face? loads with
  | some (.dictionary keys inner _) => inner.bottom loads keys.handle
  | _ => (handle, entries)
termination_by entries.depth

/-- The position of the bottom that a position comes to. -/
def landing (loads : Loads) (entries : Block) (position : Nat) : Option Nat :=
  match entries.face? loads with
  | some (.dictionary keys inner _) => keys.toList[position]?.bind fun id ↦ inner.landing loads id
  | _ => some position
termination_by entries.depth

/-- A block that does not come to a dictionary block shows no keys. -/
theorem isNested_eq_false_iff {b : Block} : b.isNested loads = false ↔
    ∀ keys entries below, b.face? loads ≠ some (.dictionary keys entries below) := by
  rw [isNested, resolved?]
  split
  next keys entries below shown => simpa [shown] using below
  next other => simpa using fun keys entries below shown ↦ other keys entries below shown

theorem bottom_of_isNested_eq_false {b : Block} (flat : b.isNested loads = false) (handle : Nat) :
    b.bottom loads handle = (handle, b) := by
  rw [bottom]
  split
  next shown => exact absurd shown (isNested_eq_false_iff.1 flat _ _ _)
  next => rfl

theorem landing_of_isNested_eq_false {b : Block} (flat : b.isNested loads = false)
    (position : Nat) : b.landing loads position = some position := by
  rw [landing]
  split
  next shown => exact absurd shown (isNested_eq_false_iff.1 flat _ _ _)
  next => rfl

section Dictionary

variable {b : Block} {keys : Keys} {inner : Block} {below : inner.depth < b.depth}
  (shown : b.face? loads = some (.dictionary keys inner below))

include shown

theorem bottom_of_dictionary (handle : Nat) :
    b.bottom loads handle = inner.bottom loads keys.handle := by
  rw [bottom, shown]

theorem landing_of_dictionary (position : Nat) :
    b.landing loads position = keys.toList[position]?.bind (inner.landing loads) := by
  rw [landing, shown]

end Dictionary

/-- What holds of blocks that are no dictionary block, and of a dictionary block if it holds of the
entries, holds of all blocks. -/
theorem chain_induction (loads : Loads) {motive : Block → Prop} (b : Block)
    (flat : ∀ b : Block, b.isNested loads = false → motive b)
    (step : ∀ (b : Block) (keys : Keys) (inner : Block) (below : inner.depth < b.depth),
      b.face? loads = some (.dictionary keys inner below) → motive inner → motive b) :
    motive b := by
  induction b using Block.walk with
  | step b ih =>
    by_cases alone : b.isNested loads = false
    · exact flat b alone
    · simp only [isNested_eq_false_iff, ne_eq, not_forall, not_not] at alone
      obtain ⟨keys, inner, below, shown⟩ := alone
      exact step b keys inner below shown (ih inner below)

end Block

/-- Where the bottom of a chain lies. -/
structure Block.Bottom (K : Census) (loads : Loads) (entries bottom : Block) : Prop where
  /-- It exists. -/
  mem : bottom ∈ K
  /-- It is no dictionary block. -/
  flat : bottom.isNested loads = false
  /-- Promises that were kept before are kept still. -/
  loadable : entries.Loadable → bottom.Loadable
  /-- It is found in the block. -/
  part : Block.Part loads bottom entries

theorem Sound.bottom (sound : Sound K loads ledger) {entries : Block} (mem : entries ∈ K)
    (handle : Nat) : Block.Bottom K loads entries (entries.bottom loads handle).2 := by
  induction entries using Block.chain_induction loads generalizing handle with
  | flat entries flat =>
    rw [Block.bottom_of_isNested_eq_false flat]
    exact ⟨mem, flat, id, .refl⟩
  | step entries keys inner below shown ih =>
    rw [Block.bottom_of_dictionary shown]
    obtain ⟨present, mirrors⟩ := sound.face mem shown
    obtain ⟨there, flat, loadable, part⟩ := ih (sound.entries_mem present) keys.handle
    exact ⟨there, flat, fun kept ↦ loadable (mirrors.loadable kept),
      .of_face shown (.entries part)⟩

/-- The handle of the bottom was given out if all handles were. -/
theorem Sound.bottom_issued (sound : Sound K loads ledger) (tracked : K.tracks) {entries : Block}
    (mem : entries ∈ K) {handle : Nat} (issued : handle ∈ K.issued) :
    (entries.bottom loads handle).1 ∈ K.issued := by
  induction entries using Block.chain_induction loads generalizing handle with
  | flat entries flat =>
    rw [Block.bottom_of_isNested_eq_false flat]
    exact issued
  | step entries keys inner below shown ih =>
    rw [Block.bottom_of_dictionary shown]
    have present := (sound.face mem shown).1
    exact ih (sound.entries_mem present) (sound.sourced.handles tracked keys inner present)

section FlattenIds

variable {b : Block} {ids : List Nat}

theorem Block.flattenIds_of_isNested_eq_false (flat : b.isNested loads = false) (handle : Nat)
    (ids : List Nat) : b.flattenIds loads handle ids = .ok (handle, b, ids) := by
  rw [Block.flattenIds]
  split
  next shown => exact absurd shown (isNested_eq_false_iff.1 flat _ _ _)
  next => rfl

variable {keys : Keys} {inner : Block} {below : inner.depth < b.depth}
  (shown : b.face? loads = some (.dictionary keys inner below))

include shown

/-- Ids of a dictionary block are replaced by the keys there, and looked up further. -/
theorem Block.flattenIds_of_dictionary (inside : ∀ id ∈ ids, id < keys.count) (handle : Nat) :
    ∃ next, b.flattenIds loads handle ids = inner.flattenIds loads keys.handle next ∧
      next.length = ids.length ∧ (∀ id ∈ next, id ∈ keys.toList) ∧
        ∀ i : Nat, next[i]? = ids[i]?.bind fun id ↦ keys.toList[id]? := by
  obtain ⟨next, run, size, among, found⟩ := Keys.idsAt_eq_ok inside
  have verified : verifyState (ids.all (· < keys.count)) "nested_id"
      "index < nested.position_count" = .ok () := if_pos (by simpa using inside)
  refine ⟨next, ?_, size, among, found⟩
  rw [Block.flattenIds, shown]
  simp only [verified, run, ok_bind]

/-- An id that is no position of a dictionary block is reported. -/
theorem Block.flattenIds_of_outside {id : Nat} (listed : id ∈ ids) (outside : keys.count ≤ id)
    (handle : Nat) :
    ∃ cause, b.flattenIds loads handle ids = .error cause ∧ cause.isInternal = true := by
  have refused : verifyState (ids.all (· < keys.count)) "nested_id"
      "index < nested.position_count" = .error (.internal _) :=
    if_neg (by simpa using ⟨id, listed, outside⟩)
  rw [Block.flattenIds, shown]
  simp only [refused]
  exact ⟨_, rfl, rfl⟩

end FlattenIds

/-- Ids that are replaced are replaced by where they land. -/
theorem Block.of_flattenIds_eq_ok {b : Block} {handle : Nat} {ids : List Nat}
    {found : Nat × Block × List Nat} (run : b.flattenIds loads handle ids = .ok found) :
    (found.1, found.2.1) = b.bottom loads handle ∧ found.2.2 = ids.filterMap (b.landing loads) := by
  induction b using Block.chain_induction loads generalizing handle ids with
  | flat b flat =>
    rw [flattenIds_of_isNested_eq_false flat] at run
    cases run
    rw [bottom_of_isNested_eq_false flat, funext (landing_of_isNested_eq_false flat)]
    exact ⟨rfl, List.filterMap_some.symm⟩
  | step b keys inner below shown ih =>
    rw [flattenIds, shown] at run
    obtain ⟨_, -, run⟩ := bind_eq_ok_iff.1 run
    obtain ⟨next, looked, run⟩ := bind_eq_ok_iff.1 run
    obtain rfl := Except.ok.inj ((Keys.idsAt_eq_filterMap
      (Keys.lt_count_of_idsAt_eq_ok looked)).symm.trans looked)
    obtain ⟨bottom, lands⟩ := ih run
    rw [bottom_of_dictionary shown, funext (landing_of_dictionary shown), bottom, lands,
      List.filterMap_filterMap]
    exact ⟨rfl, rfl⟩

/-- **Ids are replaced by where they land**, on data that they come to. -/
theorem Sound.flattenIds_eq_ok (sound : Sound K loads ledger) {entries : Block} (mem : entries ∈ K)
    (handle : Nat) {ids : List Nat} (inside : ∀ id ∈ ids, id < entries.positionCount) :
    ∃ flat, entries.flattenIds loads handle ids =
        .ok ((entries.bottom loads handle).1, (entries.bottom loads handle).2, flat) ∧
      flat.length = ids.length ∧ (∀ i : Nat, flat[i]? = ids[i]?.bind (entries.landing loads)) ∧
        (∀ id ∈ flat, id < (entries.bottom loads handle).2.positionCount) ∧
          ∀ i : Nat, flat[i]?.bind (entries.bottom loads handle).2.datum? =
            ids[i]?.bind entries.datum? := by
  induction entries using Block.chain_induction loads generalizing handle ids with
  | flat entries flat =>
    rw [Block.bottom_of_isNested_eq_false flat,
      funext (Block.landing_of_isNested_eq_false flat)]
    exact ⟨ids, Block.flattenIds_of_isNested_eq_false flat handle ids, rfl,
      fun i ↦ (Option.bind_fun_some _).symm, inside, fun i ↦ rfl⟩
  | step entries keys inner below shown ih =>
    obtain ⟨present, mirrors⟩ := sound.face mem shown
    have formed : keys.Intact inner.positionCount := sound.formed _ present
    -- The ids of the next step are the keys at these ids, and positions of the entries below.
    obtain ⟨next, run, size, among, found⟩ := Block.flattenIds_of_dictionary shown
      (fun id listed ↦ (inside id listed).trans_eq mirrors.count.symm) handle
    obtain ⟨flat, rest, length, lands, low, same⟩ := ih (sound.entries_mem present) keys.handle
      fun id listed ↦ formed id (among id listed)
    rw [Block.bottom_of_dictionary shown, funext (Block.landing_of_dictionary shown)]
    refine ⟨flat, run.trans rest, length.trans size, fun i ↦ ?_, low, fun i ↦ ?_⟩
    · rw [lands, found]
      rcases ids[i]? with - | id <;> rfl
    · rw [same, found, ← mirrors.datum]
      rcases ids[i]? with - | id <;> rfl

/-! ### What is gathered -/

/-- What is kept of a block that is shrunk to some positions fits together, if anything is
gathered. -/
def Block.FitsShrunk (loads : Loads) (b : Block) (positions : List Nat) : Prop :=
  positions.eraseDups.length ≠ b.positionCount → b.supportsGather loads = true →
    b.Fits loads positions.eraseDups

/-- Where the ids of keys land on the bottom. -/
def Keys.landed (loads : Loads) (keys : Keys) (entries : Block) : List Nat :=
  keys.toList.filterMap (entries.landing loads)

/-- What compacting keeps of the bottom fits together. -/
def Keys.FitsCompacted (loads : Loads) (keys : Keys) (entries : Block) : Prop :=
  (entries.bottom loads keys.handle).2.FitsShrunk loads (keys.landed loads entries)

/-- Ids are landed on by flattened keys. -/
theorem Keys.eq_landed {keys : Keys} {entries : Block} {flat : List Nat}
    (lands : ∀ p : Nat, flat[p]? = keys.toList[p]?.bind (entries.landing loads)) :
    flat = keys.landed loads entries :=
  eq_filterMap_of_getElem? lands

theorem Keys.landed_of_isNested_eq_false {entries : Block} (flat : entries.isNested loads = false)
    (keys : Keys) : keys.landed loads entries = keys.toList :=
  (eq_landed fun p ↦ by
    rw [funext (Block.landing_of_isNested_eq_false flat), Option.bind_fun_some]).symm

/-- **Where the bottom has no keys, what compacting keeps of it fits**: each position once. -/
theorem Sound.fitsCompacted_of_keyless (sound : Sound K loads ledger) {keys : Keys}
    {entries : Block} (mem : .dictionary keys entries ∈ K)
    (keyless : (entries.bottom loads keys.handle).2.Keyless loads) :
    keys.FitsCompacted loads entries := by
  intro _ _
  obtain ⟨flat, -, -, lands, low, -⟩ :=
    sound.flattenIds_eq_ok (sound.entries_mem mem) keys.handle (sound.formed _ mem)
  rw [← Keys.eq_landed lands]
  exact sound.fits_of_keyless (sound.bottom (sound.entries_mem mem) _).mem keyless
    (nodup_eraseDups flat) fun id mem ↦ low id (List.mem_eraseDups.1 mem)

/-! ### Flattening and shrinking -/

namespace Keys

variable {keys : Keys} {entries : Block}

/-- Either nothing but the memory is new, or the identity was minted when `floor` identities had
been. -/
def Minted (floor : Nat) (keys : Keys) (entries : Block) (out : Keys × Block) : Prop :=
  out.1.source = keys.source ∧ (out.1.handle, out.2) = (keys.handle, entries) ∨
    ∃ n, floor ≤ n ∧ out.1.source = ⟨.own, n⟩

/-- Keys to the bottom of the chain that another block starts. -/
structure Flattened (K : Census) (loads : Loads) (keys : Keys) (entries : Block)
    (out : Keys × Block) : Prop where
  /-- The dictionary block exists. -/
  mem : .dictionary out.1 out.2 ∈ K
  /-- It mirrors the block. -/
  mirrors : (Block.dictionary out.1 out.2).Mirrors (.dictionary keys entries)
  /-- Its entries are the bottom, under the identity that they have there. -/
  bottom : (out.1.handle, out.2) = entries.bottom loads keys.handle
  /-- Every key is the position where the old one lands. -/
  lands : ∀ p : Nat, out.1.toList[p]? = keys.toList[p]?.bind (entries.landing loads)

/-- **Flattening keeps the values**, under an identity that is newly minted. -/
theorem flatten_meets (mem : .dictionary keys entries ∈ K) :
    (keys.flatten entries).Meets K loads
      (fun L out ↦ Flattened L loads keys entries out ∧ ∃ n, K.floor ≤ n ∧ out.1.source = ⟨.own, n⟩)
      (fun _ ↦ False) := by
  refine .read_bind (.of_sound fun ledger sound ↦ ?_)
  obtain ⟨flat, run, length, lands, low, same⟩ :=
    sound.flattenIds_eq_ok (sound.entries_mem mem) keys.handle (sound.formed _ mem)
  refine .check_ok_bind run (.mint_bind fun n late spare ↦ ?_)
  have bottom := sound.bottom (sound.entries_mem mem) keys.handle
  have there := Census.mem_of_le (K.le_raise (n + 1)) bottom.mem
  have issued : K.tracks → (entries.bottom loads keys.handle).1 ∈ K.issued := fun tracked ↦
    sound.bottom_issued tracked (sound.entries_mem mem)
      (sound.sourced.handles tracked keys entries mem)
  refine .bind (ofIds_none_meets there low (.inl ⟨spare, issued⟩)) fun L flattened _ ⟨made, _⟩ ↦
    .pure ⟨⟨made.mem, ⟨?_, ?_, bottom.loadable⟩, ?_, fun p ↦ ?_⟩, n, late, made.source⟩
  · rw [Block.positionCount, ← length_toList, made.ids, length, length_toList, Block.positionCount]
  · funext p
    rw [Block.datum?, made.ids, Block.datum?]
    exact same p
  · rw [made.handle]
  · rw [made.ids, lands]

/-- Keys to the entries that are referred to. -/
structure Shrunk (K : Census) (loads : Loads) (keys : Keys) (entries : Block)
    (out : Keys × Block) : Prop where
  /-- The dictionary block exists. -/
  mem : .dictionary out.1 out.2 ∈ K
  /-- It mirrors the block. -/
  mirrors : (Block.dictionary out.1 out.2).Mirrors (.dictionary keys entries)
  /-- Entries that are all referred to, or cannot be gathered, are kept with the keys. -/
  kept : keys.toList.eraseDups.length = entries.positionCount ∨
    entries.supportsGather loads = false →
      (out.1.handle, out.2) = (keys.handle, entries) ∧ out.1.toList = keys.toList
  /-- Other entries are gathered, and the keys count through them. -/
  made : keys.toList.eraseDups.length ≠ entries.positionCount →
    entries.supportsGather loads = true →
      Block.Gathered K loads entries out.2 keys.toList.eraseDups ∧
        out.1.toList = renumber keys.toList
  /-- The new keys keep no ids alive but their own if the old ones did not. -/
  tight : keys.Tight → out.1.Tight
  /-- Entries that are gathered keep nothing else alive. -/
  owned : keys.toList.eraseDups.length ≠ entries.positionCount →
    entries.supportsGather loads = true → out.2.Owned ∅ loads
  /-- The new keys remember their statistics if entries are gathered. -/
  known : keys.toList.eraseDups.length ≠ entries.positionCount →
    entries.supportsGather loads = true → out.1.memory ∈ K.known

theorem Shrunk.gathered {out : Keys × Block} (shrunk : Shrunk K loads keys entries out)
    (part : keys.toList.eraseDups.length ≠ entries.positionCount)
    (able : entries.supportsGather loads = true) :
    out.2.Shows entries keys.toList.eraseDups ∧ out.1.toList = renumber keys.toList :=
  (shrunk.made part able).imp_left Block.Gathered.shows

/-- **Shrinking keeps the values**, and the identity if it keeps the entries. It succeeds if the
statistics can be had and what is gathered fits together. -/
theorem shrink_meets (mem : .dictionary keys entries ∈ K)
    (flat : entries.isNested loads = false) :
    (keys.shrink entries).Meets K loads
      (fun L out ↦ Shrunk L loads keys entries out ∧ Minted K.floor keys entries out)
      (fun fault ↦ entries.Small loads →
        fault = .panic ∧ ¬ entries.FitsShrunk loads keys.toList) := by
  refine .bind ((stats_meets mem).refusing fun _ refused small ↦ absurd small.roomy refused.2)
    fun L stats le truth ↦ .read_bind (.of_sound fun ledger sound ↦ ?_)
  have mem := Census.mem_of_le le mem
  dsimp only
  split
  next kept =>
    refine .bind ((duplicate_meets mem).refusing fun _ ↦ False.elim) fun M copy _ duplicated ↦ ?_
    obtain ⟨there, memory, rfl⟩ := duplicated
    -- Nothing changes but the memory.
    have kept : keys.toList.eraseDups.length ≠ entries.positionCount →
        entries.supportsGather loads ≠ true := fun part able ↦ by
      simp [truth.unique, part, able] at kept
    exact .pure ⟨⟨there, ⟨rfl, rfl, fun kept ↦ kept⟩, fun _ ↦ ⟨rfl, rfl⟩,
      fun part able ↦ absurd able (kept part), fun tight ↦ ⟨tight.ids, tight.offset, tight.count⟩,
      fun part able ↦ absurd able (kept part), fun part able ↦ absurd able (kept part)⟩,
      .inl ⟨rfl, rfl⟩⟩
  next part =>
    obtain ⟨part, able⟩ : keys.toList.eraseDups.length ≠ entries.positionCount ∧
        entries.supportsGather loads = true := by
      simpa [truth.unique] using part
    have inside : ∀ id ∈ keys.toList.eraseDups, id < entries.positionCount := fun id listed ↦
      sound.formed _ mem id (List.mem_eraseDups.1 listed)
    refine .bind ((Block.gather_owns (sound.entries_mem mem) _).refusing fun _ refused _ ↦ ?_)
      fun M others later ⟨gathered, owned⟩ ↦ ?_
    · obtain ⟨-, unable⟩ | ⟨panics, beyond⟩ := refused.unable_or inside
      · simp [unable] at able
      · exact ⟨panics, fun fits ↦ beyond (fits part able)⟩
    have distinct : (stats.unique == keys.count) = true ↔ keys.toList.Nodup := by
      rw [beq_iff_eq, truth.unique, ← length_toList, length_eraseDups_iff_nodup]
    refine .issue_bind fun handle _ ↦ .mint_bind fun n late spare ↦ ?_
    have since : M ≤ (M.issue handle).raise (n + 1) :=
      Census.le_trans (M.le_issue _) (Census.le_raise _ _)
    refine .bind ((renumber_meets spare (.inl rfl) (gathered.mono since) flat rfl distinct).refusing
      fun _ ↦ False.elim) fun N compacted latest made ↦ .pure ⟨⟨made.mem,
        ⟨?_, ?_, made.shows.loadable⟩, fun kept ↦ ?_,
        fun _ _ ↦ ⟨gathered.mono (Census.le_trans since latest), made.ids⟩,
        fun _ ↦ made.tight, fun _ _ ↦ owned.mono (Set.empty_subset _), fun _ _ ↦ made.known rfl⟩,
          .inr ⟨n, Nat.le_trans (Census.le_trans le later).floor late, made.source⟩⟩
    · rw [made.shows.count, length_toList, Block.positionCount]
    · funext p
      rw [made.shows.datum, Block.datum?]
    · rcases kept with whole | unable
      · exact absurd whole part
      · exact absurd able (Bool.eq_false_iff.1 unable)

/-! ### Compacting -/

/-- What compacting comes to, and the identity that it is under. -/
theorem compact_minted (mem : .dictionary keys entries ∈ K) :
    (keys.compact entries).Meets K loads
      (fun L out ↦
        (∃ flat, Flattened L loads keys entries flat ∧ Shrunk L loads flat.1 flat.2 out) ∧
        Minted K.floor keys entries out)
      (fun fault ↦ entries.Small loads →
        fault = .panic ∧ ¬ keys.FitsCompacted loads entries) := by
  refine .read_bind (.of_sound fun ledger sound ↦ ?_)
  split
  next nested =>
    refine .bind ((flatten_meets mem).refusing fun _ ↦ False.elim)
      fun L flat le ⟨flattened, n, late, source⟩ ↦ ?_
    have bottom := sound.bottom (sound.entries_mem mem) keys.handle
    rw [← flattened.bottom] at bottom
    have fits : flat.2.FitsShrunk loads flat.1.toList ↔ keys.FitsCompacted loads entries := by
      rw [FitsCompacted, ← flattened.bottom, eq_landed flattened.lands]
    refine (shrink_meets flattened.mem bottom.flat).mono (fun M out later ⟨shrunk, minted⟩ ↦ ?_)
      fun _ refused small ↦ (refused fun c part ↦ small c (part.trans bottom.part)).imp_right
        (mt fits.2)
    refine ⟨⟨flat, { flattened with mem := Census.mem_of_le later flattened.mem }, shrunk⟩, .inr ?_⟩
    -- What is kept of the flattened keys has been minted for them.
    rcases minted with ⟨same, -⟩ | ⟨m, after, own⟩
    · exact ⟨n, late, same.trans source⟩
    · exact ⟨m, Nat.le_trans le.floor after, own⟩
  next alone =>
    have alone := Bool.eq_false_iff.2 alone
    have fits : entries.FitsShrunk loads keys.toList ↔ keys.FitsCompacted loads entries := by
      rw [FitsCompacted, Block.bottom_of_isNested_eq_false alone,
        landed_of_isNested_eq_false alone]
    refine (shrink_meets mem alone).mono (fun L out later ⟨shrunk, minted⟩ ↦ ?_)
      fun _ refused small ↦ (refused small).imp_right (mt fits.2)
    refine ⟨⟨(keys, entries), ⟨Census.mem_of_le later mem, .refl _,
      (Block.bottom_of_isNested_eq_false alone _).symm, fun p ↦ ?_⟩, shrunk⟩, minted⟩
    rw [funext (Block.landing_of_isNested_eq_false alone)]
    exact (Option.bind_fun_some _).symm

/-- **Compacting keeps the values.** It flattens the keys and shrinks what it gets, and fails on
small blocks only if what is gathered does not fit together. -/
theorem compact_meets (mem : .dictionary keys entries ∈ K) :
    (keys.compact entries).Meets K loads
      (fun L out ↦ .dictionary out.1 out.2 ∈ L ∧
        (Block.dictionary out.1 out.2).Mirrors (.dictionary keys entries) ∧
          ∃ flat, Flattened L loads keys entries flat ∧ Shrunk L loads flat.1 flat.2 out)
      (fun fault ↦ entries.Small loads →
        fault = .panic ∧ ¬ keys.FitsCompacted loads entries) :=
  (compact_minted mem).mono (fun _ _ _ ⟨⟨flat, flattened, shrunk⟩, _⟩ ↦
    ⟨shrunk.mem, shrunk.mirrors.trans flattened.mirrors, flat, flattened, shrunk⟩) fun _ refused ↦
      refused

/-! The entries of a compacted block are what a gather of the bottom answers on the way. -/

theorem shrink_gathers (sound : Sound K loads ledger) (mem : .dictionary keys entries ∈ K)
    (part : keys.toList.eraseDups.length ≠ entries.positionCount)
    (able : entries.supportsGather loads = true) {out : Keys × Block} {after : Ledger}
    (run : (keys.shrink entries).outcome loads ledger = (.ok out, after)) :
    ∃ before later, ledger.Grows before ∧
      (entries.gather keys.toList.eraseDups).outcome loads before = (.ok out.2, later) := by
  obtain ⟨stats, before, counted, run⟩ := Query.exists_of_outcome_bind run
  obtain ⟨grows, _, _, _, truth⟩ := stats_meets mem ledger sound
  rw [counted] at grows truth
  obtain ⟨_, _, ⟨⟩, run⟩ := Query.exists_of_outcome_bind run
  have shrunk : ¬ (decide (stats.unique = entries.positionCount) ||
      !entries.supportsGather loads) = true := by
    simpa [truth.unique, able] using part
  rw [if_neg shrunk] at run
  obtain ⟨others, later, gathered, run⟩ := Query.exists_of_outcome_bind run
  obtain ⟨_, _, -, run⟩ := Query.exists_of_outcome_bind run
  obtain ⟨_, _, -, run⟩ := Query.exists_of_outcome_bind run
  obtain ⟨compacted, _, -, ⟨⟩⟩ := Query.exists_of_outcome_bind run
  exact ⟨before, later, grows, gathered⟩

theorem compact_gathers (sound : Sound K loads ledger) (mem : .dictionary keys entries ∈ K)
    {flat : List Nat}
    (lands : ∀ p : Nat, flat[p]? = keys.toList[p]?.bind (entries.landing loads))
    (part : flat.eraseDups.length ≠ (entries.bottom loads keys.handle).2.positionCount)
    (able : (entries.bottom loads keys.handle).2.supportsGather loads = true)
    {out : Keys × Block} {after : Ledger}
    (run : (keys.compact entries).outcome loads ledger = (.ok out, after)) :
    ∃ before later, ledger.Grows before ∧
      ((entries.bottom loads keys.handle).2.gather flat.eraseDups).outcome loads before =
        (.ok out.2, later) := by
  obtain ⟨_, _, ⟨⟩, run⟩ := Query.exists_of_outcome_bind run
  split at run
  next nested =>
    obtain ⟨flattened, middle, answered, run⟩ := Query.exists_of_outcome_bind run
    obtain ⟨grows, L, _, sound, ends⟩ := flatten_meets mem ledger sound
    rw [answered] at grows sound ends
    obtain ⟨ends, -⟩ := ends
    obtain rfl : flattened.1.toList = flat := List.ext_getElem? fun p ↦
      (ends.lands p).trans (lands p).symm
    rw [← ends.bottom] at part able ⊢
    obtain ⟨before, later, more, gathered⟩ := shrink_gathers sound ends.mem part able run
    exact ⟨before, later, grows.trans more, gathered⟩
  next alone =>
    have alone := Bool.eq_false_iff.2 alone
    rw [Block.bottom_of_isNested_eq_false alone] at part able ⊢
    rw [funext (Block.landing_of_isNested_eq_false alone)] at lands
    obtain rfl : keys.toList = flat := List.ext_getElem? fun p ↦
      ((lands p).trans (Option.bind_fun_some _)).symm
    exact shrink_gathers sound mem part able run

end Keys

end BatchColumn
