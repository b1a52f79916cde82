import BatchColumn.Proofs.Runs
import BatchColumn.Proofs.Strays

/-!
# Corruption surfaces

Keys may be made of unchecked ids, over a block that is held or over such keys: a **pile**
(`World.Piles`). Nobody vouches for it and nothing is remembered of its layers, so it is raw
(`Reachable.raw_of_piles`).

What is asked of a raw block is answered just if none of the positions that are meant strays.
Otherwise the call is refused as one on a corrupted block, and leaves no figure under the memory of
the block (`Query.Surfaces`). To be answered, what is added up must be a word and what is gathered
must fit together besides.

* Sizing goes down layer by layer, marks the ids that are meant and stops at the first that is none,
  before anything is published (`Block.Raw.sizeOf_detects`).
* Logical sizing asks for one entry at a time. An entry may be asked for more than once, and asking
  may publish figures of the layers below, which makes no difference to the next time
  (`Block.Raw.exists_inv`).
* Compacting looks the ids up through the chain and marks them at its bottom
  (`Keys.Unseen.compact_of_strays`, `Keys.Unseen.compact_of_not_strays`).

The theorem is `Reachable.corruption_surfaces`.
-/

namespace BatchColumn

variable {K : Census} {loads : Loads} {ledger : Ledger} {keys : Keys} {entries : Block}

/-! ### Piles -/

/-- Keys that nothing is vouched for are what they are made of, under a fresh memory. -/
theorem Keys.of_make_none {handle : Nat} {ids : View Nat} {offset count : Nat} {source : SourceId}
    {after : Ledger} (made : (make handle entries ids offset count source .none).outcome loads
      ledger = (.ok keys, after)) :
    (∃ fits, keys = ⟨offset, count, ids, source, handle, ledger.next, fits⟩) ∧
      after = { ledger with next := ledger.next + 1 } := by
  by_cases fits : offset + count ≤ ids.length
  · obtain ⟨⟩ := (outcome_make_none fits handle entries source loads ledger).symm.trans made
    exact ⟨⟨fits, rfl⟩, rfl⟩
  · rw [make, dif_neg fits] at made
    cases made

/-- A block that is held, or unchecked keys to a pile, with the ledger that they were made on.
Identities may be given out in between, and blocks may be duplicated. -/
inductive World.Piles (w : World) : Ledger → Block → Prop
  | held {b : Block} : b ∈ w.blocks → Piles w w.store.ledger b
  | fresh {ledger : Ledger} {b : Block} : Piles w ledger b →
      Piles w { ledger with next := ledger.next + 1 } b
  | mint {ledger : Ledger} {b : Block} : Piles w ledger b →
      Piles w { ledger with minted := ledger.minted + 1 } b
  | duplicate {ledger after : Ledger} {b copy : Block} : Piles w ledger b →
      b.duplicate.outcome w.store.loads ledger = (.ok copy, after) → Piles w after copy
  | make {ledger after : Ledger} {entries : Block} {handle : Nat} {ids : View Nat}
      {offset count : Nat} {source : SourceId} {keys : Keys} : Piles w ledger entries →
      ids.storage < ledger.next →
      (Keys.make handle entries ids offset count source .none).outcome w.store.loads ledger =
        (.ok keys, after) → Piles w after (.dictionary keys entries)

/-- A layer under the next identity is unseen. -/
theorem Keys.Unseen.of_next {after : Ledger} (sound : Sound K loads ledger)
    (raw : entries.Raw K loads ledger) (own : keys.memory = ledger.next)
    (stored : keys.ids.storage ∈ K.issued) (next : after.next = ledger.next + 1)
    (blank : after.memo ledger.next = .blank) : keys.Unseen K loads after entries where
  spent := by omega
  apart c there same := by
    rw [own] at same
    rcases there with mem | part
    · exact Nat.lt_irrefl _ (sound.spent c mem _ same)
    · exact Nat.lt_irrefl _ (raw.part_spent sound part same)
  issued := stored
  blank := own ▸ blank

/-- **A pile is raw.** -/
theorem Reachable.raw_of_piles {w : World} (reachable : Reachable w) {b : Block}
    (piles : w.Piles ledger b) : ∃ K : Census, K.given = .univ ∧ (∀ b ∈ w.blocks, b ∈ K) ∧
      Sound K w.store.loads ledger ∧ b.Raw K w.store.loads ledger := by
  induction piles with
  | held held =>
    obtain ⟨K, given, sound, known⟩ := reachable.counts
    exact ⟨K, given, known, sound, .held (known _ held)⟩
  | fresh _ ih =>
    obtain ⟨K, given, known, sound, raw⟩ := ih
    exact ⟨K, given, known, sound.fresh, raw.mono rfl subset_rfl (Nat.le_succ _) fun _ _ ↦ rfl⟩
  | mint _ ih =>
    obtain ⟨K, given, known, sound, raw⟩ := ih
    exact ⟨K.raise (_ + 1), given, known, sound.mint,
      raw.mono rfl subset_rfl (Nat.le_refl _) fun _ _ ↦ rfl⟩
  | @duplicate ledger after b copy _ run ih =>
    obtain ⟨K, given, known, sound, raw⟩ := ih
    cases raw with
    | held mem =>
      obtain ⟨-, L, le, later, ends⟩ := Block.duplicate_meets mem ledger sound
      rw [run] at later ends
      exact ⟨L, le.given ▸ given, fun b held ↦ Census.mem_of_le le (known b held), later,
        .held ends.1⟩
    | @keys keys entries unseen raw =>
      obtain ⟨⟩ := run
      have missing := (sound.blank ledger.next (Nat.le_refl _)).1
      have carried : (ledger.carried keys.memory).memo ledger.next = .blank := by
        rw [Ledger.memo_carried missing, if_pos rfl, unseen.blank]
      have later : entries.Raw K w.store.loads (ledger.carried keys.memory) :=
        raw.mono rfl subset_rfl (Nat.le_succ _) fun n old ↦ by
          rw [Ledger.memo_carried missing, if_neg (Nat.ne_of_lt old)]
      exact ⟨K, given, known, sound.carryOver keys.memory,
        .keys (.of_next sound raw rfl unseen.issued rfl carried) later⟩
  | @make ledger after entries handle ids offset count source keys _ stored made ih =>
    obtain ⟨K, given, known, sound, raw⟩ := ih
    obtain ⟨⟨fits, rfl⟩, rfl⟩ := Keys.of_make_none made
    have sound := sound.issue_of_lt stored
    have raw : entries.Raw (K.issue ids.storage) w.store.loads ledger :=
      raw.mono rfl (Set.subset_insert _ _) (Nat.le_refl _) fun _ _ ↦ rfl
    exact ⟨K.issue ids.storage, given, known, sound.fresh,
      .keys (.of_next sound raw rfl (.inl rfl) rfl (sound.blank _ (Nat.le_refl _)).1)
        (raw.mono rfl subset_rfl (Nat.le_succ _) fun _ _ ↦ rfl)⟩

/-! ### Sizes -/

/-- The query is answered just if there is no damage. Otherwise it reports the damage, and remembers
nothing under the memory. -/
def Query.Surfaces {α : Type} (query : Query α) (loads : Loads) (ledger : Ledger) (memory : Nat)
    (damage : Prop) : Prop :=
  query.Runs loads ledger (fun _ _ ↦ ¬ damage)
    fun after fault ↦ fault.Reports damage ∧ after.memo memory = ledger.memo memory

/-- The query is answered just if there is no damage, and leaves a ledger as said. Otherwise it
reports the damage, and writes nothing. -/
def Query.Detects {α : Type} (query : Query α) (loads : Loads) (ledger : Ledger) (damage : Prop)
    (left : Ledger → Prop) : Prop :=
  query.Runs loads ledger (fun after _ ↦ ¬ damage ∧ left after)
    fun after fault ↦ fault.Reports damage ∧ after = ledger

namespace Query.Surfaces

variable {α : Type} {query : Query α} {memory : Nat} {damage : Prop}
  (surfaces : query.Surfaces loads ledger memory damage)

include surfaces

theorem exists_ok (whole : ¬ damage) :
    ∃ a after, query.outcome loads ledger = (.ok a, after) := by
  rw [Query.Surfaces, Query.Runs] at surfaces
  rcases run : query.outcome loads ledger with ⟨fault | a, after⟩
  · rw [run] at surfaces
    exact absurd surfaces.1.2 whole
  · exact ⟨a, after, rfl⟩

theorem exists_error (present : damage) :
    ∃ fault after, query.outcome loads ledger = (.error fault, after) ∧
      fault.isInternal = true ∧ after.memo memory = ledger.memo memory := by
  rw [Query.Surfaces, Query.Runs] at surfaces
  rcases run : query.outcome loads ledger with ⟨fault | a, after⟩
  all_goals rw [run] at surfaces
  · exact ⟨fault, after, rfl, surfaces.1.1, surfaces.2⟩
  · exact absurd present surfaces

end Query.Surfaces

/-- What is detected surfaces. -/
theorem Query.Detects.surfaces {α : Type} {query : Query α} {damage harm : Prop}
    {left : Ledger → Prop} (detects : query.Detects loads ledger damage left)
    (same : damage ↔ harm) (memory : Nat) : query.Surfaces loads ledger memory harm :=
  detects.mono (fun _ _ clean ↦ mt same.2 clean.1)
    fun _ _ ⟨reports, kept⟩ ↦ ⟨reports.mono same.1, kept ▸ rfl⟩

section Sizes

variable (raw : entries.Raw K loads ledger) (sound : Sound K loads ledger)
  (roomy : entries.Roomy loads)

include raw sound roomy

/-- Statistics find the strays among all keys. If there are none, they are remembered. -/
theorem Keys.Unseen.statsWith_detects (unseen : keys.Unseen K loads ledger entries)
    (entriesSize : (entries.sizeOf .all).Detects loads ledger entries.Corrupt fun _ ↦ True) :
    (keys.statsWith entries (entries.sizeOf .all)).Detects loads ledger
      (Block.dictionary keys entries).Corrupt fun after ↦
        (after.stats.get? keys.memory).isSome := by
  have meant := Keys.referred_of_isWhole (Extent.isWhole_all keys.count)
  have every : (Block.dictionary keys entries).Exposed (Extent.mask keys.count .all) ↔
      (Block.dictionary keys entries).Corrupt := Block.exposed_of_isWhole (Extent.isWhole_all _)
  refine .remembered_of_none (P := fun _ _ ↦ ¬ (Block.dictionary keys entries).Corrupt)
    (Ledger.blank_stats unseen.blank) (.read_bind ?_) fun middle stats clean ↦ ⟨clean, ?_⟩
  · refine .attempt_bind ((Keys.ends_mark meant roomy.positionCount_lt).mono (fun _ told ↦ told)
      fun _ reports ↦ ⟨reports.mono every.1, rfl⟩) fun used ⟨same, inside, exposed⟩ ↦ ?_
    rw [every] at exposed
    dsimp only
    rw [exposed]
    split
    next all =>
      -- Every entry is referred to, so all that strays among them is meant.
      rw [Block.exposed_iff_corrupt fun p room ↦ by
        rw [meant]
        exact List.contains_iff_mem.2 (mem_of_length_eraseDups inside all room)]
      refine .bind entriesSize fun middle size ⟨clean, _⟩ ↦ ?_
      split
      · exact .pure clean
      · exact .pure clean
    next =>
      rw [← same]
      exact .attempt_bind ((raw.flatMaskSize sound roomy used).mono (fun _ clean ↦ clean)
        fun _ reports ↦ ⟨reports, rfl⟩) fun size clean ↦ .pure clean
  · change ((middle.stats.publish keys.memory stats).get? keys.memory).isSome
    rw [Slots.get?_publish, if_pos rfl]
    rfl

/-- The size of all keys is one of their statistics. -/
theorem Keys.Unseen.sizeOf_detects {extent : Extent} (unseen : keys.Unseen K loads ledger entries)
    (entriesSize : (entries.sizeOf .all).Detects loads ledger entries.Corrupt fun _ ↦ True)
    (fits : extent.offset + extent.length keys.count ≤ keys.count)
    (whole : extent.isWhole keys.count = true) :
    ((Block.dictionary keys entries).sizeOf extent).Detects loads ledger
      (Block.dictionary keys entries).Corrupt fun after ↦
        (after.stats.get? keys.memory).isSome := by
  rw [Block.sizeOf]
  refine .check_ok_bind (checkRegion_eq_ok_iff.2 fits) (.read_bind ?_)
  rw [Block.face?]
  dsimp only
  rw [if_pos whole]
  exact .bind (unseen.statsWith_detects raw sound roomy entriesSize) fun _ _ clean ↦ .pure clean

/-- The size of some keys finds the strays among them, and writes nothing. -/
theorem Keys.sizeOf_detects (extent : Extent)
    (fits : extent.offset + extent.length keys.count ≤ keys.count)
    (part : ¬ extent.isWhole keys.count = true) :
    ((Block.dictionary keys entries).sizeOf extent).Detects loads ledger
      ((Block.dictionary keys entries).Exposed (extent.mask keys.count)) (· = ledger) := by
  rw [Block.sizeOf]
  refine .check_ok_bind (checkRegion_eq_ok_iff.2 fits) (.read_bind ?_)
  rw [Block.face?]
  dsimp only
  rw [if_neg part]
  refine .attempt_bind ((Keys.ends_mark (keys.referred_region _ _)
    roomy.positionCount_lt).mono (fun _ told ↦ told) fun _ reports ↦ ⟨reports, rfl⟩) ?_
  rintro used ⟨same, -, exposed⟩
  refine .read_bind ?_
  rw [Extent.mask, exposed, ← same]
  exact .attempt_bind ((raw.maskSize sound roomy used).mono (fun _ clean ↦ clean)
    fun _ reports ↦ ⟨reports, rfl⟩) fun size clean ↦ .pure ⟨clean, rfl⟩

end Sizes

/-- **Sizing a raw block finds the strays among what is meant**, before anything is written. -/
theorem Block.Raw.sizeOf_detects {b : Block} (raw : b.Raw K loads ledger)
    (sound : Sound K loads ledger) (roomy : b.Roomy loads) (extent : Extent)
    (fits : extent.offset + extent.length b.positionCount ≤ b.positionCount) :
    (b.sizeOf extent).Detects loads ledger (b.Exposed (extent.mask b.positionCount))
      fun _ ↦ True := by
  induction raw generalizing extent with
  | @held b mem =>
    obtain ⟨-, _, _, _, ends⟩ := Block.sizeOf_meets mem extent ledger sound
    exact ends.mono (fun _ _ ↦ ⟨sound.not_exposed mem _, trivial⟩)
      fun _ refused ↦ absurd ⟨fits, .inl roomy⟩ refused
  | @keys keys entries unseen raw ih =>
    by_cases whole : extent.isWhole keys.count = true
    · have entriesSize := ih roomy.entries .all (Extent.fits_all _)
      rw [exposed_of_isWhole (Extent.isWhole_all _)] at entriesSize
      rw [exposed_of_isWhole (b := dictionary keys entries) whole]
      exact (unseen.sizeOf_detects raw sound roomy.entries entriesSize fits whole).mono
        (fun _ _ ↦ And.imp_right fun _ ↦ trivial) fun _ _ ↦ id
    · exact (Keys.sizeOf_detects raw sound roomy.entries extent fits whole).mono
        (fun _ _ ↦ And.imp_right fun _ ↦ trivial) fun _ _ ↦ id

theorem Block.Raw.size_detects {b : Block} (raw : b.Raw K loads ledger)
    (sound : Sound K loads ledger) (roomy : b.Roomy loads) :
    b.size.Detects loads ledger b.Corrupt fun _ ↦ True := by
  rw [← exposed_of_isWhole (Extent.isWhole_all _)]
  exact raw.sizeOf_detects sound roomy .all (Extent.fits_all _)

/-! ### Logical sizes -/

/-- The size of all keys whose statistics are remembered is one of them. -/
theorem Keys.sizeOf_of_known {extent : Extent} (known : (ledger.stats.get? keys.memory).isSome)
    (fits : extent.offset + extent.length keys.count ≤ keys.count)
    (whole : extent.isWhole keys.count = true) :
    ((Block.dictionary keys entries).sizeOf extent).Runs loads ledger
      (fun after _ ↦ after = ledger) fun _ _ ↦ False := by
  obtain ⟨stats, found⟩ := Option.isSome_iff_exists.1 known
  rw [Block.sizeOf]
  refine .check_ok_bind (checkRegion_eq_ok_iff.2 fits) (.read_bind ?_)
  rw [Block.face?]
  dsimp only
  rw [if_pos whole]
  exact .bind (.remembered_of_some found rfl) fun _ _ same ↦ .pure same

/-- A single key is all of the block, so its size is remembered once it was asked for, and the next
time it is not worked out. -/
theorem Keys.Unseen.sizeOf_of_only (unseen : keys.Unseen K loads ledger entries)
    (raw : entries.Raw K loads ledger) (sound : Sound K loads ledger) (roomy : entries.Roomy loads)
    (only : keys.count = 1) {now : Ledger} (asked : now = ledger ∨
      (now.stats.get? keys.memory).isSome ∧ ¬ (Block.dictionary keys entries).Corrupt) :
    ((Block.dictionary keys entries).sizeOf (.region 0 1)).Runs loads now
      (fun after _ ↦ (after.stats.get? keys.memory).isSome ∧
        ¬ (Block.dictionary keys entries).Corrupt)
      fun _ fault ↦ fault.Reports (Block.dictionary keys entries).Corrupt := by
  have fits : Extent.offset (.region 0 1) + Extent.length keys.count (.region 0 1) ≤ keys.count :=
    only.ge
  have whole : (Extent.region 0 1).isWhole keys.count = true := by
    rw [only]
    rfl
  rcases asked with rfl | ⟨known, clean⟩
  · exact (unseen.sizeOf_detects raw sound roomy (raw.size_detects sound roomy) fits whole).mono
      (fun _ _ ↦ And.symm) fun _ _ ↦ And.left
  · refine (Keys.sizeOf_of_known known fits whole).mono ?_ fun _ _ ↦ False.elim
    rintro _ _ rfl
    exact ⟨known, clean⟩

/-- **Entries may be asked for one by one, and more than once**: some condition holds and stays, and
as long as it does, each entry is sized just if it does not stray. -/
theorem Block.Raw.exists_inv (raw : entries.Raw K loads ledger) (sound : Sound K loads ledger)
    (roomy : entries.Roomy loads) : ∃ inv : Ledger → Prop, inv ledger ∧
      ∀ now, inv now → ∀ id < entries.positionCount, (entries.regionSize id 1).Runs loads now
        (fun after _ ↦ inv after ∧ ¬ entries.strays id = true)
        fun _ fault ↦ fault.Reports (entries.strays id = true) := by
  cases raw with
  | held mem =>
    refine ⟨fun now ↦ ∃ L, K ≤ L ∧ Sound L loads now, ⟨K, K.le_refl, sound⟩, ?_⟩
    rintro now ⟨L, le, present⟩ id inside
    obtain ⟨-, M, more, later, ends⟩ :=
      Block.sizeOf_meets (Census.mem_of_le le mem) (.region id 1) now present
    refine ends.mono (fun _ _ ↦ ⟨⟨M, Census.le_trans le more, later⟩, fun strays ↦ ?_⟩)
      fun _ refused ↦ absurd ⟨inside, .inl roomy⟩ refused
    exact inside.not_ge ((sound.strays_iff mem).1 strays)
  | @keys keys entries unseen raw =>
    by_cases only : keys.count = 1
    · refine ⟨fun now ↦ now = ledger ∨ (now.stats.get? keys.memory).isSome ∧
        ¬ (dictionary keys entries).Corrupt, .inl rfl, fun now asked id inside ↦ ?_⟩
      obtain rfl : id = 0 := Nat.lt_one_iff.1 (inside.trans_eq only)
      have alone : (dictionary keys entries).Corrupt ↔
          (dictionary keys entries).strays 0 = true := by
        refine Iff.trans ?_ (exposed_region_one inside)
        refine (exposed_iff_corrupt fun p inside ↦ Mask.region_eq_true.2 ?_).symm
        exact ⟨Nat.zero_le p, inside.trans_eq only⟩
      rw [← alone]
      exact (unseen.sizeOf_of_only raw sound roomy.entries only asked).mono
        (fun _ _ told ↦ ⟨.inr told, told.2⟩) fun _ _ ↦ id
    · refine ⟨(· = ledger), rfl, ?_⟩
      rintro now rfl id inside
      have part : ¬ (Extent.region id 1).isWhole keys.count = true := fun whole ↦
        only (beq_iff_eq.1 (Bool.and_eq_true_iff.1 whole).2).symm
      have detects := Keys.sizeOf_detects raw sound roomy.entries (.region id 1) inside part
      rw [show Extent.mask keys.count (.region id 1) = .region id 1 from rfl,
        exposed_region_one inside] at detects
      exact detects.mono (fun _ _ ↦ And.symm) fun _ _ ↦ And.left

/-- Entries are asked for their sizes in order, and the first stray among the keys is reported. -/
theorem Keys.Unseen.entrySizes_runs (unseen : keys.Unseen K loads ledger entries)
    (raw : entries.Raw K loads ledger) (sound : Sound K loads ledger)
    (roomy : entries.Roomy loads) : (keys.toList.mapM entries.entrySize).Runs loads ledger
      (fun _ _ ↦ ∀ id ∈ keys.toList, ¬ entries.strays id = true)
      fun after fault ↦ fault.Reports (∃ id ∈ keys.toList, entries.strays id = true) ∧
        after.memo keys.memory = ledger.memo keys.memory := by
  obtain ⟨inv, start, runs⟩ := raw.exists_inv sound roomy
  refine .mono (.mapM (I := fun now ↦ inv now ∧ now.memo keys.memory = .blank)
    (P := fun id ↦ ¬ entries.strays id = true) ⟨start, unseen.blank⟩ ?_) (fun _ _ ↦ And.right)
      fun _ _ refused ↦ refused
  rintro now ⟨held, blank⟩ id listed
  rw [Block.entrySize]
  split
  next outside =>
    refine .bind (P := fun _ _ ↦ False) (.throw ?_) fun _ _ ↦ False.elim
    exact ⟨⟨rfl, id, listed, Block.strays_of_le outside⟩, blank.trans unseen.blank.symm⟩
  next inside =>
    -- The entry is asked for by its own memory and those below, never by that of the keys.
    have frame := Block.sizeOf_keeps (fun c part ↦ unseen.apart c (.inr part)) (.region id 1)
      .blank now blank
    refine ((runs now held id (Nat.lt_of_not_le inside)).and frame).mono ?_ ?_
    · rintro _ _ ⟨⟨held, clean⟩, blank⟩
      exact ⟨⟨held, blank⟩, clean⟩
    · rintro _ _ ⟨reports, blank⟩
      exact ⟨reports.mono fun strays ↦ ⟨id, listed, strays⟩, blank.trans unseen.blank.symm⟩

/-- **The logical size of keys finds the strays among them**, as far as it is a word. -/
theorem Keys.Unseen.logicalSize_surfaces (unseen : keys.Unseen K loads ledger entries)
    (raw : entries.Raw K loads ledger) (sound : Sound K loads ledger)
    (small : entries.Small loads)
    (addable : Query.Addable keys.toList entries.entrySize loads ledger) :
    (Block.dictionary keys entries).logicalSize.Surfaces loads
      ledger keys.memory (Block.dictionary keys entries).Corrupt := by
  have missing : ledger.logicalSizes.get? keys.memory = none :=
    congrArg Memo.logicalSize? unseen.blank
  rw [Query.Surfaces, Block.logicalSize, Block.corrupt_dictionary]
  refine .read_bind ?_
  rw [Block.face?]
  refine .remembered_of_none (P := fun _ _ ↦ ¬ ∃ id ∈ keys.toList, entries.strays id = true)
    missing ?_ fun _ _ clean ↦ clean
  refine .attempt_bind (P := fun _ ↦ True) ?_ fun _ _ ↦ .sumOver addable ?_
  · rw [allocate_of_lt]
    · trivial
    · have := small entries .refl
      rw [optionalSize]
      omega
  · exact (unseen.entrySizes_runs raw sound small.roomy).mono
      (fun _ _ clean ↦ by simpa using clean) fun _ _ refused ↦ refused

/-! ### Compacting -/

/-- Shrinking keys reports the first id that points past the entries. -/
theorem Keys.shrink_of_find? (blank : ledger.memo keys.memory = .blank)
    (room : entries.positionCount < 2 ^ 63) {id : Nat}
    (first : keys.toList.find? (entries.positionCount ≤ ·) = some id) :
    (keys.shrink entries).outcome loads ledger = (.error (.error (.missingKey id)), ledger) := by
  refine Query.outcome_bind_of_error ?_
  rw [stats, statsWith, Query.remembered, Query.outcome_ledger_bind,
    show (Ledger.statsTable.slots ledger).get? keys.memory = none from Ledger.blank_stats blank]
  refine Query.outcome_bind_of_error ?_
  rw [Query.outcome_read_bind, markUsed_eq_error_of_find? room first]
  rfl

/-- Keys whose ids are positions of a block of the census join it. -/
theorem Keys.Unseen.sound_add (unseen : keys.Unseen K loads ledger entries)
    (sound : Sound K loads ledger) (given : K.given = .univ) (free : ¬ K.tracks) (mem : entries ∈ K)
    (intact : keys.Intact entries.positionCount) :
    Sound (K.add (.dictionary keys entries)) loads ledger := by
  have admitted : K.Offers keys.source keys.handle entries :=
    .inl ⟨.inl (given ▸ trivial), fun tracked ↦ absurd tracked free⟩
  refine sound.add (by simpa [Block.parts] using mem) intact (.dictionary unseen.issued)
    (fun n own ↦ ?_) admitted ?_ (fun _ n own ↦ ?_) (by rintro _ _ ⟨⟩)
  · obtain rfl : keys.memory = n := Option.some.inj own
    exact ⟨unseen.spent, fun c there ↦ unseen.apart c (.inl there)⟩
  · rintro _ _ ⟨⟩ stats found
    rw [Ledger.blank_stats unseen.blank] at found
    cases found
  · obtain rfl : keys.memory = n := Option.some.inj own
    exact unseen.blank ▸ Memo.right_blank _ _

section Compact

variable (unseen : keys.Unseen K loads ledger entries) (raw : entries.Raw K loads ledger)
  (sound : Sound K loads ledger) (small : entries.Small loads)

include unseen raw sound small

/-- Flattening looks the ids up, and reports a stray or hands on an id that points past the
bottom. -/
theorem Keys.Unseen.flatten_of_strays (damage : ∃ id ∈ keys.toList, entries.strays id = true) :
    (keys.flatten entries).Runs loads ledger
      (fun middle out ↦ out.2.positionCount < 2 ^ 63 ∧ middle.memo out.1.memory = .blank ∧
        middle.memo keys.memory = .blank ∧
          ∃ id, out.1.toList.find? (out.2.positionCount ≤ ·) = some id)
      fun after fault ↦ fault.isInternal = true ∧ after.memo keys.memory = .blank := by
  refine .read_bind (.check_bind ((raw.flattenIds sound keys.handle keys.toList).mono
    (fun _ found ↦ found) fun _ reports ↦ ⟨reports.1, unseen.blank⟩) ?_)
  rintro ⟨handle, bottom, flat⟩ ⟨there, outside⟩
  refine .mint_bind ?_
  obtain ⟨made, run, memory, ids⟩ := exists_of_ofIds_none handle bottom flat
    ⟨.own, ledger.minted⟩ loads { ledger with minted := ledger.minted + 1 }
  rw [Query.Runs, Query.outcome_bind_of_ok run]
  refine ⟨small.roomy _ there.part, ?_, unseen.blank, ?_⟩
  · rw [memory]
    exact (sound.blank (ledger.next + 1) (Nat.le_succ _)).1
  · rw [ids]
    exact exists_find?_of_exists (outside.2 damage)

/-- Compacting reports an id that strays, wherever in the chain it does. -/
theorem Keys.Unseen.compact_of_strays (damage : ∃ id ∈ keys.toList, entries.strays id = true) :
    (keys.compact entries).Runs loads ledger (fun _ _ ↦ False)
      fun after fault ↦ fault.isInternal = true ∧ after.memo keys.memory = .blank := by
  refine .read_bind ?_
  split
  next nested =>
    refine .bind (unseen.flatten_of_strays raw sound small damage) ?_
    rintro middle out ⟨room, blank, kept, id, first⟩
    rw [Query.Runs, shrink_of_find? blank room first]
    exact ⟨rfl, kept⟩
  next alone =>
    have flat := Bool.eq_false_iff.2 alone
    obtain ⟨id, listed, strays⟩ := damage
    cases raw with
    | held mem =>
      obtain ⟨id, first⟩ := exists_find?_of_exists ⟨id, listed, (sound.strays_iff mem).1 strays⟩
      rw [Query.Runs, shrink_of_find? unseen.blank small.roomy.positionCount_lt first]
      exact ⟨rfl, unseen.blank⟩
    | keys => simp at flat

omit unseen in
/-- If no id strays, flattening answers with keys to the bottom that join the census. -/
theorem Keys.flatten_of_not_strays (free : ¬ K.tracks)
    (clean : ¬ ∃ id ∈ keys.toList, entries.strays id = true) :
    (keys.flatten entries).Meets K loads
      (fun L out ↦ .dictionary out.1 out.2 ∈ L ∧ out.2.isNested loads = false ∧
        out.2.Small loads ∧ out.2 = (entries.bottom loads keys.handle).2 ∧
          out.1.toList = keys.landed loads entries)
      fun _ ↦ False := by
  have found := raw.flattenIds sound keys.handle keys.toList
  rcases run : entries.flattenIds loads keys.handle keys.toList with
    cause | ⟨handle, bottom, flattened⟩
  all_goals rw [run] at found
  · exact absurd found.2 clean
  obtain ⟨there, outside⟩ := found
  have low : ∀ id ∈ flattened, id < bottom.positionCount := fun id listed ↦ by
    by_contra beyond
    exact clean (outside.1 ⟨id, listed, Nat.le_of_not_lt beyond⟩)
  refine .read_bind (.check_ok_bind run (.mint_bind fun n _ spare ↦ ?_))
  refine .bind (ofIds_none_meets (Census.mem_of_le (K.le_raise _) there.mem) low
    (.inl ⟨spare, fun tracked ↦ absurd tracked free⟩)) ?_
  rintro L made _ ⟨told, -⟩
  obtain ⟨bottom, lands⟩ := Block.of_flattenIds_eq_ok run
  exact .pure ⟨told.mem, there.flat, fun c part ↦ small c (part.trans there.part),
    congrArg Prod.snd bottom, told.ids.trans lands⟩

/-- Compacting answers if no id strays and what is gathered fits together. -/
theorem Keys.Unseen.compact_of_not_strays (given : K.given = .univ)
    (clean : ¬ ∃ id ∈ keys.toList, entries.strays id = true)
    (fits : keys.FitsCompacted loads entries) :
    (keys.compact entries).Runs loads ledger (fun _ _ ↦ True) fun _ _ ↦ False := by
  -- The handle of a pile may be any number.
  have free : ¬ K.untracked.tracks := not_false
  have sound := sound.untracked
  have raw : entries.Raw K.untracked loads ledger :=
    raw.mono rfl subset_rfl (Nat.le_refl _) fun _ _ ↦ rfl
  have unseen : keys.Unseen K.untracked loads ledger entries :=
    unseen.mono rfl subset_rfl (Nat.le_refl _) fun _ _ ↦ rfl
  by_cases flat : entries.isNested loads = false
  · cases raw with
    | held mem =>
      have intact : keys.Intact entries.positionCount := fun id listed ↦ by
        by_contra outside
        exact clean ⟨id, listed, Block.strays_of_le (Nat.le_of_not_lt outside)⟩
      obtain ⟨-, _, _, _, ends⟩ := Keys.compact_meets (K.untracked.mem_add_self _) ledger
        (unseen.sound_add sound given free mem intact)
      exact ends.mono (fun _ _ ↦ trivial) fun _ refused ↦ (refused small).2 fits
    | keys => simp at flat
  · have meets : (keys.compact entries).Meets K.untracked loads (fun _ _ ↦ True)
        fun _ ↦ False := by
      refine .read_bind ?_
      rw [if_pos (Bool.not_eq_false _ ▸ flat)]
      refine .bind (flatten_of_not_strays raw sound small free clean) ?_
      rintro L out _ ⟨mem, flat, small, bottom, lands⟩
      refine (shrink_meets mem flat).mono (fun _ _ _ _ ↦ trivial) fun _ refused ↦
        (refused small).2 ?_
      rwa [bottom, lands]
    obtain ⟨-, _, _, _, ends⟩ := meets ledger sound
    exact ends

end Compact

/-! ### In reachable worlds -/

/-- What is asked of a raw dictionary block. -/
theorem Block.Raw.surfaces (raw : (Block.dictionary keys entries).Raw K loads ledger)
    (sound : Sound K loads ledger) (given : K.given = .univ)
    (small : (Block.dictionary keys entries).Small loads) :
    (Query.Addable keys.toList entries.entrySize loads ledger →
      (Block.dictionary keys entries).logicalSize.Surfaces loads ledger keys.memory
        (Block.dictionary keys entries).Corrupt) ∧
      ((¬ (Block.dictionary keys entries).Corrupt → keys.FitsCompacted loads entries) →
        (keys.compact entries).Surfaces loads ledger keys.memory
          (Block.dictionary keys entries).Corrupt) := by
  cases raw with
  | held mem =>
    have whole : ¬ (Block.dictionary keys entries).Corrupt := by
      rintro ⟨position, inside, strays⟩
      exact inside.not_ge ((sound.strays_iff mem).1 strays)
    refine ⟨fun addable ↦ ?_, fun fits ↦ ?_⟩
    · refine (sound.runs_logicalSize mem small fun _ _ same ↦ ?_).mono (fun _ _ _ ↦ whole)
        fun _ _ ↦ False.elim
      rw [Block.resolved?, Block.face?] at same
      cases same
      exact addable
    · obtain ⟨-, _, _, _, ends⟩ := Keys.compact_meets mem ledger sound
      exact ends.mono (fun _ _ ↦ whole) fun _ refused ↦
        absurd (fits whole) (refused small.entries).2
  | keys unseen raw =>
    refine ⟨unseen.logicalSize_surfaces raw sound small.entries, fun fits ↦ ?_⟩
    by_cases damage : (Block.dictionary keys entries).Corrupt
    · exact (unseen.compact_of_strays raw sound small.entries
        (Block.corrupt_dictionary.1 damage)).mono (fun _ _ ↦ False.elim)
          fun _ _ reports ↦ ⟨⟨reports.1, damage⟩, reports.2.trans unseen.blank.symm⟩
    · exact (unseen.compact_of_not_strays raw sound small.entries given
        (mt Block.corrupt_dictionary.2 damage) (fits damage)).mono (fun _ _ _ ↦ damage)
          fun _ _ ↦ False.elim

/-- **Corruption surfaces, exactly and without a trace.** A pile is unchecked keys over a block that
is held, or over such keys. All of it is sized, with its entries once or for each position, and
compacted just if none of its positions strays, as long as the sizes add up to a word and what is
gathered fits together. The positions of a region and those that flags select are sized just if none
of them strays. Otherwise corruption is reported, and nothing is remembered under the memory of the
keys. -/
theorem Reachable.corruption_surfaces {w : World} (reachable : Reachable w)
    (piles : w.Piles ledger (.dictionary keys entries))
    (small : (Block.dictionary keys entries).Small w.store.loads) :
    let b := Block.dictionary keys entries
    let corrupt := ∃ position < keys.count, b.strays position = true
    b.size.Surfaces w.store.loads ledger keys.memory corrupt ∧
      (Query.Addable keys.toList entries.entrySize w.store.loads ledger →
        b.logicalSize.Surfaces w.store.loads ledger keys.memory corrupt) ∧
      ((¬ corrupt → keys.FitsCompacted w.store.loads entries) →
        (keys.compact entries).Surfaces w.store.loads ledger keys.memory corrupt) ∧
      (∀ offset length, offset + length ≤ keys.count →
        (b.regionSize offset length).Surfaces w.store.loads ledger keys.memory
          (∃ position, offset ≤ position ∧ position < offset + length ∧
            b.strays position = true)) ∧
      ∀ flags : List Bool, flags.length = keys.count →
        Ends (b.positionsSize w.store.loads flags)
          (fun _ ↦ ¬ ∃ position : Nat, flags[position]? = some true ∧ b.strays position = true)
          fun fault ↦ fault.Reports
            (∃ position : Nat, flags[position]? = some true ∧ b.strays position = true) := by
  obtain ⟨K, given, -, sound, raw⟩ := reachable.raw_of_piles piles
  obtain ⟨logicalSize, compact⟩ := raw.surfaces sound given small
  refine ⟨(raw.size_detects sound small.roomy).surfaces .rfl _, logicalSize, compact,
    fun offset length fits ↦ ?_, fun flags all ↦ ?_⟩
  · refine (raw.sizeOf_detects sound small.roomy (.region offset length) fits).surfaces
      (exists_congr fun position ↦ ?_) _
    rw [Extent.mask, Mask.region_eq_true, and_assoc]
    refine and_iff_right_of_imp ?_
    rintro ⟨-, last, -⟩
    exact last.trans_le fits
  · replace all : flags.length = (Block.dictionary keys entries).positionCount := all
    have same : (Block.dictionary keys entries).Exposed (.ofFlags flags) ↔
        ∃ position : Nat, flags[position]? = some true ∧
          (Block.dictionary keys entries).strays position = true := by
      refine exists_congr fun position ↦ ?_
      rw [Mask.ofFlags_eq_true]
      refine and_iff_right_of_imp ?_
      rintro ⟨meant, -⟩
      exact (List.getElem?_eq_some_iff.1 meant).1.trans_eq all
    rw [Block.positionsSize, checkFlags, if_pos all, ← same]
    exact raw.maskSize sound small.roomy (.ofFlags flags)

namespace World

/-- Two keys to the entries of the sample, the second of them to none. -/
def brokenKeys : Keys := ⟨0, 2, .ofList 5 [1, 9], ⟨.own, 1⟩, 2, 6, by decide⟩

/-- Three keys to those, the last of them to the broken one. -/
def pileKeys : Keys := ⟨0, 3, .ofList 7 [0, 0, 1], ⟨.own, 2⟩, 8, 9, by decide⟩

/-- The ledger that the keys were made on. -/
def pileLedger : Ledger := { sample.store.ledger with next := 10, minted := 3 }

theorem piles_pileKeys :
    sample.Piles pileLedger (.dictionary pileKeys (.dictionary brokenKeys sampleEntries)) := by
  have entries : sample.Piles sample.store.ledger sampleEntries :=
    .held (by simp [blocks_sample])
  have broken : sample.Piles _ (.dictionary brokenKeys sampleEntries) :=
    entries.mint.fresh.make (show 5 < 6 by decide)
      (Keys.outcome_make_none brokenKeys.fits 2 _ ⟨.own, 1⟩ _ _)
  exact broken.mint.fresh.fresh.make (show 7 < 9 by decide)
    (Keys.outcome_make_none pileKeys.fits 8 _ ⟨.own, 2⟩ _ _)

/-- The entries under the broken keys are small, so what is answered of them adds up to a word. -/
theorem addable_pileKeys : Query.Addable pileKeys.toList
    (Block.dictionary brokenKeys sampleEntries).entrySize sample.store.loads pileLedger := by
  intro n sizes answered
  rcases n with - | - | - | n
  case succ.succ.succ =>
    -- The third key is the broken one, and nothing is answered of it.
    rw [List.take_of_length_le (show pileKeys.toList.length ≤ n + 3 by simp [pileKeys])] at answered
    cbv at answered
    cases answered
  all_goals
    cbv at answered
    cases answered
    decide

/-- The last position of the pile strays. So nothing is answered of all positions, but of the first
two. -/
theorem corruption_surfaces_pile :
    let b := Block.dictionary pileKeys (.dictionary brokenKeys sampleEntries)
    (∃ fault after, b.size.outcome sample.store.loads pileLedger = (.error fault, after) ∧
      fault.isInternal = true ∧ after.memo 9 = pileLedger.memo 9) ∧
    (∃ fault after, b.logicalSize.outcome sample.store.loads pileLedger = (.error fault, after) ∧
      fault.isInternal = true ∧ after.memo 9 = pileLedger.memo 9) ∧
    (∃ fault after, (pileKeys.compact (.dictionary brokenKeys sampleEntries)).outcome
        sample.store.loads pileLedger = (.error fault, after) ∧
      fault.isInternal = true ∧ after.memo 9 = pileLedger.memo 9) ∧
    (∃ n after, (b.regionSize 0 2).outcome sample.store.loads pileLedger = (.ok n, after)) ∧
    ∃ n, b.positionsSize sample.store.loads [false, true, false] = .ok n := by
  have small : (Block.dictionary pileKeys (.dictionary brokenKeys sampleEntries)).Small
      sample.store.loads :=
    Block.small_dictionary (by decide) (Block.small_dictionary (by decide) small_sampleEntries)
  obtain ⟨size, logicalSize, compact, region, positions⟩ :=
    reachable_sample.corruption_surfaces piles_pileKeys small
  have corrupt : ∃ position < 3,
      (Block.dictionary pileKeys (.dictionary brokenKeys sampleEntries)).strays position = true :=
    ⟨2, by decide, rfl⟩
  have whole : ∀ position < 2, (Block.dictionary pileKeys
      (.dictionary brokenKeys sampleEntries)).strays position = false := by
    decide
  refine ⟨size.exists_error corrupt, (logicalSize addable_pileKeys).exists_error corrupt,
    (compact (absurd corrupt)).exists_error corrupt, (region 0 2 (by decide)).exists_ok ?_, ?_⟩
  · rintro ⟨position, -, before, strays⟩
    simp [whole position before] at strays
  · have ends := positions [false, true, false] rfl
    rcases run : (Block.dictionary pileKeys (.dictionary brokenKeys sampleEntries)).positionsSize
      sample.store.loads [false, true, false] with fault | n
    all_goals rw [run] at ends
    · obtain ⟨-, position, flagged, strays⟩ := ends
      obtain rfl : position = 1 := by
        rcases position with - | - | - | position <;> simp at flagged ⊢
      simp [whole 1 (by decide)] at strays
    · exact ⟨n, rfl⟩

end World

end BatchColumn
