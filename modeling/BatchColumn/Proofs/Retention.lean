import BatchColumn.Proofs.Loaded
import Mathlib

/-!
# What gathers and copies keep alive

Gathers and copies are made to outlive the block that they are made of. A gather always can: all of
its layers, at every depth, are laid out over new arrays that they use throughout, and where it has
keys they are worth having (`Reachable.gather_owned`).

A copy of what is loaded throughout can, with one exception. Where a dictionary block in it refers
to every entry of a dictionary block that was copied, it takes the entries as they are, whatever
they keep alive (`Block.Lends`, `Reachable.copied_retains`). They may be a region of a block that is
far larger (`World.not_tight_trimmed`).

The second result is an induction on depth that follows `Block.copy_meets`. On the way nothing is
loaded, so it is a proof about one state of what is loaded (`Session.Meets.reveal_bind`).
-/

namespace BatchColumn

variable {K : Census} {loads now : Loads}

/-! ### What a copy keeps alive -/

namespace Block

/-- A dictionary block in `b` refers to the same entries by their identity, and the keys refer to
all of them. -/
structure Lends (loads : Loads) (b : Block) (keys : Keys) (entries : Block) : Prop where
  /-- The entries are those of a dictionary block. -/
  lender : ∃ others, Part loads (dictionary others entries) b ∧ keys.handle = others.handle
  /-- None of them is kept alive for nothing. -/
  covers : ∀ position < entries.positionCount, position ∈ keys.toList

/-- A copy of `b` keeps nothing alive but its own positions, and what is behind entries that it
takes as they are. -/
def Retains (loads : Loads) (b c : Block) : Prop :=
  ∀ later x, Part later x c → x.Tight ∨ ∃ keys entries,
    Part later (dictionary keys entries) c ∧ Lends loads b keys entries ∧ Part later x entries

theorem Owned.retains {old : Set Nat} {b c : Block} (owned : c.Owned old now) :
    Retains loads b c :=
  fun later x part ↦ .inl (owned later x part).tight

/-- What a part lends, the whole lends. -/
theorem Lends.of_part {a b entries : Block} {keys : Keys} (part : Part loads a b)
    (lends : Lends loads a keys entries) : Lends loads b keys entries := by
  obtain ⟨others, lender, same⟩ := lends.lender
  exact ⟨⟨others, lender.trans part, same⟩, lends.covers⟩

/-- A copy of a part is a copy. -/
theorem Retains.of_part {a b c : Block} (part : Part loads a b) (retains : Retains loads a c) :
    Retains loads b c := by
  intro later x found
  rcases retains later x found with tight | ⟨keys, entries, there, lends, below⟩
  · exact .inl tight
  · exact .inr ⟨keys, entries, there, lends.of_part part, below⟩

/-- Lists that are copied over a copy of their elements. -/
theorem Retains.array {lists copied : Lists} {elements others : Block}
    (retains : Retains loads elements others) (tight : copied.Tight others.positionCount) :
    Retains loads (array lists elements) (.array copied others) := by
  have within : Part loads elements (.array lists elements) := .elements .refl
  intro later x part
  cases part with
  | refl => exact .inl tight
  | elements part =>
    rcases retains.of_part within later x part with tight | ⟨keys, entries, there, lends, below⟩
    · exact .inl tight
    · exact .inr ⟨keys, entries, .elements there, lends, below⟩

/-- Keys to entries that are taken as they are. -/
theorem Retains.lent {b entries : Block} {keys : Keys} (tight : keys.Tight)
    (lends : Lends loads b keys entries) : Retains loads b (dictionary keys entries) := by
  intro later x part
  cases part with
  | refl => exact .inl tight
  | entries part => exact .inr ⟨keys, entries, .refl, lends, part⟩

/-- Keys to entries that were gathered. -/
theorem Retains.dictionary {old : Set Nat} {b entries : Block} {keys : Keys} (tight : keys.Tight)
    (owned : entries.Owned old now) : Retains loads b (dictionary keys entries) := by
  intro later x part
  cases part with
  | refl => exact .inl tight
  | entries part => exact .inl (owned later x part).tight

end Block

/-- What keys that are shrunk keep alive: entries that are all referred to are taken as they are,
others are gathered. -/
theorem Keys.Shrunk.retains {keys : Keys} {entries b : Block} {out : Keys × Block}
    (shrunk : Shrunk K now keys entries out) (intact : keys.Intact entries.positionCount)
    (able : entries.supportsGather now = true) (tight : keys.Tight)
    (lender : ∃ others, Block.Part loads (.dictionary others entries) b ∧
      keys.handle = others.handle) : Block.Retains loads b (.dictionary out.1 out.2) := by
  by_cases whole : keys.toList.eraseDups.length = entries.positionCount
  · obtain ⟨same, ids⟩ := shrunk.kept (.inl whole)
    obtain ⟨handle, kept⟩ := Prod.mk.inj same
    have covers : ∀ position < entries.positionCount, position ∈ out.1.toList := fun _ room ↦
      ids ▸ mem_of_length_eraseDups intact whole room
    rw [kept]
    exact .lent (shrunk.tight tight) ⟨handle ▸ lender, covers⟩
  · exact .dictionary (shrunk.tight tight) (shrunk.owned whole able)

namespace Block

variable {offset length : Nat}

/-- What is loaded throughout fits just if it fits when more is loaded. -/
theorem fits_iff_of_grows (grows : loads.payloads.Grows now.payloads) {b : Block}
    (loaded : b.isLoaded loads = true) {positions : List Nat} :
    b.Fits now positions ↔ b.Fits loads positions := by
  induction b using Block.walk generalizing positions with
  | step b ih =>
    obtain ⟨face, shown, loaded⟩ := exists_face_of_isLoaded loaded
    rw [← fits_of_face shown, ← fits_of_face (face?_of_grows grows shown)]
    rcases face with leaf | leaf | ⟨lists, elements, below⟩ | ⟨keys, entries, below⟩
    · exact iff_of_true (fits_ints _ _ _) (fits_ints _ _ _)
    · exact fits_slices.trans fits_slices.symm
    · rw [Face.toBlock, isLoaded_array] at loaded
      rw [Face.toBlock, fits_array, fits_array, ih elements below loaded]
    · rw [Face.toBlock, isLoaded_dictionary] at loaded
      rw [Face.toBlock, fits_dictionary, fits_dictionary, isNested_eq_of_grows grows loaded,
        ih entries below loaded, ih entries below loaded]

/-- Regions are copied, if what is gathered fits together, and the copies keep nothing else
alive. -/
def RetainsRegion (K : Census) (loads : Loads) (b : Block) (offset length : Nat) : Prop :=
  (b.copy offset length).Meets K (fun _ c ↦ b.Retains loads c)
    (fun _ ↦ b.Small loads → offset + length ≤ b.positionCount →
      ¬ b.Fits loads (List.range' offset length))

theorem copy_ints_retains {leaf : Ints} (intact : leaf.Intact) :
    RetainsRegion K loads (ints leaf) offset length := by
  rw [RetainsRegion, copy, reveal, pure_bind]
  refine .check_bind (fun _ passed ↦ .issue_bind fun cells _ ↦ .issue_bind fun flags _ ↦ ?_)
    fun _ refused _ inside ↦ absurd inside (rejects_of_checkRegion refused).2
  obtain ⟨w, run, -, -⟩ := Ints.copy_eq_ok intact (checkRegion_eq_ok_iff.1 passed)
  have owned : (ints w).Owned ∅ loads := owned_ints (Ints.of_copy_eq_ok run).1 fun _ _ ↦ id
  exact .attempt_ok_bind run (.pure owned.retains)

/-- A leaf of byte strings may stand for its own copy, but only if it keeps nothing else alive. -/
theorem copy_slices_retains {leaf : Slices} (intact : leaf.Intact)
    (stored : (slices leaf).Stored K.issued) :
    RetainsRegion K loads (slices leaf) offset length := by
  rw [RetainsRegion, copy, reveal, pure_bind]
  refine .check_bind (fun _ passed ↦ .storages_bind fun storages new ↦ ?_)
    fun _ refused _ inside ↦ absurd inside (rejects_of_checkRegion refused).2
  obtain ⟨w, run, -, filled, -⟩ := Slices.copy_eq_ok intact (checkRegion_eq_ok_iff.1 passed)
  have unflagged : storages.flags ∉ leaf.nulls.arrays := fun old ↦
    new storages.flags (by simp [Slices.Storages.arrays])
      (stored.issued _ (List.mem_cons_of_mem _ (List.mem_cons_of_mem _ old)))
  have whole := Slices.whole_of_copy run (stored.packed leaf rfl) unflagged
  have owned : (slices w).Owned ∅ loads := owned_slices ⟨whole, filled⟩ fun _ _ ↦ id
  exact .attempt_ok_bind run (.pure owned.retains)

/-- Lists are copied over a copy of the elements in them, and use all of it. -/
theorem copy_array_retains {lists : Lists} {elements : Block}
    (intact : lists.Intact elements.positionCount)
    (stored : (array lists elements).Stored K.issued) (mem : elements ∈ K)
    (copies : ∀ offset length, RetainsRegion K loads elements offset length) :
    RetainsRegion K loads (array lists elements) offset length := by
  rw [RetainsRegion, copy, reveal, pure_bind]
  refine .check_bind (fun span run ↦ ?_) fun _ refused _ inside ↦
    absurd inside (Lists.rejects_of_cut refused).2
  obtain ⟨fits, rfl⟩ := Lists.of_cut_eq_ok run
  have room := intact.span_le_size fits
  refine .bind (((copy_meets mem _ _).and (copies _ _)).refusing fun _ refused small _ ↦
    mt (Fits.of_lists intact fits) (refused.2 small.elements room)) fun L others le ended ↦ ?_
  obtain ⟨copied, retains⟩ := ended
  have stored := (stored.mono le.issued).issued
  exact .query_bind (fun now ↦ (Lists.copy_meets intact stored copied.mem fits
    copied.shows).refusing fun _ ↦ False.elim) fun M lists _ made ↦ .pure (retains.array made.2.2)

section Keys

variable {keys : Keys} {entries : Block} (mem : dictionary keys entries ∈ K)
  (seen : loads.payloads.Grows K.seen) (loaded : entries.isLoaded loads = true)

include mem seen loaded

/-- Copied ids that are compacted keep alive, beside themselves, entries that are gathered or taken
as they are. -/
theorem compactCopy_retains (flat : entries.isNested now = false) :
    (compactCopy keys entries offset length).Meets K now
      (fun _ c ↦ (dictionary keys entries).Retains loads c)
      (fun _ ↦ (dictionary keys entries).Small loads →
        ¬ (dictionary keys entries).Fits loads (List.range' offset length)) := by
  refine .of_sound fun ledger sound ↦ .mint_bind fun n _ spare ↦ ?_
  have since := seen.trans sound.delivered.past
  have able := supportsGather_of_grows since (supportsGather_of_isLoaded loaded)
  have there := Census.mem_of_le (K.le_raise (n + 1)) (sound.entries_mem mem)
  have inside : ∀ id ∈ stretch keys.toList offset length, id < entries.positionCount :=
    fun id listed ↦ sound.formed _ mem id (mem_of_mem_stretch listed)
  have issued : K.tracks → keys.handle ∈ K.issued :=
    fun tracked ↦ sound.sourced.handles tracked keys entries mem
  refine .bind ((Keys.ofIds_none_meets there inside
    (.inl ⟨spare, issued⟩)).refusing fun _ ↦ False.elim) fun L copied _ ⟨made, tight, _⟩ ↦
      .of_sound fun ledger later ↦ ?_
  have intact : copied.Intact entries.positionCount := fun id listed ↦ inside id (made.ids ▸ listed)
  have compacts : (copied.compact entries).Meets L now
      (fun _ out ↦ (dictionary keys entries).Retains loads (dictionary out.1 out.2))
      (fun _ ↦ (dictionary keys entries).Small loads →
        ¬ (dictionary keys entries).Fits loads (List.range' offset length)) := by
    rw [Keys.compact]
    refine .read_bind ?_
    rw [if_neg (Bool.eq_false_iff.1 flat)]
    refine (Keys.shrink_meets made.mem flat).mono (fun M out _ ⟨shrunk, _⟩ ↦
      shrunk.retains intact able tight ⟨keys, .refl, made.handle⟩) fun _ refused small fits ↦ ?_
    have small := later.small (later.entries_mem made.mem) small.of_loads.entries
    refine (refused small).2 fun _ _ ↦ (fits_iff_of_grows since loaded).2 ?_
    rw [made.ids, ← keys.picked_range']
    exact (fits_dictionary.1 fits).2 ((isNested_eq_of_grows since loaded).symm.trans flat)
  exact .bind compacts fun M out _ retains ↦ .pure retains

/-- Entries that are gathered are owned. -/
theorem copy_gather_retains (plain : entries.isNested now = true ∨ keys.toList.Nodup) :
    (entries.gather (stretch keys.toList offset length)).Meets K now
      (fun _ c ↦ (dictionary keys entries).Retains loads c)
      (fun _ ↦ ¬ (dictionary keys entries).Fits loads (List.range' offset length)) := by
  refine .of_sound fun ledger sound ↦ ?_
  have since := seen.trans sound.delivered.past
  have able := supportsGather_of_grows since (supportsGather_of_isLoaded loaded)
  have inside : ∀ id ∈ stretch keys.toList offset length, id < entries.positionCount :=
    fun id listed ↦ sound.formed _ mem id (mem_of_mem_stretch listed)
  refine (gather_owns (sound.entries_mem mem) _).mono (fun _ _ _ gathered ↦ gathered.2.retains)
    fun _ refused fits ↦ ?_
  have unable := refused.unable inside <| (fits_iff_of_grows since loaded).2 <| by
    rw [← keys.picked_range']
    exact (fits_dictionary.1 fits).1
      (plain.imp_left (isNested_eq_of_grows since loaded).symm.trans)
  simp [unable.2] at able

/-- Every way to copy keys keeps alive no more than the entries. -/
theorem copy_dictionary_retains
    (copies : ∀ offset length, RetainsRegion K loads entries offset length) :
    RetainsRegion K loads (dictionary keys entries) offset length := by
  refine copy_dictionary_ways mem (fun _ rejects _ inside ↦ absurd inside rejects.2)
    (fun fits first room ids ↦ ?_)
    (fun _ _ plain ↦ (copy_gather_retains mem seen loaded plain).refusing
      fun _ refused _ _ ↦ refused)
    fun _ _ flat ↦ (compactCopy_retains mem seen loaded flat).refusing
      fun _ refused small _ ↦ refused small
  exact (copies first length).mono (fun _ _ _ ↦ .of_part (.entries .refl))
    fun _ refused small _ ↦ mt (Fits.of_counting ids) (refused small.entries room)

end Keys

/-- **A copy of what is loaded throughout keeps nothing else alive** but entries that it takes as
they are, and regions of small blocks are copied, if what is gathered fits together. -/
theorem copy_retains {b : Block} (mem : b ∈ K) (seen : loads.payloads.Grows K.seen)
    (loaded : b.isLoaded loads = true) (offset length : Nat) :
    RetainsRegion K loads b offset length := by
  induction b using Block.walk generalizing K offset length with
  | step b ih =>
    refine .of_sound fun store sound ↦ ?_
    obtain ⟨face, shown, loaded⟩ := exists_face_of_isLoaded loaded
    obtain ⟨present, mirrors⟩ :=
      sound.face mem (face?_of_grows (seen.trans sound.delivered.past) shown)
    -- It is enough to copy what stands behind the lazy blocks in front.
    suffices copies : RetainsRegion K loads face.toBlock offset length by
      rw [copy_eq_bind]
      refine .reveal_bind seen shown (copies.mono (fun _ _ _ ↦ .of_part (.of_face shown .refl))
        fun _ refused small ↦ ?_)
      rw [← mirrors.count, ← fits_of_face shown]
      exact refused (small.face shown)
    have formed := sound.formed _ present
    have stored := sound.stored _ present
    rcases face with leaf | leaf | ⟨lists, elements, below⟩ | ⟨keys, entries, below⟩
    · exact copy_ints_retains formed
    · exact copy_slices_retains formed stored
    · rw [Face.toBlock, isLoaded_array] at loaded
      have there := sound.elements_mem present
      exact copy_array_retains formed stored there (ih elements below there seen loaded)
    · rw [Face.toBlock, isLoaded_dictionary] at loaded
      exact copy_dictionary_retains present seen loaded
        (ih entries below (sound.entries_mem present) seen loaded)

end Block

/-! ### In reachable worlds -/

/-- The arrays that the blocks held are laid out over. -/
def World.arrays (w : World) : Set Nat :=
  {n | ∃ b ∈ w.blocks, ∃ c, Block.Part w.store.loads c b ∧ n ∈ c.arrays}

/-- **What is gathered is owned.** A gather that answers shows the positions, and at every depth it
is laid out over arrays that no block held shares with it, and keeps nothing alive but its own
positions. Its entries, if it has keys, are no dictionary block, are all referred to, and are fewer
than the keys. -/
theorem Reachable.gather_owned {w : World} (reachable : Reachable w) {b : Block}
    (held : b ∈ w.blocks) {c : Block} (part : Block.Part w.store.loads c b) {positions : List Nat}
    {offset length : Nat} {gathered : Block} {ledger : Ledger}
    (run : (c.copyPositions positions offset length).outcome w.store.loads w.store.ledger =
      (.ok gathered, ledger)) :
    gathered.Shows c (stretch positions offset length) ∧
      gathered.Owned w.arrays w.store.loads := by
  obtain ⟨K, sound, known⟩ := reachable.sound
  have mem := sound.part_mem part (known b held)
  obtain ⟨-, _, _, _, ends⟩ :=
    Block.copyPositions_owns mem positions offset length w.store.ledger sound
  rw [run] at ends
  obtain ⟨made, owned⟩ := ends
  refine ⟨made.shows, owned.mono ?_⟩
  rintro n ⟨a, there, x, below, mem⟩
  exact (sound.stored x (sound.part_mem below (known a there))).issued n mem

namespace World

/-- Keys to the one entry that was gathered twice, and to the other. -/
def gatheredKeys : Keys := ⟨0, 3, .ofList 8 [0, 1, 0], ⟨.own, 1⟩, 7, 9, by decide⟩

/-- The entries that were gathered. -/
def gatheredEntries : Block := .ints (.ofOptions .long 5 6 [none, some 7])

/-- Three keys of the sample are gathered, and the entries with them. -/
theorem gather_owned_sample : ∃ c ledger,
    ((Block.dictionary sampleKeys sampleEntries).copyPositions [2, 1, 2] 0 3).outcome
        sample.store.loads sample.store.ledger = (.ok c, ledger) ∧
      c.Shows (.dictionary sampleKeys sampleEntries) [2, 1, 2] ∧
        c.Owned sample.arrays sample.store.loads := by
  have run : (((Block.dictionary sampleKeys sampleEntries).copyPositions [2, 1, 2] 0 3).outcome
      sample.store.loads sample.store.ledger).1 =
        .ok (.dictionary gatheredKeys gatheredEntries) := by
    cbv
  exact ⟨_, _, Prod.ext run rfl,
    reachable_sample.gather_owned List.mem_cons_self .refl (Prod.ext run rfl)⟩

end World

/-- **A copy of what is loaded throughout keeps nothing else alive** than the positions it shows, at
any depth, but what is behind entries that it takes as they are: those of a dictionary block that
was copied, of which the copy refers to every one. Good regions of small blocks are copied, if what
is gathered fits together. -/
theorem Reachable.copied_retains {w : World} (reachable : Reachable w) {b : Block}
    (held : b ∈ w.blocks) {c : Block} (part : Block.Part w.store.loads c b)
    (loaded : c.isLoaded w.store.loads = true) {offset length : Nat}
    (fits : offset + length ≤ c.positionCount) :
    (c.Small w.store.loads → c.Fits w.store.loads (.range' offset length) →
      ∃ d, ((c.copy offset length).outcome w.store).1 = .ok d) ∧
      ∀ d later, (c.copy offset length).outcome w.store = (.ok d, later) →
        d.Shows c (.range' offset length) ∧ c.Retains w.store.loads d := by
  obtain ⟨K, sound, known⟩ := reachable.sound
  have mem := Census.mem_of_le sound.le_note (sound.part_mem part (known b held))
  have copies := (Block.copy_meets mem offset length).and
    (Block.copy_retains mem (fun _ _ ↦ id) loaded offset length)
  obtain ⟨_, _, _, ends⟩ := copies w.store sound.note
  rcases run : (c.copy offset length).outcome w.store with ⟨fault | d, later⟩
  all_goals rw [run] at ends
  · exact ⟨fun small gathered ↦ absurd gathered (ends.2 small fits),
      fun _ _ copied ↦ by cases copied⟩
  · refine ⟨fun _ _ ↦ ⟨d, rfl⟩, ?_⟩
    rintro _ _ ⟨⟩
    exact ⟨ends.1.shows, ends.2⟩

namespace World

/-- A copy of two keys of the sample takes both entries. -/
theorem copied_retains_sample : ∃ c later,
    ((Block.dictionary sampleKeys sampleEntries).copy 1 2).outcome sample.store = (.ok c, later) ∧
      c.Shows (.dictionary sampleKeys sampleEntries) [1, 2] ∧
        (Block.dictionary sampleKeys sampleEntries).Retains sample.store.loads c := by
  have loaded : (Block.dictionary sampleKeys sampleEntries).isLoaded sample.store.loads = true := by
    simp [sampleEntries, Block.isLoaded, Block.face?]
  have small : (Block.dictionary sampleKeys sampleEntries).Small sample.store.loads :=
    Block.small_dictionary (by decide) small_sampleEntries
  obtain ⟨answers, retains⟩ := reachable_sample.copied_retains List.mem_cons_self .refl loaded
    (show 1 + 2 ≤ 3 by decide)
  obtain ⟨c, run⟩ := answers small (by simp [sampleEntries])
  exact ⟨c, _, Prod.ext run rfl, retains _ _ (Prod.ext run rfl)⟩

/-- The first two of three integers. -/
def prefixLeaf : Block := .ints ⟨.long, ⟨0, #[1, 2, 3], 0, 2, by decide⟩, ⟨none⟩⟩

/-- Keys to both of them. -/
def prefixKeys : Keys := ⟨0, 3, .ofList 3 [0, 1, 0], ⟨.own, 0⟩, 2, 4, by decide⟩

/-- A copy of the keys. -/
def copiedKeys : Keys := ⟨0, 3, .ofList 5 [0, 1, 0], ⟨.own, 1⟩, 2, 7, by decide⟩

/-- The world that holds the two integers, and the three. -/
def windowed : World :=
  (empty.after (.intsOfOptions .long [some 1, some 2, some 3])).after (.window deferredLeaf 0 2)

theorem blocks_windowed : windowed.blocks = [prefixLeaf, deferredLeaf] := by
  cbv

theorem reachable_windowed : Reachable windowed :=
  .after (.after .empty (by rintro _ ⟨⟩) trivial)
    (fun _ mem ↦ List.mem_singleton.1 mem ▸ List.mem_cons_self) trivial

/-- The world that holds the keys as well. -/
def trimmed : World :=
  windowed.after (.dictionary prefixLeaf [0, 1, 0] none)

theorem blocks_trimmed :
    trimmed.blocks = [.dictionary prefixKeys prefixLeaf, prefixLeaf, deferredLeaf] := by
  cbv

theorem reachable_trimmed : Reachable trimmed :=
  reachable_windowed.after (by simp [Call.operands, blocks_windowed]) trivial

/-- **A copy may keep an integer alive that is none of its own.** The keys refer to both entries, so
their copy takes them as they are, and they are the first two of three integers. -/
theorem not_tight_trimmed : Reachable trimmed ∧ .dictionary prefixKeys prefixLeaf ∈ trimmed.blocks ∧
    (Block.dictionary prefixKeys prefixLeaf).isLoaded trimmed.store.loads = true ∧
    ∃ c later, ((Block.dictionary prefixKeys prefixLeaf).copy 0 3).outcome trimmed.store =
        (.ok c, later) ∧
      ∃ x, Block.Part later.loads x c ∧ ¬ x.Tight := by
  have run : (((Block.dictionary prefixKeys prefixLeaf).copy 0 3).outcome trimmed.store).1 =
      .ok (.dictionary copiedKeys prefixLeaf) := by
    cbv
  refine ⟨reachable_trimmed, blocks_trimmed ▸ List.mem_cons_self, ?_, _, _, Prod.ext run rfl,
    prefixLeaf, .entries .refl, ?_⟩
  · simp [prefixLeaf, Block.isLoaded, Block.face?]
  · rintro ⟨whole, -⟩
    cases whole

end World

end BatchColumn
