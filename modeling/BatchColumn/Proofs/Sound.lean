import BatchColumn.Block.Inspect
import BatchColumn.Proofs.Deliveries
import BatchColumn.Proofs.Figures
import BatchColumn.Proofs.Sources

/-!
# Soundness

`Sound K loads ledger` is the one invariant of the development. It says that every block of the
census is well formed and stands over blocks of the census, that different blocks have different
identities, and that the store tells the truth about each of them: what is loaded is what was
promised, statistics are those of the keys, figures are right as long as nothing below is loaded
(`Figured`), a minted dictionary identity is that of one dictionary (`Sourced`), and loaders deliver
once (`Delivered`). The arrays of blocks were given out like their identities (`Block.Stored`), so
an array that is given out now is that of no block yet.

An identity that was never given out belongs to no block and has no entries, so a block that is made
under a fresh identity joins the census with little to prove but that it is well formed
(`Sound.add_fresh`).

The ways in which calls change a store are the preservation lemmas: an identity given out
(`Sound.fresh`, `Sound.mint`), a memory that starts with what another remembers
(`Sound.carryOver`), a figure published (`Sound.publish_stats`, `Sound.publish_size`,
`Sound.publish_logicalSize`), a loader called (`Sound.call`) and a content loaded
(`Sound.publish_content`).
-/

namespace BatchColumn

/-- What can be gathered can be gathered when more is loaded. -/
theorem Block.supportsGather_of_grows {loads later : Loads}
    (grows : loads.payloads.Grows later.payloads) {b : Block}
    (able : b.supportsGather loads = true) : b.supportsGather later = true := by
  induction b using Block.walk with
  | step b ih =>
    rw [supportsGather] at able ⊢
    rcases shown : b.face? loads with - | face
    · rw [shown] at able
      cases able
    · rw [shown] at able
      rw [face?_of_grows grows shown]
      rcases face with leaf | leaf | ⟨lists, elements, below⟩ | ⟨keys, entries, below⟩
      · rfl
      · rfl
      · exact ih elements below able
      · exact ih entries below able

/-- **The store tells the truth about the blocks that exist.** -/
structure Sound (K : Census) (loads : Loads) (ledger : Ledger) : Prop where
  /-- What a block is made of exists. -/
  parts : ∀ b ∈ K, ∀ c ∈ b.parts, c ∈ K
  /-- Every layer fits the block below. -/
  formed : ∀ b ∈ K, b.Formed
  /-- Blocks with one identity are one block. -/
  distinct : ∀ b ∈ K, ∀ c ∈ K, ∀ n, b.identity? = some n → c.identity? = some n → b = c
  /-- The identities of blocks were given out. -/
  spent : ∀ b ∈ K, ∀ n, b.identity? = some n → n < ledger.next
  /-- Nothing is kept under an identity that was not given out. -/
  blank : ∀ n, ledger.next ≤ n → ledger.memo n = .blank ∧ loads.payloads.get? n = none
  /-- Arrays that are known to be given out were. -/
  issued : ∀ n ∈ K.issued, n < ledger.next
  /-- The arrays of blocks are known to be given out. -/
  stored : ∀ b ∈ K, b.Stored K.issued
  /-- Remembered statistics are those of the keys. -/
  truthful : ∀ keys entries, Block.dictionary keys entries ∈ K →
    ∀ stats, ledger.stats.get? keys.memory = some stats → keys.Noted K.selects loads entries stats
  /-- What is loaded exists and is what was promised. -/
  loaded : ∀ promise payload, Block.lazy promise payload ∈ K →
    ∀ content, loads.payloads.get? promise.cell = some content →
      content ∈ K ∧ content.Mirrors (.lazy promise payload)
  /-- What is loaded is cut from the payload. -/
  cut : ∀ promise payload, Block.lazy promise payload ∈ K →
    ∀ content, loads.payloads.get? promise.cell = some content → content.CutFrom payload
  /-- Statistics that are known to be remembered are. -/
  remembered : ∀ n ∈ K.known, (ledger.stats.get? n).isSome
  /-- Blocks that are known to be gatherable are. -/
  able : ∀ b ∈ K.able, b.supportsGather loads = true
  /-- A minted dictionary identity is that of one dictionary. -/
  sourced : Sourced K ledger
  /-- Figures are right as long as nothing below is loaded. -/
  figured : Figured K loads ledger
  /-- Loaders deliver once. -/
  delivered : Delivered K loads ledger

namespace Sound

variable {K : Census} {loads : Loads} {ledger : Ledger} (sound : Sound K loads ledger)

/-- An empty store has nothing to be wrong about. -/
protected theorem empty (given : Set SourceId) (selects : Prop) :
    Sound (.empty given selects) .empty .empty where
  parts _ mem := mem.elim
  formed _ mem := mem.elim
  distinct _ mem := mem.elim
  spent _ mem := mem.elim
  blank _ _ := ⟨rfl, rfl⟩
  issued _ mem := mem.elim
  stored _ mem := mem.elim
  truthful _ _ mem := mem.elim
  loaded _ _ mem := mem.elim
  cut _ _ mem := mem.elim
  remembered _ mem := mem.elim
  able _ mem := mem.elim
  sourced := .empty given selects
  figured := .empty given selects
  delivered := .empty given selects

include sound

/-! #### What blocks are made of -/

theorem elements_mem {lists : Lists} {elements : Block} (mem : .array lists elements ∈ K) :
    elements ∈ K := sound.parts _ mem _ (List.mem_singleton_self _)

theorem entries_mem {keys : Keys} {entries : Block} (mem : .dictionary keys entries ∈ K) :
    entries ∈ K := sound.parts _ mem _ (List.mem_singleton_self _)

/-- The promise that a window was taken of exists. -/
theorem source_mem {root : Root} {window : Window} {windows : List Window} {payload : Block}
    (mem : .lazy ⟨root, window :: windows⟩ payload ∈ K) : .lazy ⟨root, windows⟩ payload ∈ K :=
  sound.parts _ mem _ (List.mem_singleton_self _)

theorem payload_mem {root : Root} {windows : List Window} {payload : Block}
    (mem : .lazy ⟨root, windows⟩ payload ∈ K) : payload ∈ K := by
  induction windows with
  | nil => exact sound.parts _ mem _ (List.mem_singleton_self _)
  | cons window windows ih => exact ih (sound.source_mem mem)

/-- The array of the ids of a dictionary block was given out. -/
theorem ids_issued {keys : Keys} {entries : Block} (mem : .dictionary keys entries ∈ K) :
    keys.ids.storage ∈ K.issued :=
  (sound.stored _ mem).issued _ (List.mem_singleton_self _)

/-- The handle of a dictionary block was given out, if handles are tracked. -/
theorem handle_lt (tracked : K.tracks) {keys : Keys} {entries : Block}
    (mem : .dictionary keys entries ∈ K) : keys.handle < ledger.next :=
  sound.issued _ (sound.sourced.handles tracked keys entries mem)

/-- The next identity is that of no array. -/
theorem next_not_mem_issued : ledger.next ∉ K.issued :=
  fun mem ↦ Nat.lt_irrefl _ (sound.issued _ mem)

/-- The next three identities are those of no arrays. -/
theorem storages_not_mem_issued : ∀ n ∈ Slices.Storages.arrays
    ⟨ledger.next, ledger.next + 1, ledger.next + 2⟩, n ∉ K.issued := by
  intro n mem old
  have spent := sound.issued n old
  simp only [Slices.Storages.arrays, List.mem_cons, List.not_mem_nil, or_false] at mem
  omega

/-- What a lazy block has loaded exists and mirrors it. -/
theorem content {promise : Promise} {payload : Block} (mem : .lazy promise payload ∈ K)
    {content : Within payload.depth}
    (found : loads.content? promise.cell payload.depth = some content) :
    content.1 ∈ K ∧ content.1.Mirrors (.lazy promise payload) ∧ content.1.CutFrom payload := by
  have held := Loads.get?_of_content? found
  obtain ⟨there, mirrors⟩ := sound.loaded _ _ mem _ held
  exact ⟨there, mirrors, sound.cut _ _ mem _ held⟩

/-- What a block of the census is made of at any depth is in the census. -/
theorem part_mem {b c : Block} (part : Block.Part loads c b) (mem : b ∈ K) : c ∈ K := by
  induction part with
  | refl => exact mem
  | elements _ ih => exact ih (sound.elements_mem mem)
  | entries _ ih => exact ih (sound.entries_mem mem)
  | payload _ ih => exact ih (sound.payload_mem mem)
  | content held _ ih => exact ih (sound.content mem held).1

/-! #### Blocks join the census -/

/-- A block joins the census if it is well formed over blocks of the census, its arrays were given
out, its dictionary identity is admitted, and what the store says under its identity, which is no
other's, is true of it. -/
theorem add {b : Block} (parts : ∀ c ∈ b.parts, c ∈ K) (formed : b.Formed)
    (stored : b.Stored K.issued)
    (new : ∀ n, b.identity? = some n → n < ledger.next ∧ ∀ c ∈ K, c.identity? ≠ some n)
    (admitted : K.Admits b)
    (truthful : ∀ keys entries, b = .dictionary keys entries →
      ∀ stats, ledger.stats.get? keys.memory = some stats →
        keys.Noted K.selects loads entries stats)
    (right : b.Unmoved .empty loads → ∀ n, b.identity? = some n →
      (ledger.memo n).Right .empty b)
    (blank : ∀ promise payload, b = .lazy promise payload →
      loads.payloads.get? promise.cell = none ∧ loads.callCount promise.cell = 0) :
    Sound (K.add b) loads ledger where
  parts := by
    rintro c (rfl | mem) d part
    · exact .inr (parts d part)
    · exact .inr (sound.parts c mem d part)
  formed := by
    rintro c (rfl | mem)
    · exact formed
    · exact sound.formed c mem
  distinct := by
    rintro c (rfl | mem) d (rfl | other) n own same
    · rfl
    · exact absurd same ((new n own).2 d other)
    · exact absurd own ((new n same).2 c mem)
    · exact sound.distinct c mem d other n own same
  spent := by
    rintro c (rfl | mem) n own
    · exact (new n own).1
    · exact sound.spent c mem n own
  blank := sound.blank
  issued := sound.issued
  stored := by
    rintro c (rfl | mem)
    · exact stored
    · exact sound.stored c mem
  truthful := by
    rintro keys entries (same | mem) stats found
    · exact truthful keys entries same.symm stats found
    · exact sound.truthful keys entries mem stats found
  loaded := by
    rintro promise payload (same | mem) content found
    · cases (blank promise payload same.symm).1.symm.trans found
    · obtain ⟨there, mirrors⟩ := sound.loaded promise payload mem content found
      exact ⟨.inr there, mirrors⟩
  cut := by
    rintro promise payload (same | mem) content found
    · cases (blank promise payload same.symm).1.symm.trans found
    · exact sound.cut promise payload mem content found
  remembered := sound.remembered
  able := sound.able
  sourced := sound.sourced.add admitted
  figured := sound.figured.add fun n own since ⟨seen, unmoved⟩ ↦ by
    -- A block that is new is not found in a block that was watched before.
    rcases seen with rfl | ⟨r, root, part⟩
    · exact right unmoved n own
    · have there := sound.part_mem (part.of_grows (sound.figured.past since r root))
        (sound.figured.rooted since r root)
      exact absurd own ((new n own).2 b there)
  delivered := sound.delivered.add blank

/-- A leaf has no identity. -/
theorem add_leaf {b : Block} (anonymous : b.identity? = none) (alone : b.parts = [])
    (formed : b.Formed) (stored : b.Stored K.issued) : Sound (K.add b) loads ledger := by
  have nameless : ∀ n, b.identity? ≠ some n := fun n own ↦ by
    rw [anonymous] at own
    cases own
  refine sound.add (by simp [alone]) formed stored (fun n own ↦ absurd own (nameless n)) ?_ ?_
    (fun _ n own ↦ absurd own (nameless n)) ?_
  · rcases b with leaf | leaf | ⟨lists, elements⟩ | ⟨keys, entries⟩ | ⟨promise, payload⟩
    case dictionary => exact absurd rfl (nameless keys.memory)
    all_goals trivial
  · rintro keys entries rfl
    cases anonymous
  · rintro promise payload rfl
    cases anonymous

/-! #### Identities are given out -/

/-- An identity given out changes nothing. -/
theorem fresh : Sound K loads { ledger with next := ledger.next + 1 } :=
  { sound with
    spent := fun b mem n own ↦ Nat.lt_succ_of_lt (sound.spent b mem n own)
    blank := fun n beyond ↦ sound.blank n (Nat.le_of_succ_le beyond)
    issued := fun n mem ↦ Nat.lt_succ_of_lt (sound.issued n mem)
    sourced := sound.sourced.mono (Nat.le_refl _)
    figured := sound.figured.of_memo fun _ _ _ _ ↦ rfl
    delivered := sound.delivered.mono (Nat.le_succ _) }

/-- An identity that was given out may be known to be that of an array. -/
theorem issue_of_lt {storage : Nat} (spent : storage < ledger.next) :
    Sound (K.issue storage) loads ledger :=
  have sourced : Sourced (K.issue storage) ledger :=
    sound.sourced.of_census rfl rfl rfl (Set.subset_insert _ _) id
  { sound with
    issued := by
      rintro n (rfl | mem)
      · exact spent
      · exact sound.issued n mem
    stored := fun b mem ↦ (sound.stored b mem).mono (Set.subset_insert _ _)
    sourced := sourced
    figured := sound.figured.of_census rfl rfl
    delivered := sound.delivered.of_census rfl rfl }

/-- An identity given out may be that of an array, and then it is known to be. -/
theorem issue : Sound (K.issue ledger.next) loads { ledger with next := ledger.next + 1 } :=
  sound.fresh.issue_of_lt (Nat.lt_succ_self _)

/-- The identities of the arrays of a leaf are given out. -/
theorem issueAll : Sound (K.issueAll ⟨ledger.next, ledger.next + 1, ledger.next + 2⟩) loads
    { ledger with next := ledger.next + 3 } :=
  sound.issue.issue.issue

/-- A dictionary identity that is minted changes nothing, and is spare. -/
theorem mint : Sound (K.raise (ledger.minted + 1)) loads
    { ledger with minted := ledger.minted + 1 } :=
  have figured : Figured K loads { ledger with minted := ledger.minted + 1 } :=
    sound.figured.of_memo fun _ _ _ _ ↦ rfl
  have delivered : Delivered K loads { ledger with minted := ledger.minted + 1 } :=
    sound.delivered.mono (Nat.le_refl _)
  { sound with
    sourced := (sound.sourced.mono (Nat.le_succ _)).raise (Nat.le_refl _)
    figured := figured.of_census rfl rfl
    delivered := delivered.of_census rfl rfl }

/-- **A block made under a fresh identity joins the census.** -/
theorem add_fresh {b : Block} (own : b.identity? = some ledger.next)
    (parts : ∀ c ∈ b.parts, c ∈ K) (formed : b.Formed) (stored : b.Stored K.issued)
    (admitted : K.Admits b) :
    Sound (K.add b) loads { ledger with next := ledger.next + 1 } := by
  -- The next identity belongs to no block yet, and nothing is written under it.
  obtain ⟨unknown, unloaded⟩ := sound.blank ledger.next (Nat.le_refl _)
  refine sound.fresh.add parts formed stored (fun n same ↦ ?_) admitted ?_ (fun _ n same ↦ ?_) ?_
  · obtain rfl : ledger.next = n := Option.some.inj (own.symm.trans same)
    exact ⟨Nat.lt_succ_self _, fun c mem old ↦ Nat.lt_irrefl _ (sound.spent c mem _ old)⟩
  · rintro keys entries rfl stats found
    rw [Option.some.inj own, Ledger.blank_stats unknown] at found
    cases found
  · obtain rfl : ledger.next = n := Option.some.inj (own.symm.trans same)
    exact unknown ▸ Memo.right_blank .empty b
  · rintro promise payload rfl
    rw [Option.some.inj own]
    exact ⟨unloaded, sound.delivered.uncalled _ (Nat.le_refl _)⟩

/-- Taking over what a memory remembers changes nothing. -/
theorem carryOver (memory : Nat) : Sound K loads (ledger.carried memory) := by
  have unknown := (sound.blank ledger.next (Nat.le_refl _)).1
  have untouched : ∀ n, n ≠ ledger.next → (ledger.carried memory).memo n = ledger.memo n :=
    fun n old ↦ by rw [Ledger.memo_carried unknown, if_neg old]
  have old : ∀ b ∈ K, ∀ n, b.identity? = some n → n ≠ ledger.next :=
    fun b mem n own ↦ Nat.ne_of_lt (sound.spent b mem n own)
  refine { sound with
    spent := fun b mem n own ↦ Nat.lt_succ_of_lt (sound.spent b mem n own)
    blank := fun n beyond ↦ ?_
    issued := fun n mem ↦ Nat.lt_succ_of_lt (sound.issued n mem)
    truthful := fun keys entries mem stats found ↦ ?_
    remembered := fun n mem ↦ ?_
    sourced := sound.sourced.mono (Nat.le_refl _)
    figured := sound.figured.of_memo fun b mem n own ↦ untouched n (old b mem n own)
    delivered := sound.delivered.mono (Nat.le_succ _) }
  · obtain ⟨missing, unloaded⟩ := sound.blank n (Nat.le_of_succ_le beyond)
    exact ⟨(untouched n (Nat.ne_of_gt beyond)).trans missing, unloaded⟩
  · have same := congrArg Memo.stats? (untouched keys.memory (old _ mem _ rfl))
    exact sound.truthful keys entries mem stats (same.symm.trans found)
  · obtain ⟨stats, found⟩ := Option.isSome_iff_exists.1 (sound.remembered n mem)
    rw [Ledger.carried, Slots.grows_copy _ _ _ n stats found]
    rfl

/-- **A block made under a memory that takes over what another remembers joins the census**, if what
is taken over is true of it. -/
theorem add_carried {b : Block} {memory : Nat} (own : b.identity? = some ledger.next)
    (parts : ∀ c ∈ b.parts, c ∈ K) (formed : b.Formed) (stored : b.Stored K.issued)
    (admitted : K.Admits b)
    (truthful : ∀ keys entries, b = .dictionary keys entries →
      ∀ stats, ledger.stats.get? memory = some stats → keys.Noted K.selects loads entries stats)
    (right : b.Unmoved .empty loads → (ledger.memo memory).Right .empty b) :
    Sound (K.add b) loads (ledger.carried memory) := by
  obtain ⟨unknown, unloaded⟩ := sound.blank ledger.next (Nat.le_refl _)
  have carried : (ledger.carried memory).memo ledger.next = ledger.memo memory := by
    rw [Ledger.memo_carried unknown, if_pos rfl]
  refine (sound.carryOver memory).add parts formed stored (fun n same ↦ ?_) admitted ?_
    (fun unmoved n same ↦ ?_) ?_
  · obtain rfl : ledger.next = n := Option.some.inj (own.symm.trans same)
    exact ⟨Nat.lt_succ_self _, fun c mem old ↦ Nat.lt_irrefl _ (sound.spent c mem _ old)⟩
  · rintro keys entries rfl stats found
    rw [Option.some.inj own] at found
    exact truthful keys entries rfl stats ((congrArg Memo.stats? carried).symm.trans found)
  · obtain rfl : ledger.next = n := Option.some.inj (own.symm.trans same)
    exact carried ▸ right unmoved
  · rintro promise payload rfl
    rw [Option.some.inj own]
    exact ⟨unloaded, sound.delivered.uncalled _ (Nat.le_refl _)⟩

/-! #### Figures are published, contents are loaded -/

/-- Nothing is kept under the identities that were not given out, if one that was is written
under. -/
theorem blank_of_publish {after : Ledger} {b : Block} {memory : Nat} (mem : b ∈ K)
    (own : b.identity? = some memory) (next : after.next = ledger.next)
    (other : ∀ n, n ≠ memory → after.memo n = ledger.memo n) (n : Nat) (beyond : after.next ≤ n) :
    after.memo n = .blank ∧ loads.payloads.get? n = none := by
  have spent := sound.spent b mem memory own
  obtain ⟨missing, unloaded⟩ := sound.blank n (next ▸ beyond)
  exact ⟨(other n (by omega)).trans missing, unloaded⟩

/-- A size published under the memory of an array block must be that of the block. -/
theorem publish_size {lists : Lists} {elements : Block} (mem : .array lists elements ∈ K)
    {size : Nat} (right : K.ConfirmsSize loads (.array lists elements) .all size) :
    Sound K loads { ledger with sizes := ledger.sizes.publish lists.memory size } := by
  have other : ∀ n, n ≠ lists.memory →
      ({ ledger with sizes := ledger.sizes.publish lists.memory size } : Ledger).memo n =
        ledger.memo n := fun n old ↦ by
    rw [Ledger.memo, Slots.get?_publish, if_neg old]
    rfl
  refine { sound with
    blank := sound.blank_of_publish mem rfl rfl other
    sourced := sound.sourced.mono (Nat.le_refl _)
    delivered := sound.delivered.mono (Nat.le_refl _)
    figured := sound.figured.publish (fun c there same ↦ sound.distinct c there _ mem _ same rfl)
      other fun since follows published found ↦ ?_ }
  -- If a size was remembered before, it stays, and was right.
  change (ledger.sizes.publish lists.memory size).get? lists.memory = some published at found
  rw [Slots.get?_publish, if_pos rfl] at found
  rcases before : ledger.sizes.get? lists.memory with - | known
  · rw [before] at found
    exact Option.some.inj found ▸ right since follows
  · rw [before] at found
    exact sound.figured.right _ mem _ rfl since follows published (before.trans found)

/-- A logical size published under the memory of a dictionary block must be that of the block. -/
theorem publish_logicalSize {keys : Keys} {entries : Block} (mem : .dictionary keys entries ∈ K)
    {size : Nat} (right : K.ConfirmsLogicalSize loads (.dictionary keys entries) size) :
    Sound K loads
      { ledger with logicalSizes := ledger.logicalSizes.publish keys.memory size } := by
  have other : ∀ n, n ≠ keys.memory →
      ({ ledger with logicalSizes := ledger.logicalSizes.publish keys.memory size } :
        Ledger).memo n = ledger.memo n := fun n old ↦ by
    rw [Ledger.memo, Slots.get?_publish, if_neg old]
    rfl
  refine { sound with
    blank := sound.blank_of_publish mem rfl rfl other
    sourced := sound.sourced.mono (Nat.le_refl _)
    delivered := sound.delivered.mono (Nat.le_refl _)
    figured := sound.figured.publish (fun c there same ↦ sound.distinct c there _ mem _ same rfl)
      other fun since follows ↦ ⟨(sound.figured.right _ mem _ rfl since follows).1,
        fun published found ↦ ?_⟩ }
  change (ledger.logicalSizes.publish keys.memory size).get? keys.memory = some published at found
  rw [Slots.get?_publish, if_pos rfl] at found
  rcases before : ledger.logicalSizes.get? keys.memory with - | known
  · rw [before] at found
    exact Option.some.inj found ▸ right since follows
  · rw [before] at found
    exact (sound.figured.right _ mem _ rfl since follows).2 published (before.trans found)

/-- Statistics published under the memory of a dictionary block must be those of its keys, and the
size in them that of the block. -/
theorem publish_stats {keys : Keys} {entries : Block} (mem : .dictionary keys entries ∈ K)
    {stats : Stats} (told : keys.Exact K loads entries stats) :
    Sound (K.learn keys.memory) loads
      { ledger with stats := ledger.stats.publish keys.memory stats } := by
  have other : ∀ n, n ≠ keys.memory →
      ({ ledger with stats := ledger.stats.publish keys.memory stats } : Ledger).memo n =
        ledger.memo n := fun n old ↦ by
    rw [Ledger.memo, Slots.get?_publish, if_neg old]
    rfl
  -- What stands under the memory afterwards stood there before, or is what is published.
  have either : ∀ published,
      (ledger.stats.publish keys.memory stats).get? keys.memory = some published →
        ledger.stats.get? keys.memory = some published ∨ published = stats := by
    intro published found
    rw [Slots.get?_publish, if_pos rfl] at found
    rcases before : ledger.stats.get? keys.memory with - | known
    · rw [before] at found
      exact .inr (Option.some.inj found).symm
    · rw [before] at found
      exact .inl found
  have sourced : Sourced K { ledger with stats := ledger.stats.publish keys.memory stats } :=
    sound.sourced.mono (Nat.le_refl _)
  have delivered : Delivered K loads
      { ledger with stats := ledger.stats.publish keys.memory stats } :=
    sound.delivered.mono (Nat.le_refl _)
  refine { sound with
    blank := sound.blank_of_publish mem rfl rfl other
    sourced := sourced.of_census rfl rfl rfl subset_rfl id
    delivered := delivered.of_census rfl rfl
    truthful := fun others below there known found ↦ ?_
    remembered := ?_
    figured := (sound.figured.publish
      (fun c there same ↦ sound.distinct c there _ mem _ same rfl) other fun since follows ↦
        ⟨fun published found ↦ ?_, (sound.figured.right _ mem _ rfl since follows).2⟩).of_census
          rfl rfl }
  · by_cases same : others.memory = keys.memory
    · -- One memory is that of one block, so these are the keys that the statistics are true of.
      obtain ⟨rfl, rfl⟩ : others = keys ∧ below = entries := by
        simpa using sound.distinct _ there _ mem others.memory rfl (congrArg some same.symm)
      rcases either known found with before | rfl
      · exact sound.truthful others below mem known before
      · exact told.toNoted
    · have before := congrArg Memo.stats? (other others.memory same)
      exact sound.truthful others below there known (before.symm.trans found)
  · rintro n (rfl | mem)
    · simp [Slots.get?_publish]
    · obtain ⟨known, found⟩ := Option.isSome_iff_exists.1 (sound.remembered n mem)
      rw [Slots.grows_publish _ _ _ n known found]
      rfl
  · rcases either published found with before | rfl
    · exact (sound.figured.right _ mem _ rfl since follows).1 published before
    · exact told.size since follows

/-- The identities that were minted may be known to be. -/
theorem raise : Sound (K.raise ledger.minted) loads ledger :=
  { sound with
    sourced := sound.sourced.raise (Nat.le_refl _)
    figured := sound.figured.of_census rfl rfl
    delivered := sound.delivered.of_census rfl rfl }

/-- Blocks that can be gathered may be known to be. -/
theorem recognise {blocks : Set Block} (able : ∀ b ∈ blocks, b.supportsGather loads = true) :
    Sound (K.recognise blocks) loads ledger :=
  have sourced : Sourced (K.recognise blocks) ledger :=
    sound.sourced.of_census rfl rfl rfl subset_rfl id
  { sound with
    able := fun b mem ↦ mem.elim (sound.able b) (able b)
    sourced := sourced
    figured := sound.figured.of_census rfl rfl
    delivered := sound.delivered.of_census rfl rfl }

/-- What is sound where no selections are made is so where they may be. -/
theorem selecting : Sound K.selecting loads ledger :=
  have sourced : Sourced K.selecting ledger := sound.sourced.of_census rfl rfl rfl subset_rfl id
  { sound with
    truthful := fun keys entries mem stats found ↦
      have told := sound.truthful keys entries mem stats found
      { told with
        noted := fun grow ↦
          (told.noted grow).imp_right (Or.imp_right (And.imp_left fun _ ↦ trivial)) }
    sourced := sourced
    figured := sound.figured.of_census rfl rfl
    delivered := sound.delivered.of_census rfl rfl }

/-- What is sound where handles are tracked is so where they are not. -/
theorem untracked : Sound K.untracked loads ledger :=
  have sourced : Sourced K.untracked ledger :=
    sound.sourced.of_census rfl rfl rfl subset_rfl False.elim
  { sound with
    sourced := sourced
    figured := sound.figured.of_census rfl rfl
    delivered := sound.delivered.of_census rfl rfl }

/-- What is loaded may be seen to be. -/
theorem note : Sound (K.note loads) loads ledger :=
  have sourced : Sourced (K.note loads) ledger := sound.sourced.of_census rfl rfl rfl subset_rfl id
  { sound with
    sourced := sourced
    figured := sound.figured.of_census rfl rfl
    delivered := sound.delivered.note }

/-- A later census sees what is loaded now. -/
theorem le_note : K ≤ K.note loads :=
  Census.le_note sound.delivered.past

/-- A block may be watched from now on if all figures remembered of it are right. -/
theorem watch {b : Block} (mem : b ∈ K) (right : ∀ c, Block.Part loads c b → ∀ n,
    c.identity? = some n → (ledger.memo n).Right loads c) : Sound (K.watch loads b) loads ledger :=
  have sourced : Sourced (K.watch loads b) ledger :=
    sound.sourced.of_census rfl rfl rfl subset_rfl id
  { sound with
    sourced := sourced
    figured := sound.figured.watch mem right
    delivered := sound.delivered.of_census rfl rfl }

/-- Remembered statistics are exact. -/
theorem exact_stats {keys : Keys} {entries : Block} (mem : .dictionary keys entries ∈ K)
    {stats : Stats} (found : ledger.stats.get? keys.memory = some stats) :
    keys.Exact K loads entries stats where
  toNoted := sound.truthful keys entries mem stats found
  size since follows := (sound.figured.right _ mem _ rfl since follows).1 stats found

/-- Loaders may be called as long as they deliver once. -/
theorem call {cell : Nat} (delivered : Delivered K (loads.call cell) ledger) :
    Sound K (loads.call cell) ledger :=
  have same : loads.payloads.Grows (loads.call cell).payloads := fun _ _ ↦ id
  { sound with
    truthful := fun keys entries mem stats found ↦
      (sound.truthful keys entries mem stats found).of_grows same
    able := fun b mem ↦ Block.supportsGather_of_grows same (sound.able b mem)
    figured := sound.figured.of_loads same
    delivered := delivered }

/-- What is put into the cell of a lazy block must be what it promises. Its loader may have been
called before. -/
theorem publish_content {promise : Promise} {payload content : Block}
    (mem : .lazy promise payload ∈ K) (there : content ∈ K)
    (mirrors : content.Mirrors (.lazy promise payload)) (cut : content.CutFrom payload)
    {calls : List Nat}
    (delivered : Delivered K ⟨loads.payloads.publish promise.cell content, calls⟩ ledger) :
    Sound K ⟨loads.payloads.publish promise.cell content, calls⟩ ledger := by
  let later : Loads := ⟨loads.payloads.publish promise.cell content, calls⟩
  have more : loads.payloads.Grows later.payloads := loads.payloads.grows_publish _ _
  -- What a lazy block has loaded afterwards it had loaded before, or it is the content.
  have either : ∀ other payload', Block.lazy other payload' ∈ K →
      ∀ held, later.payloads.get? other.cell = some held →
        loads.payloads.get? other.cell = some held ∨
          other = promise ∧ payload' = payload ∧ held = content := by
    intro other others present held found
    rw [Slots.get?_publish] at found
    split at found
    next same =>
      obtain ⟨rfl, rfl⟩ : other = promise ∧ others = payload := by
        simpa using sound.distinct _ present _ mem other.cell rfl (congrArg some same.symm)
      rcases before : loads.payloads.get? other.cell with - | known
      · rw [before] at found
        exact .inr ⟨rfl, rfl, (Option.some.inj found).symm⟩
      · rw [before] at found
        exact .inl found
    next => exact .inl found
  refine { sound with
    blank := fun n beyond ↦ ?_
    truthful := fun keys entries mem stats found ↦
      (sound.truthful keys entries mem stats found).of_grows more
    loaded := fun other others present held found ↦ ?_
    cut := fun other others present held found ↦ ?_
    able := fun b mem ↦ Block.supportsGather_of_grows more (sound.able b mem)
    figured := sound.figured.of_loads more
    delivered := delivered }
  · obtain ⟨missing, unloaded⟩ := sound.blank n beyond
    have old : n ≠ promise.cell :=
      Nat.ne_of_gt (Nat.lt_of_lt_of_le (sound.spent _ mem _ rfl) beyond)
    exact ⟨missing, by rw [Slots.get?_publish, if_neg old, unloaded]⟩
  · rcases either other others present held found with before | ⟨rfl, rfl, rfl⟩
    · exact sound.loaded other others present held before
    · exact ⟨there, mirrors⟩
  · rcases either other others present held found with before | ⟨rfl, rfl, rfl⟩
    · exact sound.cut other others present held before
    · exact cut

end Sound

end BatchColumn
