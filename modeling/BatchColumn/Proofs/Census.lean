import BatchColumn.Proofs.Arrays
import BatchColumn.Proofs.Layers
import BatchColumn.Proofs.Parts

/-!
# The census of blocks

What a store says of a block is only worth something if the store and the block fit together: the
content of a cell must be what the lazy blocks with that cell promise, the statistics under a memory
must be those of the dictionary block with that memory. A store does not know the blocks that refer
to it, so we keep a `Census` of them beside it, which only grows and is never computed.

Beside the blocks, a census holds whatever a proof about a run wants to remember: memories that are
known to hold statistics, blocks that are known to be gatherable, what was seen to be loaded, how
many dictionary identities are known to be minted, which arrays and handles were given out. None of
it can be lost (`Census.Le`). The blocks that are watched, each since some loads, the identities
that callers may give to dictionaries, whether they may select and whether handles are tracked are
fixed for a whole run.

The other half of this module says how the ledger grows: identities are used up, tables are added
to, and nothing that was written is missing (`Ledger.Grows`). What a ledger remembers of one block
is the `Memo` under its memory.
-/

namespace BatchColumn

/-! ### One layer at a time -/

namespace Block

/-- The blocks that a block is made of, one layer down. A window of a promise is made of the
promise. -/
def parts : Block → List Block
  | ints _ | slices _ => []
  | array _ elements => [elements]
  | dictionary _ entries => [entries]
  | lazy ⟨_, []⟩ payload => [payload]
  | lazy ⟨root, _ :: windows⟩ payload => [lazy ⟨root, windows⟩ payload]

/-- The identity under which the store keeps what it knows of a block. -/
def identity? : Block → Option Nat
  | ints _ | slices _ => none
  | array lists _ => some lists.memory
  | dictionary keys _ => some keys.memory
  | lazy promise _ => some promise.cell

/-- The layer fits the block below: its arrays agree, its lists lie within the elements, its keys
are positions of entries, its window lies within the promise it was taken of. -/
def Formed : Block → Prop
  | ints leaf => leaf.Intact
  | slices leaf => leaf.Intact
  | array lists elements => lists.Intact elements.positionCount
  | dictionary keys entries => keys.Intact entries.positionCount
  | lazy ⟨_, []⟩ _ => True
  | lazy ⟨root, window :: windows⟩ _ =>
    window.offset + window.length ≤ Promise.count ⟨root, windows⟩

end Block

/-- Statistics that are those of the keys. -/
structure Keys.Truthful (keys : Keys) (stats : Stats) : Prop where
  /-- The number of distinct ids is right. -/
  unique : stats.unique = keys.toList.eraseDups.length
  /-- The ids grow if they are said to. -/
  sequential : stats.sequential = true → increasing keys.toList = true

/-- Statistics that are those of the keys, and that miss ids that grow only in a selection of all
entries, where selections may be made. -/
structure Keys.Noted (selects : Prop) (loads : Loads) (keys : Keys) (entries : Block)
    (stats : Stats) : Prop extends keys.Truthful stats where
  /-- Ids that grow are said to, unless the entries are a dictionary block or the keys, which may
  have been selected, refer to all of them. -/
  noted : increasing keys.toList = true → stats.sequential = true ∨ entries.isNested loads = true ∨
    selects ∧ stats.unique = entries.positionCount

/-! ### Later stores -/

/-- Nothing that was written is missing. -/
def Slots.Grows {α : Type} (before after : Slots α) : Prop :=
  ∀ key a, before.get? key = some a → after.get? key = some a

theorem Slots.Grows.trans {α : Type} {a b c : Slots α} (first : a.Grows b) (second : b.Grows c) :
    a.Grows c :=
  fun key value held ↦ second key value (first key value held)

namespace Slots

variable {α : Type} (slots : Slots α)

theorem get?_publish_of_none {slots : Slots α} {key : Nat} (blank : slots.get? key = none)
    (k : Nat) (a : α) :
    (slots.publish key a).get? k = if k = key then some a else slots.get? k := by
  rw [get?_publish, blank, Option.getD_none]

theorem grows_publish (key : Nat) (a : α) : slots.Grows (slots.publish key a) := by
  intro k b found
  rw [get?_publish]
  split
  next same => rw [← same, found, Option.getD_some]
  next => exact found

theorem grows_copy (source target : Nat) : slots.Grows (slots.copy source target) := by
  rw [copy]
  split
  · exact slots.grows_publish _ _
  · exact fun _ _ found ↦ found

/-- A blank key takes over what stands under another. -/
theorem get?_copy {slots : Slots α} {target : Nat} (blank : slots.get? target = none)
    (source k : Nat) : (slots.copy source target).get? k =
      if k = target then slots.get? source else slots.get? k := by
  rw [copy]
  split
  next a found => rw [get?_publish_of_none blank, found]
  next missing =>
    split
    next same => rw [same, blank, missing]
    next => rfl

end Slots

theorem Loads.get?_of_content? {loads : Loads} {cell bound : Nat} {content : Within bound}
    (held : loads.content? cell bound = some content) :
    loads.payloads.get? cell = some content.1 := by
  rw [content?] at held
  split at held
  next block found =>
    obtain ⟨within, ⟨⟩⟩ := Option.dite_none_right_eq_some.1 held
    exact found
  next => cases held

/-! What is found when little is loaded is found when more is. -/

section Later

variable {loads later : Loads} (grows : loads.payloads.Grows later.payloads)

include grows

theorem Loads.content?_of_grows {cell bound : Nat} {content : Within bound}
    (held : loads.content? cell bound = some content) :
    later.content? cell bound = some content := by
  rw [Loads.content?] at held ⊢
  split at held
  next block found => rwa [grows _ _ found]
  next => cases held

theorem Block.face?_of_grows {b : Block} {face : Face b.depth} (shown : b.face? loads = some face) :
    b.face? later = some face := by
  induction b using Block.walk with
  | step b ih =>
    rcases b with leaf | leaf | ⟨lists, elements⟩ | ⟨keys, entries⟩ | ⟨promise, payload⟩
    all_goals rw [Block.face?] at shown ⊢
    case «lazy» =>
      rcases held : loads.content? promise.cell payload.depth with - | content
      · rw [held] at shown
        cases shown
      · rw [held] at shown
        obtain ⟨inner, found, widened⟩ := Option.map_eq_some_iff.1 shown
        rw [Loads.content?_of_grows grows held]
        exact Option.map_eq_some_iff.2 ⟨inner, ih content.1 (Nat.lt_succ_of_le content.2) found,
          widened⟩
    all_goals exact shown

theorem Block.Part.of_grows {c b : Block} (part : Part loads c b) : Part later c b := by
  induction part with
  | refl => exact .refl
  | elements _ ih => exact .elements ih
  | entries _ ih => exact .entries ih
  | payload _ ih => exact .payload ih
  | content held _ ih => exact .content (Loads.content?_of_grows grows held) ih

/-- What comes to a dictionary block still does. -/
theorem Block.isNested_of_grows {b : Block} (nested : b.isNested loads = true) :
    b.isNested later = true := by
  rw [isNested, resolved?] at nested ⊢
  rcases shown : b.face? loads with - | face
  · rw [shown] at nested
    cases nested
  · rw [shown] at nested
    rwa [face?_of_grows grows shown]

theorem Keys.Noted.of_grows {selects : Prop} {keys : Keys} {entries : Block} {stats : Stats}
    (told : keys.Noted selects loads entries stats) : keys.Noted selects later entries stats :=
  { told with
    noted := fun grow ↦ (told.noted grow).imp_right (Or.imp_left (Block.isNested_of_grows grows)) }

end Later

/-- One ledger is what another may become: identities are used up and tables are added to. -/
structure Ledger.Grows (before after : Ledger) : Prop where
  next : before.next ≤ after.next
  minted : before.minted ≤ after.minted
  sizes : before.sizes.Grows after.sizes
  stats : before.stats.Grows after.stats
  logicalSizes : before.logicalSizes.Grows after.logicalSizes

theorem Ledger.Grows.refl (ledger : Ledger) : ledger.Grows ledger :=
  ⟨Nat.le_refl _, Nat.le_refl _, fun _ _ ↦ id, fun _ _ ↦ id, fun _ _ ↦ id⟩

theorem Ledger.Grows.trans {a b c : Ledger} (first : a.Grows b) (second : b.Grows c) :
    a.Grows c where
  next := first.next.trans second.next
  minted := first.minted.trans second.minted
  sizes key n := second.sizes key n ∘ first.sizes key n
  stats key n := second.stats key n ∘ first.stats key n
  logicalSizes key n := second.logicalSizes key n ∘ first.logicalSizes key n

namespace Ledger.Grows

variable {ledger : Ledger}

theorem of_next {n : Nat} (le : ledger.next ≤ n) : ledger.Grows { ledger with next := n } :=
  { Ledger.Grows.refl ledger with next := le }

theorem of_minted {n : Nat} (le : ledger.minted ≤ n) : ledger.Grows { ledger with minted := n } :=
  { Ledger.Grows.refl ledger with minted := le }

theorem of_sizes {slots : Slots Nat} (grows : ledger.sizes.Grows slots) :
    ledger.Grows { ledger with sizes := slots } :=
  { Ledger.Grows.refl ledger with sizes := grows }

theorem of_stats {slots : Slots Stats} (grows : ledger.stats.Grows slots) :
    ledger.Grows { ledger with stats := slots } :=
  { Ledger.Grows.refl ledger with stats := grows }

theorem of_logicalSizes {slots : Slots Nat} (grows : ledger.logicalSizes.Grows slots) :
    ledger.Grows { ledger with logicalSizes := slots } :=
  { Ledger.Grows.refl ledger with logicalSizes := grows }

end Ledger.Grows

/-- The ledger after a new memory took over what another one remembers. -/
def Ledger.carried (ledger : Ledger) (memory : Nat) : Ledger :=
  { ledger with
    next := ledger.next + 1
    sizes := ledger.sizes.copy memory ledger.next
    stats := ledger.stats.copy memory ledger.next
    logicalSizes := ledger.logicalSizes.copy memory ledger.next }

theorem Ledger.grows_carried (ledger : Ledger) (memory : Nat) :
    ledger.Grows (ledger.carried memory) :=
  ⟨Nat.le_succ _, Nat.le_refl _, ledger.sizes.grows_copy _ _, ledger.stats.grows_copy _ _,
    ledger.logicalSizes.grows_copy _ _⟩

/-! ### What is remembered of a block -/

/-- What is remembered under one memory. -/
structure Memo where
  /-- The size of a block of lists. -/
  size? : Option Nat
  /-- The statistics of a dictionary block. -/
  stats? : Option Stats
  /-- The logical size of a dictionary block. -/
  logicalSize? : Option Nat

/-- Nothing is remembered. -/
def Memo.blank : Memo := ⟨none, none, none⟩

namespace Ledger

/-- What is remembered under a memory. -/
def memo (ledger : Ledger) (memory : Nat) : Memo where
  size? := ledger.sizes.get? memory
  stats? := ledger.stats.get? memory
  logicalSize? := ledger.logicalSizes.get? memory

theorem blank_stats {ledger : Ledger} {memory : Nat} (blank : ledger.memo memory = .blank) :
    ledger.stats.get? memory = none :=
  congrArg Memo.stats? blank

/-- A blank memory takes over what stands under another. -/
theorem memo_carried {ledger : Ledger} (blank : ledger.memo ledger.next = .blank)
    (memory k : Nat) : (ledger.carried memory).memo k =
      if k = ledger.next then ledger.memo memory else ledger.memo k := by
  have sizes : ledger.sizes.get? ledger.next = none := congrArg Memo.size? blank
  have logicalSizes : ledger.logicalSizes.get? ledger.next = none :=
    congrArg Memo.logicalSize? blank
  rw [memo, carried, Slots.get?_copy sizes, Slots.get?_copy (blank_stats blank),
    Slots.get?_copy logicalSizes]
  split <;> rfl

end Ledger

/-! ### The census -/

/-- The blocks that exist, and what is known of them. -/
structure Census where
  /-- The blocks. -/
  blocks : Set Block
  /-- The memories that are known to remember statistics. -/
  known : Set Nat
  /-- The blocks that are known to be gatherable. -/
  able : Set Block
  /-- The blocks that are watched, each with what was loaded when the watch began. -/
  watched : Set (Loads × Block)
  /-- What was seen to be loaded. -/
  seen : Slots Block
  /-- How many dictionary identities are known to be minted. -/
  floor : Nat
  /-- The dictionary identities that callers may give. -/
  given : Set SourceId
  /-- The arrays and handles that are known to be given out. -/
  issued : Set Nat
  /-- Selections may be made. -/
  selects : Prop
  /-- The handles of dictionary blocks were given out. -/
  tracks : Prop

namespace Census

instance : Membership Block Census := ⟨fun K b ↦ b ∈ K.blocks⟩

/-- Nothing is lost. The same blocks are watched, the same identities may be given, and selections
may be made if they could. -/
structure Le (K L : Census) : Prop where
  blocks : K.blocks ⊆ L.blocks
  known : K.known ⊆ L.known
  able : K.able ⊆ L.able
  watched : K.watched = L.watched
  seen : K.seen.Grows L.seen
  floor : K.floor ≤ L.floor
  given : K.given = L.given
  issued : K.issued ⊆ L.issued
  selects : K.selects = L.selects
  tracks : K.tracks = L.tracks

instance : LE Census := ⟨Le⟩

/-- No blocks. -/
def empty (given : Set SourceId) (selects : Prop) : Census :=
  ⟨∅, ∅, ∅, ∅, .empty, 0, given, ∅, selects, True⟩

/-- One more block. -/
def add (K : Census) (b : Block) : Census := { K with blocks := insert b K.blocks }

/-- One more memory. -/
def learn (K : Census) (memory : Nat) : Census := { K with known := insert memory K.known }

/-- More identities are known to be minted. -/
def raise (K : Census) (minted : Nat) : Census := { K with floor := max K.floor minted }

/-- Selections may be made. -/
def selecting (K : Census) : Census := { K with selects := True }

/-- Nothing is known of handles. -/
def untracked (K : Census) : Census := { K with tracks := False }

/-- More blocks are known to be gatherable. -/
def recognise (K : Census) (blocks : Set Block) : Census := { K with able := K.able ∪ blocks }

/-- The loads of now are seen. -/
def note (K : Census) (loads : Loads) : Census := { K with seen := loads.payloads }

/-- One more array. -/
def issue (K : Census) (storage : Nat) : Census := { K with issued := insert storage K.issued }

/-- The arrays of one more leaf of byte strings. -/
def issueAll (K : Census) (storages : Slices.Storages) : Census :=
  ((K.issue storages.offsets).issue storages.bytes).issue storages.flags

theorem le_refl (K : Census) : K ≤ K :=
  ⟨subset_rfl, subset_rfl, subset_rfl, rfl, fun _ _ ↦ id, Nat.le_refl _, rfl, subset_rfl, rfl,
    rfl⟩

theorem le_trans {K L M : Census} (first : K ≤ L) (second : L ≤ M) : K ≤ M where
  blocks := first.blocks.trans second.blocks
  known := first.known.trans second.known
  able := first.able.trans second.able
  watched := first.watched.trans second.watched
  seen cell content := second.seen cell content ∘ first.seen cell content
  floor := Nat.le_trans first.floor second.floor
  given := first.given.trans second.given
  issued := first.issued.trans second.issued
  selects := first.selects.trans second.selects
  tracks := first.tracks.trans second.tracks

theorem mem_of_le {K L : Census} {b : Block} (le : K ≤ L) (mem : b ∈ K) : b ∈ L :=
  le.blocks mem

theorem known_of_le {K L : Census} {n : Nat} (le : K ≤ L) (mem : n ∈ K.known) : n ∈ L.known :=
  le.known mem

theorem mem_add_self (K : Census) (b : Block) : b ∈ K.add b := .inl rfl

theorem le_add (K : Census) (b : Block) : K ≤ K.add b :=
  { le_refl K with blocks := Set.subset_insert _ _ }

theorem le_learn (K : Census) (memory : Nat) : K ≤ K.learn memory :=
  { le_refl K with known := Set.subset_insert _ _ }

theorem le_recognise (K : Census) (blocks : Set Block) : K ≤ K.recognise blocks :=
  { le_refl K with able := Set.subset_union_left }

theorem le_note {K : Census} {loads : Loads} (past : K.seen.Grows loads.payloads) :
    K ≤ K.note loads :=
  { le_refl K with seen := past }

theorem le_raise (K : Census) (minted : Nat) : K ≤ K.raise minted :=
  { le_refl K with floor := Nat.le_max_left _ _ }

theorem le_issue (K : Census) (storage : Nat) : K ≤ K.issue storage :=
  { le_refl K with issued := Set.subset_insert _ _ }

@[simp] theorem mem_issue (K : Census) (storage n : Nat) :
    n ∈ (K.issue storage).issued ↔ n = storage ∨ n ∈ K.issued := .rfl

@[simp] theorem block_mem_issue (K : Census) (storage : Nat) (b : Block) :
    b ∈ K.issue storage ↔ b ∈ K := .rfl

theorem le_issueAll (K : Census) (storages : Slices.Storages) : K ≤ K.issueAll storages :=
  le_trans (K.le_issue _) (le_trans (Census.le_issue _ _) (Census.le_issue _ _))

theorem mem_issueAll (K : Census) {storages : Slices.Storages} {n : Nat}
    (mem : n ∈ storages.arrays) : n ∈ (K.issueAll storages).issued := by
  simp only [Slices.Storages.arrays, List.mem_cons, List.not_mem_nil, or_false] at mem
  simp only [issueAll, mem_issue]
  tauto

end Census

end BatchColumn
