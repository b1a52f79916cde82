import BatchColumn.Block.Size
import BatchColumn.Proofs.Census

/-!
# Figures, remembered and worked out

What a size is if nothing is remembered is a plain function of a block and of what is loaded
(`Block.plainSize`, `Block.plainLogicalSize`). A remembered figure was such a size when it was
remembered. It is not one forever: a lazy block counts for nothing until it is loaded, so loading
one below a block changes the sizes of the block, and no figure is ever taken back.

Where nothing is loaded below, nothing goes wrong. A block is **unmoved** since some loads if none
of the lazy blocks in it has been loaded since (`Block.Unmoved`); all that sizing looks at is then
what it was. `Figured` is the part of the soundness of a store that says so: while a block that the
census follows is unmoved, what is remembered of it is right. The census follows every block from
the time when nothing was loaded, and the blocks that are watched from the time when the watch began
(`Census.Follows`).
-/

namespace BatchColumn

/-! ### Sizes with nothing remembered -/

theorem Extent.isWhole_all (count : Nat) : isWhole count .all = true := by
  simp [isWhole, offset, length]

/-- All positions lie within a block. -/
theorem Extent.fits_all (count : Nat) : offset .all + length count .all ≤ count :=
  (Nat.zero_add _).le

/-- Bytes of all positions of a dictionary block, where `entriesSize` is the size of its entries. -/
def Keys.plainSize (loads : Loads) (keys : Keys) (entries : Block)
    (entriesSize : Except Fault Nat) : Except Fault Nat := do
  let size ←
    if keys.toList.eraseDups.length = entries.positionCount then do
      let size ← entriesSize
      match entries.resolved? loads with
      | some (inner, _) => pure (size - idSize * inner.count)
      | none => pure size
    else do
      let used ← markUsed entries.positionCount keys.toList
      entries.flatMaskSize loads used
  return size + idSize * keys.count

namespace Block

/-- Bytes of an extent of a block, worked out anew. -/
def plainSize (loads : Loads) (block : Block) (extent : Extent) : Except Fault Nat := do
  checkRegion block.positionCount extent.offset (extent.length block.positionCount)
  match block.face? loads with
  | none => return 0
  | some (.ints leaf) => return leaf.entrySize * extent.length leaf.count
  | some (.slices leaf) => leaf.windowSize extent.offset (extent.length leaf.count)
  | some (.array lists elements _) =>
    let length := extent.length lists.count
    let (start, stop) ← lists.cut extent.offset length
    return (← elements.plainSize loads (.region start (stop - start))) + Lists.overhead * length
  | some (.dictionary keys entries _) =>
    if extent.isWhole keys.count then
      return ← keys.plainSize loads entries (entries.plainSize loads .all)
    let length := extent.length keys.count
    let used ← markUsed entries.positionCount (stretch keys.toList extent.offset length)
    return (← entries.maskSize loads used) + idSize * length
termination_by block.depth

/-- Bytes of the entry that an id refers to, worked out anew. -/
def plainEntrySize (loads : Loads) (entries : Block) (id : Nat) : Except Fault Nat := do
  if entries.positionCount ≤ id then throw (.error (.missingKey id))
  entries.plainSize loads (.region id 1)

/-- Bytes of a block if every position had an entry of its own, worked out anew. -/
def plainLogicalSize (loads : Loads) (block : Block) : Except Fault Nat := do
  match block.face? loads with
  | none => return 0
  | some (.dictionary keys entries _) =>
    allocate entries.positionCount optionalSize
    sumOver keys.toList (entries.plainEntrySize loads)
  | some _ => block.plainSize loads .all

/-- Blocks are sized as what they come to. -/
theorem plainSize_of_face {loads : Loads} {b : Block} {face : Face b.depth}
    (shown : b.face? loads = some face) (count : face.toBlock.positionCount = b.positionCount)
    (extent : Extent) : b.plainSize loads extent = face.toBlock.plainSize loads extent := by
  rw [plainSize, shown, ← count]
  rcases face with leaf | leaf | ⟨lists, elements, below⟩ | ⟨keys, entries, below⟩
  all_goals rw [Face.toBlock, plainSize, face?]

theorem plainLogicalSize_of_face {loads : Loads} {b : Block} {keys : Keys} {entries : Block}
    {below : entries.depth < b.depth}
    (shown : b.face? loads = some (.dictionary keys entries below)) :
    b.plainLogicalSize loads = (dictionary keys entries).plainLogicalSize loads := by
  rw [plainLogicalSize, shown, plainLogicalSize, face?]

theorem plainSize_ints {leaf : Ints} {extent : Extent}
    (fits : extent.offset + extent.length leaf.count ≤ leaf.count) (loads : Loads) :
    (ints leaf).plainSize loads extent = .ok (leaf.entrySize * extent.length leaf.count) := by
  have passed : checkRegion (ints leaf).positionCount extent.offset
      (extent.length (ints leaf).positionCount) = .ok () := checkRegion_eq_ok_iff.2 fits
  rw [plainSize, face?, passed, lift_ok, ok_bind]
  rfl

theorem plainSize_slices {leaf : Slices} {extent : Extent}
    (fits : extent.offset + extent.length leaf.count ≤ leaf.count) (loads : Loads) :
    (slices leaf).plainSize loads extent =
      leaf.windowSize extent.offset (extent.length leaf.count) := by
  have passed : checkRegion (slices leaf).positionCount extent.offset
      (extent.length (slices leaf).positionCount) = .ok () := checkRegion_eq_ok_iff.2 fits
  rw [plainSize, face?, passed, lift_ok, ok_bind]

/-- Lists are sized by a region of their elements. -/
theorem plainSize_array {lists : Lists} {extent : Extent}
    (fits : extent.offset + extent.length lists.count ≤ lists.count) (loads : Loads)
    (elements : Block) : (array lists elements).plainSize loads extent =
      (· + Lists.overhead * extent.length lists.count) <$>
        elements.plainSize loads (.region (lists.start extent.offset)
          (lists.start (extent.offset + extent.length lists.count) -
            lists.start extent.offset)) := by
  have passed : checkRegion (array lists elements).positionCount extent.offset
      (extent.length (array lists elements).positionCount) = .ok () := checkRegion_eq_ok_iff.2 fits
  rw [plainSize, face?, passed, lift_ok, ok_bind]
  dsimp only
  rw [Lists.cut_eq_ok fits, lift_ok, ok_bind, map_eq_pure_bind]

/-- All of a dictionary block is sized by its statistics. -/
theorem plainSize_dictionary_of_isWhole {keys : Keys} {extent : Extent}
    (whole : extent.isWhole keys.count = true) (loads : Loads) (entries : Block) :
    (dictionary keys entries).plainSize loads extent =
      keys.plainSize loads entries (entries.plainSize loads .all) := by
  obtain ⟨first, all⟩ : extent.offset = 0 ∧ extent.length keys.count = keys.count := by
    simpa [Extent.isWhole] using whole
  have passed : checkRegion (dictionary keys entries).positionCount extent.offset
      (extent.length (dictionary keys entries).positionCount) = .ok () := by
    rw [checkRegion_eq_ok_iff, first, Nat.zero_add]
    exact all.le
  rw [plainSize, face?, passed, lift_ok, ok_bind]
  exact if_pos whole

/-- Part of a dictionary block is sized by the entries referred to. -/
theorem plainSize_dictionary_of_part {keys : Keys} {extent : Extent}
    (fits : extent.offset + extent.length keys.count ≤ keys.count)
    (part : ¬ extent.isWhole keys.count = true) (loads : Loads) (entries : Block) :
    (dictionary keys entries).plainSize loads extent = do
      let used ← markUsed entries.positionCount
        (stretch keys.toList extent.offset (extent.length keys.count))
      return (← entries.maskSize loads used) + idSize * extent.length keys.count := by
  have passed : checkRegion (dictionary keys entries).positionCount extent.offset
      (extent.length (dictionary keys entries).positionCount) = .ok () :=
    checkRegion_eq_ok_iff.2 fits
  rw [plainSize, face?, passed, lift_ok, ok_bind]
  exact if_neg part

/-- All of a block is a region of it. -/
theorem plainSize_array_region (loads : Loads) (lists : Lists) (elements : Block) :
    (array lists elements).plainSize loads (.region 0 lists.count) =
      (array lists elements).plainSize loads .all := by
  rw [plainSize, plainSize, face?]
  rfl

/-- The size of lists does not depend on their memory. -/
theorem plainSize_array_memory (loads : Loads) (lists : Lists) (elements : Block) (memory : Nat)
    (extent : Extent) : (array { lists with memory := memory } elements).plainSize loads extent =
      (array lists elements).plainSize loads extent := by
  rw [plainSize, plainSize, face?, face?]
  rfl

/-- The size of a dictionary block depends on the ids and the entries. -/
theorem plainSize_dictionary_congr {keys others : Keys} (same : others.toList = keys.toList)
    (loads : Loads) (entries : Block) (extent : Extent) :
    (dictionary others entries).plainSize loads extent =
      (dictionary keys entries).plainSize loads extent := by
  have count : others.count = keys.count := by
    rw [← Keys.length_toList, same, Keys.length_toList]
  have counts : (dictionary others entries).positionCount =
      (dictionary keys entries).positionCount := count
  rw [plainSize, plainSize, face?, face?, counts]
  simp only [Keys.plainSize, same, count]

theorem plainLogicalSize_dictionary_congr {keys others : Keys} (same : others.toList = keys.toList)
    (loads : Loads) (entries : Block) :
    (dictionary others entries).plainLogicalSize loads =
      (dictionary keys entries).plainLogicalSize loads := by
  rw [plainLogicalSize, plainLogicalSize, face?, face?]
  simp only [same]

end Block

/-- What is remembered of a block is what is worked out for it under the loads. -/
def Memo.Right (memo : Memo) (loads : Loads) : Block → Prop
  | .array lists elements => ∀ size, memo.size? = some size →
    (Block.array lists elements).plainSize loads .all = .ok size
  | .dictionary keys entries =>
    (∀ stats, memo.stats? = some stats →
      (Block.dictionary keys entries).plainSize loads .all = .ok stats.size) ∧
    ∀ size, memo.logicalSize? = some size →
      (Block.dictionary keys entries).plainLogicalSize loads = .ok size
  | _ => True

theorem Memo.right_blank (loads : Loads) (b : Block) : Memo.blank.Right loads b := by
  rcases b with leaf | leaf | ⟨lists, elements⟩ | ⟨keys, entries⟩ | ⟨promise, payload⟩
  · trivial
  · trivial
  · rintro _ ⟨⟩
  · exact ⟨by rintro _ ⟨⟩, by rintro _ ⟨⟩⟩
  · trivial

/-! ### Blocks that are unmoved -/

namespace Block

/-- Nothing in the block has been loaded since `since`. -/
def Unmoved (since loads : Loads) (b : Block) : Prop :=
  ∀ promise payload, Part since («lazy» promise payload) b →
    loads.payloads.get? promise.cell = since.payloads.get? promise.cell

variable {since loads : Loads} {b : Block}

theorem Unmoved.refl (loads : Loads) (b : Block) : b.Unmoved loads loads :=
  fun _ _ _ ↦ rfl

theorem Unmoved.part {c : Block} (unmoved : b.Unmoved since loads) (part : Part since c b) :
    c.Unmoved since loads :=
  fun promise payload found ↦ unmoved promise payload (found.trans part)

/-- What is loaded of a block that is unmoved is what was. -/
theorem Unmoved.face? (unmoved : b.Unmoved since loads) : b.face? loads = b.face? since := by
  induction b using Block.walk with
  | step b ih =>
    rcases b with leaf | leaf | ⟨lists, elements⟩ | ⟨keys, entries⟩ | ⟨promise, payload⟩
    all_goals rw [Block.face?, Block.face?]
    have same : loads.content? promise.cell payload.depth =
        since.content? promise.cell payload.depth := by
      rw [Loads.content?, unmoved promise payload .refl, Loads.content?]
    rw [same]
    rcases held : since.content? promise.cell payload.depth with - | content
    · rfl
    · dsimp only
      rw [ih content.1 (Nat.lt_succ_of_le content.2) (unmoved.part (.content held .refl))]

theorem Unmoved.resolved? (unmoved : b.Unmoved since loads) :
    b.resolved? loads = b.resolved? since := by
  rw [Block.resolved?, unmoved.face?, Block.resolved?]

/-- What stands behind an unmoved block is unmoved. -/
theorem Unmoved.of_face (unmoved : b.Unmoved since loads) {face : Face b.depth}
    (shown : b.face? since = some face) : face.toBlock.Unmoved since loads :=
  unmoved.part (.of_face shown .refl)

theorem Unmoved.elements {lists : Lists} {elements : Block}
    (unmoved : (array lists elements).Unmoved since loads) : elements.Unmoved since loads :=
  unmoved.part (.elements .refl)

theorem Unmoved.entries {keys : Keys} {entries : Block}
    (unmoved : (dictionary keys entries).Unmoved since loads) : entries.Unmoved since loads :=
  unmoved.part (.entries .refl)

/-- A layer over an unmoved block is unmoved. -/
theorem Unmoved.array {elements : Block} (unmoved : elements.Unmoved since loads) (lists : Lists) :
    (Block.array lists elements).Unmoved since loads := fun promise payload part ↦ by
  cases part with
  | elements part => exact unmoved promise payload part

theorem Unmoved.dictionary {entries : Block} (unmoved : entries.Unmoved since loads)
    (keys : Keys) : (Block.dictionary keys entries).Unmoved since loads :=
  fun promise payload part ↦ by
    cases part with
    | entries part => exact unmoved promise payload part

theorem Unmoved.maskSize (unmoved : b.Unmoved since loads) (mask : Mask) :
    b.maskSize loads mask = b.maskSize since mask := by
  induction b using Block.walk generalizing mask with
  | step b ih =>
    rw [Block.maskSize, Block.maskSize, unmoved.face?]
    rcases shown : b.face? since with - | face
    · rfl
    · have unmoved := unmoved.of_face shown
      rcases face with leaf | leaf | ⟨lists, elements, below⟩ | ⟨keys, entries, below⟩
      · rfl
      · rfl
      · simp only [ih elements below unmoved.elements]
      · simp only [ih entries below unmoved.entries]

theorem Unmoved.flatMaskSize (unmoved : b.Unmoved since loads) (mask : Mask) :
    b.flatMaskSize loads mask = b.flatMaskSize since mask := by
  induction b using Block.walk generalizing mask with
  | step b ih =>
    rw [Block.flatMaskSize, Block.flatMaskSize, unmoved.face?]
    split
    next keys entries below shown =>
      simp only [ih entries below (unmoved.of_face shown).entries]
    next => exact unmoved.maskSize mask

/-- What an unmoved block is made of now it was made of before. -/
theorem Unmoved.part_of_part {c : Block} (unmoved : b.Unmoved since loads)
    (part : Part loads c b) : Part since c b := by
  induction part with
  | refl => exact .refl
  | elements _ ih => exact .elements (ih unmoved.elements)
  | entries _ ih => exact .entries (ih unmoved.entries)
  | payload _ ih => exact .payload (ih (unmoved.part (.payload .refl)))
  | @content promise payload content held _ ih =>
    have before : since.content? promise.cell payload.depth = some content := by
      rwa [Loads.content?, ← unmoved promise payload .refl]
    exact .content before (ih (unmoved.part (.content before .refl)))

/-- **The size of an unmoved block is what it was.** -/
theorem Unmoved.plainSize (unmoved : b.Unmoved since loads) (extent : Extent) :
    b.plainSize loads extent = b.plainSize since extent := by
  induction b using Block.walk generalizing extent with
  | step b ih =>
    rw [Block.plainSize, Block.plainSize, unmoved.face?]
    rcases shown : b.face? since with - | face
    · rfl
    · have unmoved := unmoved.of_face shown
      rcases face with leaf | leaf | ⟨lists, elements, below⟩ | ⟨keys, entries, below⟩
      · rfl
      · rfl
      · simp only [ih elements below unmoved.elements]
      · simp only [ih entries below unmoved.entries, Keys.plainSize, unmoved.entries.resolved?,
          unmoved.entries.flatMaskSize, unmoved.entries.maskSize]

theorem Unmoved.plainEntrySize (unmoved : b.Unmoved since loads) :
    b.plainEntrySize loads = b.plainEntrySize since := by
  funext id
  rw [Block.plainEntrySize, Block.plainEntrySize, unmoved.plainSize]

theorem Unmoved.plainLogicalSize (unmoved : b.Unmoved since loads) :
    b.plainLogicalSize loads = b.plainLogicalSize since := by
  rw [Block.plainLogicalSize, Block.plainLogicalSize, unmoved.face?]
  rcases shown : b.face? since with - | face
  · rfl
  · have inner := unmoved.of_face shown
    rcases face with leaf | leaf | ⟨lists, elements, below⟩ | ⟨keys, entries, below⟩
    case dictionary => simp only [inner.entries.plainEntrySize]
    all_goals exact unmoved.plainSize .all

end Block

/-- What is right of an unmoved block was right before, and what was right is. -/
theorem Memo.right_iff_of_unmoved {memo : Memo} {since loads : Loads} {b : Block}
    (unmoved : b.Unmoved since loads) : memo.Right loads b ↔ memo.Right since b := by
  rcases b with leaf | leaf | ⟨lists, elements⟩ | ⟨keys, entries⟩ | ⟨promise, payload⟩
  case array => rw [Memo.Right, unmoved.plainSize, Memo.Right]
  case dictionary => rw [Memo.Right, unmoved.plainSize, unmoved.plainLogicalSize, Memo.Right]
  all_goals exact Iff.rfl

/-! ### Blocks that are followed -/

namespace Census

/-- The block is unmoved since nothing was loaded, or since it is watched. -/
def Follows (K : Census) (since loads : Loads) (b : Block) : Prop :=
  (since = .empty ∨ ∃ r, (since, r) ∈ K.watched ∧ Block.Part since b r) ∧ b.Unmoved since loads

variable {K L : Census} {since loads : Loads} {b c : Block}

theorem follows_iff_of_le (le : K ≤ L) :
    K.Follows since loads b ↔ L.Follows since loads b := by
  rw [Follows, Follows, le.watched]

/-- The parts of a block that is followed are followed. -/
theorem Follows.part (follows : K.Follows since loads b) (part : Block.Part since c b) :
    K.Follows since loads c := by
  obtain ⟨seen, unmoved⟩ := follows
  exact ⟨seen.imp_right fun ⟨r, mem, found⟩ ↦ ⟨r, mem, part.trans found⟩, unmoved.part part⟩

theorem Follows.of_face {face : Face b.depth} (follows : K.Follows since loads b)
    (shown : b.face? loads = some face) : K.Follows since loads face.toBlock :=
  follows.part (.of_face (follows.2.face?.symm.trans shown) .refl)

theorem Follows.elements {lists : Lists} {elements : Block}
    (follows : K.Follows since loads (.array lists elements)) : K.Follows since loads elements :=
  follows.part (.elements .refl)

theorem Follows.entries {keys : Keys} {entries : Block}
    (follows : K.Follows since loads (.dictionary keys entries)) : K.Follows since loads entries :=
  follows.part (.entries .refl)

/-- The size of an extent is what is worked out under the loads that the block is followed from. -/
def ConfirmsSize (K : Census) (loads : Loads) (b : Block) (extent : Extent) (size : Nat) : Prop :=
  ∀ since, K.Follows since loads b → b.plainSize since extent = .ok size

/-- The logical size is what is worked out under the loads that the block is followed from. -/
def ConfirmsLogicalSize (K : Census) (loads : Loads) (b : Block) (size : Nat) : Prop :=
  ∀ since, K.Follows since loads b → b.plainLogicalSize since = .ok size

theorem confirmsSize_iff_of_le (le : K ≤ L) {extent : Extent} {size : Nat} :
    K.ConfirmsSize loads b extent size ↔ L.ConfirmsSize loads b extent size := by
  simp only [ConfirmsSize, follows_iff_of_le le]

/-- A figure of what a block comes to is one of the block. -/
theorem ConfirmsSize.of_face {face : Face b.depth} {extent : Extent} {size : Nat}
    (shown : b.face? loads = some face) (count : face.toBlock.positionCount = b.positionCount)
    (confirms : K.ConfirmsSize loads face.toBlock extent size) :
    K.ConfirmsSize loads b extent size := fun since follows ↦
  (Block.plainSize_of_face (follows.2.face?.symm.trans shown) count extent).trans
    (confirms since (follows.of_face shown))

/-- One more block is watched. -/
def watch (K : Census) (loads : Loads) (b : Block) : Census :=
  { K with watched := insert (loads, b) K.watched }

end Census

/-- Statistics that are those of the keys, with the size that is worked out. -/
structure Keys.Exact (K : Census) (loads : Loads) (keys : Keys) (entries : Block)
    (stats : Stats) : Prop extends keys.Noted K.selects loads entries stats where
  /-- The size is that of the dictionary block. -/
  size : K.ConfirmsSize loads (.dictionary keys entries) .all stats.size

/-- **What is remembered of blocks that are followed is right.** -/
structure Figured (K : Census) (loads : Loads) (ledger : Ledger) : Prop where
  /-- Blocks that are watched exist. -/
  rooted : ∀ since b, (since, b) ∈ K.watched → b ∈ K
  /-- What was loaded when a watch began is loaded. -/
  past : ∀ since b, (since, b) ∈ K.watched → since.payloads.Grows loads.payloads
  /-- What is remembered of them is what was worked out when the watch began. -/
  right : ∀ b ∈ K, ∀ n, b.identity? = some n → ∀ since, K.Follows since loads b →
    (ledger.memo n).Right since b

namespace Figured

variable {K : Census} {loads : Loads} {ledger : Ledger}

protected theorem empty (given : Set SourceId) (selects : Prop) :
    Figured (.empty given selects) .empty .empty where
  rooted _ _ mem := mem.elim
  past _ _ mem := mem.elim
  right _ mem := mem.elim

variable (figured : Figured K loads ledger)

include figured

/-- What was loaded when a block began to be followed is loaded. -/
theorem grows {since : Loads} {b : Block}
    (seen : since = .empty ∨ ∃ r, (since, r) ∈ K.watched ∧ Block.Part since b r) :
    since.payloads.Grows loads.payloads := by
  rcases seen with rfl | ⟨r, mem, -⟩
  · rintro _ _ ⟨⟩
  · exact figured.past _ _ mem

/-- Only the blocks and the watches of a census matter. -/
theorem of_census {L : Census} (blocks : L.blocks = K.blocks) (watched : L.watched = K.watched) :
    Figured L loads ledger := by
  obtain ⟨_, _, _, _, _, _, _, _, _, _⟩ := L
  subst blocks watched
  exact ⟨figured.rooted, figured.past, figured.right⟩

/-- A block joins the census if what is remembered of it is right. -/
theorem add {b : Block} (right : ∀ n, b.identity? = some n → ∀ since, K.Follows since loads b →
    (ledger.memo n).Right since b) : Figured (K.add b) loads ledger where
  rooted since c mem := .inr (figured.rooted since c mem)
  past := figured.past
  right := by
    rintro c (rfl | mem) n own since follows
    · exact right n own since follows
    · exact figured.right c mem n own since follows

/-- Nothing changes for blocks of which the same is remembered. -/
theorem of_memo {after : Ledger} (same : ∀ b ∈ K, ∀ n, b.identity? = some n →
    after.memo n = ledger.memo n) : Figured K loads after :=
  { figured with
    right := fun b mem n own since follows ↦
      same b mem n own ▸ figured.right b mem n own since follows }

/-- **A figure is published under the memory of a block.** What is remembered afterwards must be
right. -/
theorem publish {after : Ledger} {b : Block} {n : Nat}
    (only : ∀ c ∈ K, c.identity? = some n → c = b)
    (other : ∀ m, m ≠ n → after.memo m = ledger.memo m)
    (right : ∀ since, K.Follows since loads b → (after.memo n).Right since b) :
    Figured K loads after :=
  { figured with
    right := fun c mem m own since follows ↦ by
      by_cases same : m = n
      · subst same
        obtain rfl := only c mem own
        exact right since follows
      · rw [other m same]
        exact figured.right c mem m own since follows }

/-- More is loaded. Blocks that are unmoved afterwards were unmoved before. -/
theorem of_loads {after : Loads} (more : loads.payloads.Grows after.payloads) :
    Figured K after ledger where
  rooted := figured.rooted
  past since b mem k a found := more k a (figured.past since b mem k a found)
  right b mem n own since follows := by
    refine figured.right b mem n own since ⟨follows.1, fun promise payload part ↦ ?_⟩
    have still := follows.2 promise payload part
    rcases held : since.payloads.get? promise.cell with - | content
    · -- What is loaded stays loaded, so nothing was loaded here before.
      rcases here : loads.payloads.get? promise.cell with - | content
      · rfl
      · rw [held, more _ _ here] at still
        cases still
    · exact figured.grows follows.1 _ _ held

/-- **A block is watched** from now on if what is remembered of it, at every depth, is right. -/
theorem watch {b : Block} (mem : b ∈ K) (right : ∀ c, Block.Part loads c b → ∀ n,
    c.identity? = some n → (ledger.memo n).Right loads c) :
    Figured (K.watch loads b) loads ledger where
  rooted := by
    rintro since c (same | there)
    · obtain ⟨rfl, rfl⟩ := Prod.mk.inj same
      exact mem
    · exact figured.rooted since c there
  past := by
    rintro since c (same | there)
    · obtain ⟨rfl, rfl⟩ := Prod.mk.inj same
      exact fun _ _ ↦ id
    · exact figured.past since c there
  right := by
    rintro c present n own since ⟨rfl | ⟨r, same | there, part⟩, unmoved⟩
    · exact figured.right c present n own .empty ⟨.inl rfl, unmoved⟩
    · obtain ⟨rfl, rfl⟩ := Prod.mk.inj same
      exact right c part n own
    · exact figured.right c present n own since ⟨.inr ⟨r, there, part⟩, unmoved⟩

end Figured

end BatchColumn
