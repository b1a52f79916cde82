import BatchColumn.Block.Store
import Mathlib.Algebra.Order.Ring.Nat

/-!
# Blocks at every depth

A block has **parts**: itself, the layers below it, what its promises will load and what they have
loaded (`Block.Part`). Which parts there are depends on what is loaded, and so do the bounds on how
many positions all of them have (`Block.Roomy`, `Block.Small`). A block without promises has the
same parts whatever is loaded (`Block.Eager`).

It depends on less than it seems. What a promise loads is **cut from** its payload
(`Block.CutFrom`): each of its parts is a window of a part that the payload has before anything is
loaded, over the same elements and entries. So a bound that holds of the parts of a block before
anything is loaded holds of all the parts that it will ever have.

Walks go down on `Block.depth`, and so do the proofs about them (`Block.walk`). What stands behind
the lazy blocks that a walk looks through is reached by `Block.face_induction`.
-/

namespace BatchColumn

/-- A proof about a block may use the claim for all blocks that are less deep. -/
theorem Block.walk {motive : Block → Prop} (b : Block)
    (step : ∀ b : Block, (∀ c : Block, c.depth < b.depth → motive c) → motive b) : motive b :=
  (measure Block.depth).wf.induction b step

@[simp] theorem Face.toBlock_widen {bound wider : Nat} (le : bound ≤ wider) (face : Face bound) :
    (face.widen le).toBlock = face.toBlock := by
  cases face <;> rfl

namespace Block

/-! ### Parts -/

/-- A block is found somewhere in another one: in its layers, in what its promises will load, or in
what they have loaded. -/
inductive Part (loads : Loads) (c : Block) : Block → Prop
  | refl : Part loads c c
  | elements {lists : Lists} {elements : Block} : Part loads c elements →
      Part loads c (array lists elements)
  | entries {keys : Keys} {entries : Block} : Part loads c entries →
      Part loads c (dictionary keys entries)
  | payload {promise : Promise} {payload : Block} : Part loads c payload →
      Part loads c («lazy» promise payload)
  | content {promise : Promise} {payload : Block} {content : Within payload.depth} :
      loads.content? promise.cell payload.depth = some content → Part loads c content.1 →
        Part loads c («lazy» promise payload)

theorem Part.trans {loads : Loads} {d c b : Block} (inner : Part loads d c)
    (outer : Part loads c b) : Part loads d b := by
  induction outer with
  | refl => exact inner
  | elements _ ih => exact .elements ih
  | entries _ ih => exact .entries ih
  | payload _ ih => exact .payload ih
  | content held _ ih => exact .content held ih

/-- What holds of a block and itself, and of a lazy block if it holds of what that has loaded, holds
of a block and what stands behind the loaded lazy blocks in front of it. -/
theorem face_induction {loads : Loads} {motive : Block → Block → Prop} (refl : ∀ b, motive b b)
    (content : ∀ promise payload (content : Within payload.depth) c,
      loads.content? promise.cell payload.depth = some content → motive content.1 c →
        motive («lazy» promise payload) c)
    {b : Block} {face : Face b.depth} (found : b.face? loads = some face) :
    motive b face.toBlock := by
  induction b using Block.walk with
  | step b ih =>
    rcases b with leaf | leaf | ⟨lists, elements⟩ | ⟨keys, entries⟩ | ⟨promise, payload⟩
    all_goals rw [face?] at found
    case «lazy» =>
      rcases held : loads.content? promise.cell payload.depth with - | loaded
      · rw [held] at found
        cases found
      · rw [held] at found
        obtain ⟨inner, shown, widened⟩ := Option.map_eq_some_iff.1 found
        have same : face.toBlock = inner.toBlock := widened ▸ Face.toBlock_widen _ inner
        exact same ▸ content _ _ loaded _ held (ih loaded.1 (Nat.lt_succ_of_le loaded.2) shown)
    all_goals
      obtain rfl := Option.some.inj found
      exact refl _

/-- What stands behind the loaded lazy blocks in front of a block is found in it. -/
theorem Part.of_face {loads : Loads} {b c : Block} {face : Face b.depth}
    (found : b.face? loads = some face) (part : Part loads c face.toBlock) : Part loads c b := by
  revert part
  exact face_induction (motive := fun b d ↦ Part loads c d → Part loads c b) (fun _ ↦ id)
    (fun _ _ _ _ held ih part ↦ .content held (ih part)) found

/-- Every block at every depth has fewer positions than the bound. -/
def Bounded (bound : Nat) (loads : Loads) (b : Block) : Prop :=
  ∀ c, Part loads c b → c.positionCount < bound

section Bounded

variable {bound : Nat} {loads : Loads} {lists : Lists} {keys : Keys} {c : Block}

theorem Bounded.positionCount_lt {b : Block} (bounded : b.Bounded bound loads) :
    b.positionCount < bound :=
  bounded b .refl

theorem Bounded.face {b : Block} {face : Face b.depth} (bounded : b.Bounded bound loads)
    (found : b.face? loads = some face) : face.toBlock.Bounded bound loads :=
  fun c part ↦ bounded c (.of_face found part)

theorem Bounded.elements (bounded : (array lists c).Bounded bound loads) :
    c.Bounded bound loads :=
  fun d part ↦ bounded d (.elements part)

theorem Bounded.entries (bounded : (dictionary keys c).Bounded bound loads) :
    c.Bounded bound loads :=
  fun d part ↦ bounded d (.entries part)

theorem bounded_ints {leaf : Ints} (few : leaf.count < bound) :
    (ints leaf).Bounded bound loads := by
  rintro d ⟨⟩
  exact few

theorem bounded_slices {leaf : Slices} (few : leaf.count < bound) :
    (slices leaf).Bounded bound loads := by
  rintro d ⟨⟩
  exact few

theorem bounded_array (few : lists.count < bound) (bounded : c.Bounded bound loads) :
    (array lists c).Bounded bound loads := by
  rintro d (- | part)
  · exact few
  · exact bounded d part

theorem bounded_dictionary (few : keys.count < bound) (bounded : c.Bounded bound loads) :
    (dictionary keys c).Bounded bound loads := by
  rintro d (- | - | part)
  · exact few
  · exact bounded d part

end Bounded

/-- There is room for a mask over every block at every depth. -/
def Roomy (loads : Loads) (b : Block) : Prop :=
  ∀ c, Part loads c b → c.positionCount < 2 ^ 63

theorem Roomy.positionCount_lt {loads : Loads} {b : Block} (roomy : b.Roomy loads) :
    b.positionCount < 2 ^ 63 :=
  Bounded.positionCount_lt roomy

theorem Roomy.face {loads : Loads} {b : Block} {face : Face b.depth} (roomy : b.Roomy loads)
    (found : b.face? loads = some face) : face.toBlock.Roomy loads :=
  Bounded.face roomy found

theorem Roomy.elements {loads : Loads} {lists : Lists} {elements : Block}
    (roomy : (array lists elements).Roomy loads) : elements.Roomy loads :=
  Bounded.elements roomy

theorem Roomy.entries {loads : Loads} {keys : Keys} {entries : Block}
    (roomy : (dictionary keys entries).Roomy loads) : entries.Roomy loads :=
  Bounded.entries roomy

theorem roomy_ints {loads : Loads} {leaf : Ints} (few : leaf.count < 2 ^ 63) :
    (ints leaf).Roomy loads :=
  bounded_ints few

theorem roomy_dictionary {loads : Loads} {keys : Keys} {entries : Block}
    (few : keys.count < 2 ^ 63) (roomy : entries.Roomy loads) :
    (dictionary keys entries).Roomy loads :=
  bounded_dictionary few roomy

theorem roomy_slices {loads : Loads} {leaf : Slices} (few : leaf.count < 2 ^ 63) :
    (slices leaf).Roomy loads :=
  bounded_slices few

theorem roomy_array {loads : Loads} {lists : Lists} {elements : Block} (few : lists.count < 2 ^ 63)
    (roomy : elements.Roomy loads) : (array lists elements).Roomy loads :=
  bounded_array few roomy

/-- Every block at every depth has fewer positions than an id can tell apart. -/
def Small (loads : Loads) (b : Block) : Prop :=
  ∀ c, Part loads c b → c.positionCount < 2 ^ 32 - 1

theorem Small.roomy {loads : Loads} {b : Block} (small : b.Small loads) : b.Roomy loads :=
  fun c part ↦ Nat.lt_trans (small c part) (by decide)

theorem Small.face {loads : Loads} {b : Block} {face : Face b.depth} (small : b.Small loads)
    (found : b.face? loads = some face) : face.toBlock.Small loads :=
  Bounded.face small found

theorem Small.elements {loads : Loads} {lists : Lists} {elements : Block}
    (small : (array lists elements).Small loads) : elements.Small loads :=
  Bounded.elements small

theorem Small.entries {loads : Loads} {keys : Keys} {entries : Block}
    (small : (dictionary keys entries).Small loads) : entries.Small loads :=
  Bounded.entries small

theorem small_ints {loads : Loads} {leaf : Ints} (few : leaf.count < 2 ^ 32 - 1) :
    (ints leaf).Small loads :=
  bounded_ints few

theorem small_array {loads : Loads} {lists : Lists} {elements : Block}
    (few : lists.count < 2 ^ 32 - 1) (small : elements.Small loads) :
    (array lists elements).Small loads :=
  bounded_array few small

theorem small_dictionary {loads : Loads} {keys : Keys} {entries : Block}
    (few : keys.count < 2 ^ 32 - 1) (small : entries.Small loads) :
    (dictionary keys entries).Small loads :=
  bounded_dictionary few small

/-- A promise that is not loaded is small if its payload is. -/
theorem small_lazy {loads : Loads} {promise : Promise} {payload : Block}
    (few : promise.count < 2 ^ 32 - 1) (small : payload.Small loads)
    (unloaded : loads.payloads.get? promise.cell = none) :
    («lazy» promise payload).Small loads := by
  intro c part
  cases part with
  | refl => exact few
  | payload part => exact small c part
  | content held =>
    rw [Loads.content?, unloaded] at held
    cases held

/-! ### Promises and keys in a block -/

/-- There is no promise in the block. -/
def Eager : Block → Prop
  | ints _ | slices _ => True
  | array _ elements => elements.Eager
  | dictionary _ entries => entries.Eager
  | «lazy» _ _ => False

theorem Eager.part {loads : Loads} {b c : Block} (eager : b.Eager) (part : Part loads c b) :
    c.Eager := by
  induction part with
  | refl => exact eager
  | elements _ ih => exact ih eager
  | entries _ ih => exact ih eager
  | payload => exact eager.elim
  | content => exact eager.elim

/-- No dictionary block, at any depth of what is loaded, is directly over another one. -/
def Unnested (loads : Loads) (b : Block) : Prop :=
  match b.face? loads with
  | some (.array _ elements _) => elements.Unnested loads
  | some (.dictionary _ entries _) => entries.isNested loads = false ∧ entries.Unnested loads
  | _ => True
termination_by b.depth

@[simp] theorem unnested_ints (loads : Loads) (leaf : Ints) : (ints leaf).Unnested loads := by
  rw [Unnested, face?]
  trivial

@[simp] theorem unnested_slices (loads : Loads) (leaf : Slices) :
    (slices leaf).Unnested loads := by
  rw [Unnested, face?]
  trivial

@[simp] theorem unnested_array (loads : Loads) (lists : Lists) (elements : Block) :
    (array lists elements).Unnested loads ↔ elements.Unnested loads := by
  rw [Unnested, face?]

@[simp] theorem unnested_dictionary (loads : Loads) (keys : Keys) (entries : Block) :
    (dictionary keys entries).Unnested loads ↔
      entries.isNested loads = false ∧ entries.Unnested loads := by
  rw [Unnested, face?]

/-- All of the block is loaded, and there is no dictionary block in it. -/
def Keyless (loads : Loads) (b : Block) : Prop :=
  match b.face? loads with
  | some (.ints _) | some (.slices _) => True
  | some (.array _ elements _) => elements.Keyless loads
  | _ => False
termination_by b.depth

@[simp] theorem keyless_ints (loads : Loads) (leaf : Ints) : (ints leaf).Keyless loads := by
  rw [Keyless, face?]
  trivial

@[simp] theorem keyless_slices (loads : Loads) (leaf : Slices) : (slices leaf).Keyless loads := by
  rw [Keyless, face?]
  trivial

@[simp] theorem keyless_array (loads : Loads) (lists : Lists) (elements : Block) :
    (array lists elements).Keyless loads ↔ elements.Keyless loads := by
  rw [Keyless, face?]

@[simp] theorem not_keyless_dictionary (loads : Loads) (keys : Keys) (entries : Block) :
    ¬ (dictionary keys entries).Keyless loads := by
  rw [Keyless, face?]
  exact id

/-- What stands behind a block has no keys if the block has none. -/
theorem Keyless.face {loads : Loads} {b : Block} {face : Face b.depth} (keyless : b.Keyless loads)
    (found : b.face? loads = some face) : face.toBlock.Keyless loads := by
  rw [Keyless, found] at keyless
  rcases face with leaf | leaf | ⟨lists, elements, below⟩ | ⟨keys, entries, below⟩
  · exact keyless_ints loads leaf
  · exact keyless_slices loads leaf
  · exact (keyless_array loads lists elements).2 keyless
  · exact keyless.elim

theorem Keyless.unnested {loads : Loads} {b : Block} (keyless : b.Keyless loads) :
    b.Unnested loads := by
  induction b using Block.walk with
  | step b ih =>
    rw [Keyless] at keyless
    rw [Unnested]
    split
    next shown =>
      rw [shown] at keyless
      exact ih _ ‹_› keyless
    next shown =>
      rw [shown] at keyless
      exact keyless.elim
    next => trivial

theorem Keyless.isNested_eq_false {loads : Loads} {b : Block} (keyless : b.Keyless loads) :
    b.isNested loads = false := by
  rw [Keyless] at keyless
  rw [isNested, resolved?]
  split
  next shown =>
    rw [shown] at keyless
    exact keyless.elim
  next => rfl

/-! ### What is cut from a block -/

/-- A part that is found before anything is loaded is found whatever is loaded. -/
theorem Part.of_empty {c b : Block} (part : Part .empty c b) (loads : Loads) :
    Part loads c b := by
  induction part with
  | refl => exact .refl
  | elements _ ih => exact .elements ih
  | entries _ ih => exact .entries ih
  | payload _ ih => exact .payload ih
  | content held _ _ =>
    rw [Loads.content?, Loads.empty, Slots.get?_empty] at held
    cases held

theorem Small.of_loads {loads : Loads} {b : Block} (small : b.Small loads) : b.Small .empty :=
  fun c part ↦ small c (part.of_empty loads)

/-- Every part of the first block is a window of a part of the second one, before anything is
loaded. -/
def CutFrom (c b : Block) : Prop :=
  ∀ x, Part .empty x c → ∃ y, Part .empty y b ∧ x.positionCount ≤ y.positionCount ∧
    ∀ keys entries, x = dictionary keys entries → ∃ others, y = dictionary others entries

namespace CutFrom

theorem refl (b : Block) : b.CutFrom b :=
  fun x part ↦ ⟨x, part, Nat.le_refl _, fun keys _ same ↦ ⟨keys, same⟩⟩

theorem trans {a b c : Block} (first : a.CutFrom b) (second : b.CutFrom c) : a.CutFrom c := by
  intro x part
  obtain ⟨y, found, le, same⟩ := first x part
  obtain ⟨z, there, more, again⟩ := second y found
  refine ⟨z, there, Nat.le_trans le more, fun keys entries is ↦ ?_⟩
  obtain ⟨others, rfl⟩ := same keys entries is
  exact again others entries rfl

theorem small {c b : Block} (cut : c.CutFrom b) (small : b.Small .empty) : c.Small .empty := by
  intro x part
  obtain ⟨y, found, le, -⟩ := cut x part
  exact Nat.lt_of_le_of_lt le (small y found)

/-- A leaf is cut from a leaf that is as long. -/
theorem leaf {c b : Block} (alone : ∀ x, Part .empty x c → x = c)
    (bare : ∀ keys entries, c ≠ dictionary keys entries)
    (le : c.positionCount ≤ b.positionCount) : c.CutFrom b := by
  intro x part
  obtain rfl := alone x part
  exact ⟨b, .refl, le, fun keys entries same ↦ absurd same (bare keys entries)⟩

theorem ints {leaf : Ints} {b : Block} (le : leaf.count ≤ b.positionCount) :
    (Block.ints leaf).CutFrom b :=
  CutFrom.leaf (fun _ part ↦ by cases part; rfl) (by rintro _ _ ⟨⟩) le

theorem slices {leaf : Slices} {b : Block} (le : leaf.count ≤ b.positionCount) :
    (Block.slices leaf).CutFrom b :=
  CutFrom.leaf (fun _ part ↦ by cases part; rfl) (by rintro _ _ ⟨⟩) le

theorem array {lists others : Lists} {elements : Block} (le : lists.count ≤ others.count) :
    (Block.array lists elements).CutFrom (.array others elements) := by
  intro x part
  cases part with
  | refl => exact ⟨_, .refl, le, by rintro _ _ ⟨⟩⟩
  | elements part => exact ⟨x, .elements part, Nat.le_refl _, fun keys _ same ↦ ⟨keys, same⟩⟩

theorem dictionary {keys others : Keys} {entries : Block} (le : keys.count ≤ others.count) :
    (Block.dictionary keys entries).CutFrom (.dictionary others entries) := by
  intro x part
  cases part with
  | refl => exact ⟨_, .refl, le, by rintro _ _ ⟨⟩; exact ⟨others, rfl⟩⟩
  | entries part => exact ⟨x, .entries part, Nat.le_refl _, fun keys _ same ↦ ⟨keys, same⟩⟩

/-- A window of a promise that is not loaded is cut from the promise. -/
theorem «lazy» {promise other : Promise} {payload : Block} (le : promise.count ≤ other.count) :
    (Block.lazy promise payload).CutFrom (.lazy other payload) := by
  intro x part
  cases part with
  | refl => exact ⟨_, .refl, le, by rintro _ _ ⟨⟩⟩
  | payload part => exact ⟨x, .payload part, Nat.le_refl _, fun keys _ same ↦ ⟨keys, same⟩⟩
  | content held _ =>
    rw [Loads.content?, Loads.empty, Slots.get?_empty] at held
    cases held

/-- What is found in a block is cut from it. -/
theorem of_part {c b : Block} (part : Part .empty c b) : c.CutFrom b :=
  fun x found ↦ ⟨x, found.trans part, Nat.le_refl _, fun keys _ same ↦ ⟨keys, same⟩⟩

/-- What is cut from a payload is cut from the promise. -/
theorem of_payload {c payload : Block} (cut : c.CutFrom payload) (promise : Promise) :
    c.CutFrom (Block.lazy promise payload) :=
  cut.trans (.of_part (.payload .refl))

end CutFrom

end Block

end BatchColumn
