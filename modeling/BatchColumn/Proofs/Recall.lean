import BatchColumn.Proofs.Worlds
import Mathlib

/-!
# When remembered sizes stand

A size that is remembered is never taken back, and a lazy block counts for nothing until it is
loaded. So what is remembered of a block **stands** — it is what would be worked out now, at every
depth (`Block.Stands`) — until something in the block is loaded, and need not stand afterwards.

* As long as nothing in a block was ever loaded, what is remembered of it stands, in every reachable
  world (`Reachable.stands`).
* What stands in one world stands in all worlds that it leads to without loading anything in the
  block (`World.Leads.stands`).
* Of a block of which everything stands, the layer that is asked for a size might as well remember
  nothing (`Sound.recalls_of_stands`).

Loading is what makes the difference: the size that `World.loaded` remembers is not that of its one
region.
-/

namespace BatchColumn

variable {K : Census}

/-! ### What stands -/

/-- What is remembered of a block, at every depth, is what is worked out now. -/
def Block.Stands (store : Store) (b : Block) : Prop :=
  ∀ c, Part store.loads c b → ∀ n, c.identity? = some n →
    (store.ledger.memo n).Right store.loads c

theorem Block.Stands.part {store : Store} {b c : Block} (stands : b.Stands store)
    (part : Part store.loads c b) : c.Stands store :=
  fun d inner ↦ stands d (inner.trans part)

namespace Sound

section Loads

variable {loads : Loads} {ledger : Ledger} (sound : Sound K loads ledger)

include sound

/-- What is remembered of a block that is followed stands. -/
theorem stands_of_follows {b : Block} (mem : b ∈ K) {since : Loads}
    (follows : K.Follows since loads b) : b.Stands ⟨loads, ledger⟩ := by
  intro c part n own
  have followed := follows.part (follows.2.part_of_part part)
  exact (Memo.right_iff_of_unmoved followed.2).2
    (sound.figured.right c (sound.part_mem part mem) n own since followed)

/-- A call that loads nothing may be made while a block of which everything stands is watched. -/
theorem exists_watched {α : Type} {query : Query α} {post : Census → α → Prop}
    {refuse : Fault → Prop} {b : Block} (mem : b ∈ K) (stands : b.Stands ⟨loads, ledger⟩)
    (meets : query.Meets (K.watch loads b) loads post refuse) :
    ∃ L, Sound L loads (query.outcome loads ledger).2 ∧ b ∈ L ∧ L.Follows loads loads b ∧
      Ends (query.outcome loads ledger).1 (post L) refuse := by
  obtain ⟨-, L, le, later, ends⟩ := meets ledger (sound.watch mem stands)
  have watched : (loads, b) ∈ L.watched := le.watched ▸ .inl rfl
  exact ⟨L, later, Census.mem_of_le le mem, ⟨.inr ⟨b, watched, .refl⟩, .refl loads b⟩, ends⟩

/-- What stands of a block stands after any call that loads nothing. -/
theorem stands_of_meets {α : Type} {query : Query α} {post : Census → α → Prop}
    {refuse : Fault → Prop} {b : Block} (mem : b ∈ K) (stands : b.Stands ⟨loads, ledger⟩)
    (meets : query.Meets (K.watch loads b) loads post refuse) :
    b.Stands ⟨loads, (query.outcome loads ledger).2⟩ := by
  obtain ⟨L, later, there, follows, -⟩ := sound.exists_watched mem stands meets
  exact later.stands_of_follows there follows

/-- Of a block of which everything stands, an extent is sized as it is worked out. -/
theorem sizeOf_of_stands {b : Block} (mem : b ∈ K) (stands : b.Stands ⟨loads, ledger⟩)
    (roomy : b.Roomy loads) {extent : Extent}
    (fits : extent.offset + extent.length b.positionCount ≤ b.positionCount) :
    ∃ n, ((b.sizeOf extent).outcome loads ledger).1 = .ok n ∧ b.plainSize loads extent = .ok n := by
  obtain ⟨L, -, -, follows, ends⟩ := sound.exists_watched mem stands
    (Block.sizeOf_meets (K := K.watch loads b) mem extent)
  rcases run : ((b.sizeOf extent).outcome loads ledger).1 with fault | n
  all_goals rw [run] at ends
  · exact absurd ⟨fits, .inl roomy⟩ ends
  · exact ⟨n, rfl, ends loads follows⟩

/-- Of a block of which everything stands, the logical size is what is worked out, a word or not. -/
theorem logicalSize_of_stands {b : Block} (mem : b ∈ K) (stands : b.Stands ⟨loads, ledger⟩)
    (small : b.Small loads) :
    (b.logicalSize.outcome loads ledger).1 = b.plainLogicalSize loads := by
  obtain ⟨L, -, -, follows, ends⟩ := sound.exists_watched mem stands
    (Block.logicalSize_meets (K := K.watch loads b) mem)
  rcases run : (b.logicalSize.outcome loads ledger).1 with fault | n
  all_goals rw [run] at ends
  · obtain ⟨rfl, passed⟩ := ends small
    exact (passed loads ⟨.inr ⟨b, .inl rfl, .refl⟩, .refl loads b⟩).symm
  · exact (ends loads follows).symm

/-- The logical size that is worked out for keys is the sum of the sizes of their entries. -/
theorem exists_plainLogicalSize {keys : Keys} {entries : Block} (mem : .dictionary keys entries ∈ K)
    (stands : (Block.dictionary keys entries).Stands ⟨loads, ledger⟩)
    (small : (Block.dictionary keys entries).Small loads) :
    ∃ n, (Block.dictionary keys entries).plainLogicalSize loads = checkSize n := by
  have few := small.entries
  have each : ∀ id ∈ keys.toList, ∃ n, entries.plainEntrySize loads id = .ok n := fun id listed ↦ by
    have inside : id < entries.positionCount := sound.formed _ mem id listed
    obtain ⟨n, -, worked⟩ := sound.sizeOf_of_stands (sound.entries_mem mem)
      (stands.part (.entries .refl)) few.roomy
      (show Extent.offset (.region id 1) + Extent.length entries.positionCount (.region id 1) ≤
        entries.positionCount from inside)
    rw [Block.plainEntrySize, if_neg (Nat.not_le.2 inside)]
    exact ⟨n, worked⟩
  have room : allocate entries.positionCount optionalSize = .ok () := by
    refine allocate_of_lt ?_
    have := few entries .refl
    rw [optionalSize]
    omega
  refine ⟨(keys.toList.map fun id ↦ (entries.plainEntrySize loads id).toOption.getD 0).sum, ?_⟩
  rw [Block.plainLogicalSize, Block.face?]
  simp only [room, ok_bind]
  refine sumOver_eq_checkSize fun id listed ↦ .inl ?_
  obtain ⟨n, worked⟩ := each id listed
  rw [worked]
  rfl

end Loads

end Sound

/-! ### Asking, remembered or not -/

/-- The same keys, under a memory that remembers nothing. -/
def Keys.forget (keys : Keys) : Query Keys := do
  return { keys with memory := ← Ledger.fresh }

/-- What the layer of a block remembers makes no difference to its sizes: the size of lists is that
of the region of all of them, and the sizes of keys are those of the same keys that remember
nothing. A logical size that is no word is none either way. -/
def Block.Recalls (store : Store) : Block → Prop
  | array lists elements =>
    ∃ n, ((array lists elements).size.outcome store.loads store.ledger).1 = .ok n ∧
      (((array lists elements).regionSize 0 lists.count).outcome store.loads store.ledger).1 = .ok n
  | dictionary keys entries =>
    (∃ n, ((dictionary keys entries).size.outcome store.loads store.ledger).1 = .ok n ∧
      (Query.outcome (do (dictionary (← keys.forget) entries).size)
        store.loads store.ledger).1 = .ok n) ∧
    ∃ n, ((dictionary keys entries).logicalSize.outcome store.loads store.ledger).1 = checkSize n ∧
      (Query.outcome (do (dictionary (← keys.forget) entries).logicalSize)
        store.loads store.ledger).1 = checkSize n
  | _ => True

namespace Sound

variable {store : Store} (sound : Sound K store.loads store.ledger)

include sound

/-- Of keys that remember nothing, all stands that stands of their entries. -/
theorem stands_of_forget {keys : Keys} {entries : Block} (mem : .dictionary keys entries ∈ K)
    (stands : (Block.dictionary keys entries).Stands store) :
    ∃ L, Sound L store.loads { store.ledger with next := store.ledger.next + 1 } ∧
      .dictionary { keys with memory := store.ledger.next } entries ∈ L ∧
      (Block.dictionary { keys with memory := store.ledger.next } entries).Stands
        ⟨store.loads, { store.ledger with next := store.ledger.next + 1 }⟩ := by
  let b : Block := .dictionary { keys with memory := store.ledger.next } entries
  refine ⟨_, sound.add_fresh (b := b) rfl (by simpa [b, Block.parts] using sound.entries_mem mem)
    (show b.Formed from sound.formed (.dictionary keys entries) mem)
    (.dictionary (show keys.ids.storage ∈ K.issued from sound.ids_issued mem))
    (.inr ⟨keys, mem, rfl, rfl⟩), K.mem_add_self b, fun c part n own ↦ ?_⟩
  cases part with
  | refl =>
    obtain rfl : store.ledger.next = n := Option.some.inj own
    have blank := (sound.blank store.ledger.next (Nat.le_refl _)).1
    change (store.ledger.memo store.ledger.next).Right _ _
    exact blank ▸ Memo.right_blank _ _
  | entries part => exact stands c (.entries part) n own

/-- **A layer of which everything stands might as well remember nothing.** -/
theorem recalls_of_stands {b : Block} (mem : b ∈ K) (stands : b.Stands store)
    (small : b.Small store.loads) : b.Recalls store := by
  rcases b with leaf | leaf | ⟨lists, elements⟩ | ⟨keys, entries⟩ | ⟨promise, payload⟩
  case array =>
    obtain ⟨n, run, worked⟩ :=
      sound.sizeOf_of_stands mem stands small.roomy (Extent.fits_all lists.count)
    obtain ⟨m, region, again⟩ := sound.sizeOf_of_stands mem stands small.roomy
      (show Extent.offset (.region 0 lists.count) +
        Extent.length lists.count (.region 0 lists.count) ≤ lists.count from (Nat.zero_add _).le)
    rw [Block.plainSize_array_region, worked] at again
    obtain rfl : n = m := Except.ok.inj again
    exact ⟨n, run, region⟩
  case dictionary =>
    let others : Keys := { keys with memory := store.ledger.next }
    obtain ⟨L, forgot, there, stands'⟩ := sound.stands_of_forget mem stands
    have small' : (Block.dictionary others entries).Small store.loads :=
      Block.small_dictionary (show keys.count < 2 ^ 32 - 1 from small _ .refl) small.entries
    have same : others.toList = keys.toList := rfl
    constructor
    · obtain ⟨n, run, worked⟩ :=
        sound.sizeOf_of_stands mem stands small.roomy (Extent.fits_all keys.count)
      obtain ⟨m, anew, again⟩ :=
        forgot.sizeOf_of_stands there stands' small'.roomy (Extent.fits_all others.count)
      rw [Block.plainSize_dictionary_congr same, worked] at again
      obtain rfl : n = m := Except.ok.inj again
      exact ⟨n, run, anew⟩
    · obtain ⟨n, worked⟩ := sound.exists_plainLogicalSize mem stands small
      refine ⟨n, (sound.logicalSize_of_stands mem stands small).trans worked, ?_⟩
      refine (forgot.logicalSize_of_stands there stands' small').trans ?_
      rw [Block.plainLogicalSize_dictionary_congr same, worked]
  all_goals trivial

end Sound

/-! ### From world to world -/

/-- **What was remembered of a block in which nothing was ever loaded stands.** -/
theorem Reachable.stands {w : World} (reachable : Reachable w) {b : Block} (held : b ∈ w.blocks)
    (unmoved : b.Unmoved .empty w.store.loads) : b.Stands w.store := by
  obtain ⟨K, sound, known⟩ := reachable.sound
  exact sound.stands_of_follows (known b held) ⟨.inl rfl, unmoved⟩

/-- **What stands in one world stands in every later one**, unless something in the block was
loaded. -/
theorem World.Leads.stands {w₀ w : World} (reachable : Reachable w₀)
    (leads : w₀.Leads (fun _ ↦ True) w) {b : Block} (held : b ∈ w₀.blocks)
    (stands : b.Stands w₀.store) (unmoved : b.Unmoved w₀.store.loads w.store.loads) :
    b.Stands w.store := by
  obtain ⟨K, given, sound, known⟩ := reachable.counts
  have any : ∀ call : Call, True → call.Gives (K.watch w₀.store.loads b).given := fun call _ ↦ by
    rw [show (K.watch w₀.store.loads b).given = .univ from given]
    exact call.gives_univ
  -- The block is watched from the first world on.
  obtain ⟨L, le, later, -⟩ := (leads.mono any).counts ⟨sound.watch (known b held) stands, known⟩
  have watched : (w₀.store.loads, b) ∈ L.watched := le.watched ▸ .inl rfl
  exact later.stands_of_follows (Census.mem_of_le le (known b held))
    ⟨.inr ⟨b, watched, .refl⟩, unmoved⟩

/-- Nothing in the block was loaded since what is remembered of it stood. -/
def World.Steady (w : World) (b : Block) : Prop :=
  b.Unmoved .empty w.store.loads ∨
    ∃ w₀, Reachable w₀ ∧ w₀.Leads (fun _ ↦ True) w ∧ b ∈ w₀.blocks ∧ b.Stands w₀.store ∧
      b.Unmoved w₀.store.loads w.store.loads

/-- A block is steady if nothing in it was loaded since a time when nothing was remembered of it. -/
theorem World.Leads.steady_of_blank {w₀ w : World} (reachable : Reachable w₀)
    (leads : w₀.Leads (fun _ ↦ True) w) {b : Block} (held : b ∈ w₀.blocks)
    (blank : ∀ c, Block.Part w₀.store.loads c b → ∀ n, c.identity? = some n →
      w₀.store.ledger.memo n = .blank)
    (unmoved : b.Unmoved w₀.store.loads w.store.loads) : w.Steady b :=
  .inr ⟨w₀, reachable, leads, held,
    fun c part n own ↦ blank c part n own ▸ Memo.right_blank _ c, unmoved⟩

/-- Of a block that is steady everything stands. -/
theorem Reachable.stands_of_steady {w : World} (reachable : Reachable w) {b : Block}
    (held : b ∈ w.blocks) (steady : w.Steady b) : b.Stands w.store := by
  rcases steady with unmoved | ⟨w₀, first, leads, there, stands, unmoved⟩
  · exact reachable.stands held unmoved
  · exact leads.stands first there stands unmoved

/-- **Remembered sizes go stale by loading alone.** If nothing in a block was loaded since what is
remembered of it stood, no layer in it would answer otherwise if it remembered nothing. -/
theorem Reachable.recalls {w : World} (reachable : Reachable w) {b : Block} (held : b ∈ w.blocks)
    (small : b.Small w.store.loads) (steady : w.Steady b) :
    ∀ c, Block.Part w.store.loads c b → c.Recalls w.store := by
  have stands := reachable.stands_of_steady held steady
  obtain ⟨K, sound, known⟩ := reachable.sound
  exact fun c part ↦ sound.recalls_of_stands (sound.part_mem part (known b held)) (stands.part part)
    fun d inner ↦ small d (inner.trans part)

/-! ### A size that does not stand -/

namespace World

/-- Lists of the promised integers, one of one and one of two. -/
def deferredLists : Lists := .ofEnds 4 5 6 0 [1, 3] (.ofFlags? 3 none)

/-- The world that holds the lists as well. -/
def listed : World :=
  deferred.after (.array deferredBlock [0, 1, 3] none)

theorem blocks_listed :
    listed.blocks = [.array deferredLists deferredBlock, deferredBlock, deferredLeaf] := rfl

theorem reachable_listed : Reachable listed :=
  reachable_deferred.after (by simp [Call.operands, blocks_deferred])
    (show ∀ offset ∈ [0, 1, 3], offset < 2 ^ 32 by decide)

/-- The world in which the lists were sized. -/
def sized : World :=
  listed.after (.ask (.size (.array deferredLists deferredBlock) .all))

theorem blocks_sized : sized.blocks = listed.blocks := by
  cbv

theorem reachable_sized : Reachable sized :=
  reachable_listed.after (by simp [Call.operands, Question.operands, blocks_listed]) trivial

/-- The size of the lists is remembered. Nothing was loaded since, so it is still that of their one
region. -/
theorem recalls_sized : sized.store.ledger.sizes.get? deferredLists.memory = some 10 ∧
    (Block.array deferredLists deferredBlock).Recalls sized.store := by
  have unloaded : sized.store.loads = .empty := by cbv
  have small : (Block.array deferredLists deferredBlock).Small sized.store.loads :=
    Block.small_array (by decide) (small_deferredBlock (by rw [unloaded]; rfl))
  have steady : sized.Steady (.array deferredLists deferredBlock) :=
    .inl (unloaded ▸ .refl _ _)
  exact ⟨by cbv, Reachable.recalls reachable_sized (by simp [blocks_sized, blocks_listed]) small
    steady _ .refl⟩

/-- The world in which they were loaded after that. -/
def loaded : World :=
  sized.after (.load ⟨⟨2, 3, fun _ ↦ none⟩, []⟩ deferredLeaf)

theorem blocks_loaded : loaded.blocks = deferredLeaf :: listed.blocks := by
  cbv

theorem reachable_loaded : Reachable loaded := by
  refine reachable_sized.after ?_ trivial
  simp [Call.operands, blocks_sized, blocks_listed, deferredBlock]

/-- **The size that is remembered is not that of the region**, though the lists are small and their
promises were kept. -/
theorem not_recalls_loaded : Reachable loaded ∧
    .array deferredLists deferredBlock ∈ loaded.blocks ∧
    (Block.array deferredLists deferredBlock).Loadable ∧
    ((Block.array deferredLists deferredBlock).size.outcome loaded.store.loads
      loaded.store.ledger).1 = .ok 10 ∧
    (((Block.array deferredLists deferredBlock).regionSize 0 2).outcome loaded.store.loads
      loaded.store.ledger).1 = .ok 37 := by
  refine ⟨reachable_loaded, by simp [blocks_loaded, blocks_listed], loadable_deferredBlock, ?_, ?_⟩
  · cbv
  · cbv

end World

end BatchColumn
