import BatchColumn.Proofs.Census

/-!
# What loaders deliver

A call of a loader **fails** if it reports an error, or if what it hands over is not as long as
promised; then it leaves nothing behind. A call that does not fail is the last one: it fills the
cell of the promise with the payload, and the loader is not called again (`Root.Produced`).

A window of a promise that is not loaded has a cell of its own, which is filled from the cell of the
promise that the window was taken of. So along a chain of windows of windows the cells are filled
from the payload on (`Delivered.chained`), and every way to a loader leads through the cell of its
promise.

`Delivered` is the part of the soundness of a store that says so, for all promises of a census. A
store changes by calls of loaders and by what they deliver in four ways, one lemma each: a call on
behalf of a window (`Delivered.call_window`), a call of a loader that fails (`Delivered.fail`), one
that does not (`Delivered.deliver`), and a window that is filled (`Delivered.fill`).
-/

namespace BatchColumn

@[simp] theorem Loads.callCount_call (loads : Loads) (cell n : Nat) :
    (loads.call cell).callCount n = loads.callCount n + if n = cell then 1 else 0 := by
  rw [callCount, call, callCount, List.count_cons]
  simp only [beq_iff_eq, eq_comm (a := n)]

@[simp] theorem Loads.callCount_publish (loads : Loads) (cell n : Nat) (block : Block) :
    (loads.publish cell block).callCount n = loads.callCount n := rfl

namespace Root

/-- The `n`-th call of the loader brings nothing. It reports an error, or it hands over a block of
another length than promised. A loader that does so on some of its calls only reports
`Error.miscounted` on these: the block handed over is dropped. -/
def Fails (root : Root) (payload : Block) (n : Nat) : Prop :=
  root.refusal n ≠ none ∨ payload.positionCount ≠ root.count

/-- **The payload is produced at most once.** As long as it is not loaded, all calls of the loader
have failed. Once it is, the last call has brought it, and all calls before that have failed. -/
structure Produced (root : Root) (payload : Block) (loads : Loads) : Prop where
  /-- Nothing is loaded. -/
  pending : loads.payloads.get? root.cell = none →
    ∀ n < loads.callCount root.cell, root.Fails payload n
  /-- The payload is loaded. -/
  settled : ∀ content, loads.payloads.get? root.cell = some content → content = payload ∧
    ∃ last, loads.callCount root.cell = last + 1 ∧ ¬ root.Fails payload last ∧
      ∀ n < last, root.Fails payload n

variable {root : Root} {payload : Block} {loads : Loads}

/-- What happens to other cells, and calls of other loaders, do not matter. -/
theorem Produced.congr (produced : root.Produced payload loads) {later : Loads}
    (same : later.payloads.get? root.cell = loads.payloads.get? root.cell)
    (calls : later.callCount root.cell = loads.callCount root.cell) :
    root.Produced payload later := by
  refine ⟨fun unloaded ↦ ?_, fun content held ↦ ?_⟩
  · rw [calls]
    exact produced.pending (same ▸ unloaded)
  · rw [calls]
    exact produced.settled content (same ▸ held)

/-- Once the payload is loaded, all stores agree on how often the loader was called. -/
theorem Produced.callCount_eq (produced : root.Produced payload loads) {later : Loads}
    (still : root.Produced payload later) {content : Block}
    (held : loads.payloads.get? root.cell = some content)
    (kept : later.payloads.get? root.cell = some content) :
    later.callCount root.cell = loads.callCount root.cell := by
  obtain ⟨-, last, calls, brought, failed⟩ := produced.settled content held
  obtain ⟨-, other, count, success, failures⟩ := still.settled content kept
  -- The first call that does not fail is the last one in both.
  rcases Nat.lt_trichotomy last other with before | rfl | after
  · exact absurd (failures last before) brought
  · rw [calls, count]
  · exact absurd (failed other after) success

end Root

/-- **Loaders deliver once, and windows are filled from what they were taken of.** -/
structure Delivered (K : Census) (loads : Loads) (ledger : Ledger) : Prop where
  /-- What was seen to be loaded is. -/
  past : K.seen.Grows loads.payloads
  /-- No loader is called under an identity that was not given out. -/
  uncalled : ∀ n, ledger.next ≤ n → loads.callCount n = 0
  /-- Every payload is produced at most once. -/
  produced : ∀ root payload, .lazy ⟨root, []⟩ payload ∈ K → root.Produced payload loads
  /-- What a window was taken of is loaded before the window. -/
  chained : ∀ root window windows payload, .lazy ⟨root, window :: windows⟩ payload ∈ K →
    (loads.payloads.get? window.cell).isSome →
      (loads.payloads.get? (Promise.cell ⟨root, windows⟩)).isSome
  /-- What is loaded is no deeper than the payload. -/
  shallow : ∀ promise payload, .lazy promise payload ∈ K →
    ∀ content, loads.payloads.get? promise.cell = some content → content.depth ≤ payload.depth

namespace Delivered

variable {K : Census} {loads : Loads} {ledger : Ledger}

protected theorem empty (given : Set SourceId) (selects : Prop) :
    Delivered (.empty given selects) .empty .empty where
  past _ _ := id
  uncalled _ _ := rfl
  produced _ _ mem := mem.elim
  chained _ _ _ _ mem := mem.elim
  shallow _ _ mem := mem.elim

variable (delivered : Delivered K loads ledger)

include delivered

/-- What a promise has loaded is found in its cell. -/
theorem content?_eq {promise : Promise} {payload content : Block}
    (mem : .lazy promise payload ∈ K) (held : loads.payloads.get? promise.cell = some content) :
    ∃ within, loads.content? promise.cell payload.depth = some ⟨content, within⟩ :=
  ⟨delivered.shallow promise payload mem content held, by
    rw [Loads.content?, held]
    exact dif_pos _⟩

/-- A promise has loaded nothing just if its cell is empty. -/
theorem content?_eq_none_iff {promise : Promise} {payload : Block}
    (mem : .lazy promise payload ∈ K) :
    loads.content? promise.cell payload.depth = none ↔
      loads.payloads.get? promise.cell = none := by
  rcases held : loads.payloads.get? promise.cell with - | content
  · simp [Loads.content?, held]
  · obtain ⟨within, found⟩ := delivered.content?_eq mem held
    simp [found]

/-- Only the blocks of a census and what was seen matter. -/
theorem of_census {L : Census} (blocks : L.blocks = K.blocks) (seen : L.seen = K.seen) :
    Delivered L loads ledger := by
  obtain ⟨_, _, _, _, _, _, _, _, _, _⟩ := L
  subst blocks seen
  exact ⟨delivered.past, delivered.uncalled, delivered.produced, delivered.chained,
    delivered.shallow⟩

/-- More identities may be given out. -/
theorem mono {after : Ledger} (le : ledger.next ≤ after.next) : Delivered K loads after :=
  { delivered with uncalled := fun n beyond ↦ delivered.uncalled n (le.trans beyond) }

/-- What is loaded may be seen. -/
theorem note : Delivered (K.note loads) loads ledger :=
  { delivered with past := fun _ _ ↦ id }

/-- A block joins the census if nothing is known of its cell. -/
theorem add {b : Block} (blank : ∀ promise payload, b = .lazy promise payload →
    loads.payloads.get? promise.cell = none ∧ loads.callCount promise.cell = 0) :
    Delivered (K.add b) loads ledger where
  past := delivered.past
  uncalled := delivered.uncalled
  produced := by
    rintro root payload (same | mem)
    · obtain ⟨unloaded, uncalled⟩ := blank _ _ same.symm
      refine ⟨fun _ n called ↦ ?_, fun content held ↦ ?_⟩
      · change loads.callCount root.cell = 0 at uncalled
        omega
      · cases unloaded.symm.trans held
    · exact delivered.produced root payload mem
  chained := by
    rintro root window windows payload (same | mem) held
    · obtain ⟨unloaded, -⟩ := blank _ _ same.symm
      change loads.payloads.get? window.cell = none at unloaded
      simp [unloaded] at held
    · exact delivered.chained root window windows payload mem held
  shallow := by
    rintro promise payload (same | mem) content held
    · cases (blank _ _ same.symm).1.symm.trans held
    · exact delivered.shallow promise payload mem content held

/-! ### Calls of loaders -/

section Calls

variable (distinct : ∀ b ∈ K, ∀ c ∈ K, ∀ n, b.identity? = some n → c.identity? = some n → b = c)
  (spent : ∀ b ∈ K, ∀ n, b.identity? = some n → n < ledger.next)

include spent

omit delivered in
/-- Calls under the cell of a block that exists are calls under an identity that was given out. -/
theorem uncalled_call {promise : Promise} {payload : Block} (mem : .lazy promise payload ∈ K)
    (uncalled : ∀ n, ledger.next ≤ n → loads.callCount n = 0) (n : Nat)
    (beyond : ledger.next ≤ n) : (loads.call promise.cell).callCount n = 0 := by
  have old := spent _ mem promise.cell rfl
  rw [Loads.callCount_call, uncalled n beyond, if_neg (by omega)]

include distinct

omit delivered spent in
/-- One cell is that of one promise. -/
theorem eq_of_cell {promise other : Promise} {payload others : Block}
    (mem : .lazy promise payload ∈ K) (there : .lazy other others ∈ K)
    (same : other.cell = promise.cell) : other = promise ∧ others = payload := by
  simpa using distinct _ there _ mem promise.cell (congrArg some same) rfl

/-- A call that is made on behalf of a window is not one of a loader. -/
theorem call_window {root : Root} {window : Window} {windows : List Window} {payload : Block}
    (mem : .lazy ⟨root, window :: windows⟩ payload ∈ K) :
    Delivered K (loads.call window.cell) ledger :=
  { delivered with
    uncalled := uncalled_call spent mem delivered.uncalled
    produced := fun other others there ↦ (delivered.produced other others there).congr rfl <| by
      have unlike : other.cell ≠ window.cell := fun same ↦ by
        cases (eq_of_cell distinct mem there same).1
      rw [Loads.callCount_call, if_neg unlike, Nat.add_zero] }

/-- A call of a loader that fails leaves nothing behind. -/
theorem fail {root : Root} {payload : Block} (mem : .lazy ⟨root, []⟩ payload ∈ K)
    (unloaded : loads.payloads.get? root.cell = none)
    (fails : root.Fails payload (loads.callCount root.cell)) :
    Delivered K (loads.call root.cell) ledger :=
  { delivered with
    uncalled := uncalled_call spent mem delivered.uncalled
    produced := fun other others there ↦ by
      by_cases same : other.cell = root.cell
      · obtain ⟨⟨⟩, rfl⟩ := eq_of_cell distinct mem there same
        refine ⟨fun _ n called ↦ ?_, fun content held ↦ ?_⟩
        · rw [Loads.callCount_call, if_pos rfl] at called
          rcases Nat.lt_succ_iff_lt_or_eq.1 called with before | rfl
          · exact (delivered.produced _ _ mem).pending unloaded n before
          · exact fails
        · cases unloaded.symm.trans held
      · refine (delivered.produced other others there).congr rfl ?_
        rw [Loads.callCount_call, if_neg same, Nat.add_zero] }

omit spent in
/-- A cell is filled, and loaders may have been called. The cell of a window is filled after that of
what the window was taken of. -/
theorem publish {promise : Promise} {payload content : Block} (mem : .lazy promise payload ∈ K)
    (source : ∀ root window windows, promise = ⟨root, window :: windows⟩ →
      (loads.payloads.get? (Promise.cell ⟨root, windows⟩)).isSome)
    (within : content.depth ≤ payload.depth) (calls : List Nat)
    (uncalled : ∀ n, ledger.next ≤ n → calls.count n = 0)
    (produced : ∀ root payload, .lazy ⟨root, []⟩ payload ∈ K →
      root.Produced payload ⟨loads.payloads.publish promise.cell content, calls⟩) :
    Delivered K ⟨loads.payloads.publish promise.cell content, calls⟩ ledger := by
  have more : loads.payloads.Grows (loads.payloads.publish promise.cell content) :=
    loads.payloads.grows_publish _ _
  have still : ∀ n, (loads.payloads.get? n).isSome →
      ((loads.payloads.publish promise.cell content).get? n).isSome := fun n held ↦ by
    obtain ⟨before, held⟩ := Option.isSome_iff_exists.1 held
    exact Option.isSome_iff_exists.2 ⟨before, more n before held⟩
  refine ⟨delivered.past.trans more, uncalled, produced,
    fun root window windows others there held ↦ still _ ?_, fun other others there held found ↦ ?_⟩
  · by_cases same : window.cell = promise.cell
    · exact source root window windows (eq_of_cell distinct mem there same).1.symm
    · rw [Slots.get?_publish, if_neg same] at held
      exact delivered.chained root window windows others there held
  · by_cases same : other.cell = promise.cell
    · obtain ⟨rfl, rfl⟩ := eq_of_cell distinct mem there same
      rw [Slots.get?_publish, if_pos rfl] at found
      rcases before : loads.payloads.get? other.cell with - | old
      · rw [before] at found
        exact Option.some.inj found ▸ within
      · rw [before] at found
        exact delivered.shallow other others there held (before.trans found)
    · rw [Slots.get?_publish, if_neg same] at found
      exact delivered.shallow other others there held found

/-- **A call of a loader that does not fail delivers the payload**, which is the first one. -/
theorem deliver {root : Root} {payload : Block} (mem : .lazy ⟨root, []⟩ payload ∈ K)
    (unloaded : loads.payloads.get? root.cell = none)
    (succeeds : ¬ root.Fails payload (loads.callCount root.cell)) :
    Delivered K ((loads.call root.cell).publish root.cell payload) ledger := by
  refine delivered.publish distinct mem nofun (Nat.le_refl _) (loads.call root.cell).calls
    (uncalled_call spent mem delivered.uncalled) fun other others there ↦ ?_
  have filled := Slots.get?_publish_of_none unloaded other.cell payload
  by_cases same : other.cell = root.cell
  · obtain ⟨⟨⟩, rfl⟩ := eq_of_cell distinct mem there same
    rw [if_pos rfl] at filled
    refine ⟨fun missing ↦ ?_, fun content held ↦ ?_⟩
    · cases missing.symm.trans filled
    · refine ⟨Option.some.inj (held.symm.trans filled), _, ?_, succeeds,
        (delivered.produced _ _ mem).pending unloaded⟩
      exact (loads.callCount_call _ _).trans (by rw [if_pos rfl])
  · rw [if_neg same] at filled
    refine (delivered.produced other others there).congr filled ?_
    exact (loads.callCount_call _ _).trans (by rw [if_neg same, Nat.add_zero])

omit spent in
/-- A window is filled after what it was taken of. -/
theorem fill {root : Root} {window : Window} {windows : List Window} {payload content : Block}
    (mem : .lazy ⟨root, window :: windows⟩ payload ∈ K)
    (source : (loads.payloads.get? (Promise.cell ⟨root, windows⟩)).isSome)
    (within : content.depth ≤ payload.depth) :
    Delivered K (loads.publish window.cell content) ledger := by
  refine delivered.publish distinct mem (by rintro _ _ _ ⟨⟩; exact source) within loads.calls
    delivered.uncalled fun other others there ↦ ?_
  have unlike : other.cell ≠ window.cell := fun same ↦ by
    cases (eq_of_cell distinct mem there same).1
  refine (delivered.produced other others there).congr ?_ rfl
  exact (Slots.get?_publish _ _ _ _).trans (if_neg unlike)

end Calls

end Delivered

end BatchColumn
