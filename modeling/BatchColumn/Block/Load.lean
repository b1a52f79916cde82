import BatchColumn.Block.Window

/-!
# Loading

Loading a promise fills its cell. A cell that is filled is never filled again, nor its loader
called. Otherwise the loader of the payload is called, or — for a window — the promise that the
window was taken of is loaded and its window taken. What comes back must have the promised number of
positions. A load that fails leaves the cell empty, and the next one tries again.

`Block.reveal` loads whatever lazy blocks stand in front of a block and shows its `Face`. Every call
that reads values starts with it.
-/

namespace BatchColumn

/-- A loader handed over a block of another length than promised. -/
def Error.miscounted : Error :=
  .internal "loaded_position_count: block.position_count() == self.position_count"

/-- Puts a block into a cell, if it has the promised number of positions. -/
def Session.fill {bound : Nat} (cell count : Nat) (block : Within bound) :
    Session (Within bound) := do
  if block.1.positionCount ≠ count then throw (.error .miscounted)
  modify fun store => { store with loads := store.loads.publish cell block.1 }
  return block

/-- Counts a call of the loader of a cell, and tells how many went before. -/
def Session.call (cell : Nat) : Session Nat :=
  modifyGet fun store =>
    (store.loads.callCount cell, { store with loads := store.loads.call cell })

/-- Loads a payload, and the windows taken of it. -/
def Root.load (root : Root) (payload : Block) : List Window → Session (Within payload.depth)
  | [] => do
    match (← get).loads.content? root.cell payload.depth with
    | some content => return content
    | none =>
      match root.refusal (← Session.call root.cell) with
      | some cause => throw (.error cause)
      | none => Session.fill root.cell root.count ⟨payload, Nat.le_refl _⟩
  | window :: windows => do
    match (← get).loads.content? window.cell payload.depth with
    | some content => return content
    | none =>
      let _ ← Session.call window.cell
      let source ← root.load payload windows
      let region ← source.1.windowWithin window.offset window.length
      Session.fill window.cell window.length ⟨region.1, Nat.le_trans region.2 source.2⟩

/-- Loads what is promised. -/
def Promise.load (promise : Promise) (payload : Block) : Session (Within payload.depth) :=
  promise.root.load payload promise.windows

namespace Block

/-- Loads the lazy blocks in front of a block, and shows what stands behind them. -/
def reveal : (block : Block) → Session (Face block.depth)
  | ints leaf => return .ints leaf
  | slices leaf => return .slices leaf
  | array lists elements => return .array lists elements (Nat.lt_succ_self _)
  | dictionary keys entries => return .dictionary keys entries (Nat.lt_succ_self _)
  | lazy promise payload => do
    let content ← promise.load payload
    return (← content.1.reveal).widen (Nat.le_succ_of_le content.2)
termination_by block => block.depth
decreasing_by
  have := content.2
  simp only [depth]
  omega

end Block

end BatchColumn
