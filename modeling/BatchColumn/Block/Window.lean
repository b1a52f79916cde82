import BatchColumn.Block.Store

/-!
# Windows and duplicates

A **window** shows the positions `[offset, offset + length)` of a block and shares everything with
it: arrays, identities, the block below. It copies nothing and loads nothing; a window of a lazy
block that is not loaded is again a lazy block. A window is never deeper than its block, which the
type of `Block.windowWithin` records.

A **duplicate** is the same block with a memory of its own: it starts with all that is remembered,
and later figures are remembered for one of the two only. All of a dictionary block, as a window, is
a duplicate of it.
-/

namespace BatchColumn

/-- The same lists, with a memory of their own. -/
def Lists.duplicate (lists : Lists) : Query Lists := do
  return { lists with memory := ← Ledger.carryOver lists.memory }

/-- The same keys, with a memory of their own. -/
def Keys.duplicate (keys : Keys) : Query Keys := do
  return { keys with memory := ← Ledger.carryOver keys.memory }

namespace Block

/-- The same block, with a memory of its own. -/
def duplicate : Block → Query Block
  | array lists elements => return array (← lists.duplicate) elements
  | dictionary keys entries => return dictionary (← keys.duplicate) entries
  | block => return block

/-- The positions `[offset, offset + length)` of a block, no deeper than the block. -/
def windowWithin : (block : Block) → (offset length : Nat) → Query (Within block.depth)
  | ints leaf, offset, length => do
    checkRegion leaf.count offset length
    return ⟨ints (← leaf.window offset length), Nat.le_refl _⟩
  | slices leaf, offset, length => do
    checkRegion leaf.count offset length
    return ⟨slices (← leaf.window offset length), Nat.le_refl _⟩
  | array lists elements, offset, length => do
    let window ← lists.window (← Ledger.fresh) offset length
    return ⟨array window elements, Nat.le_refl _⟩
  | dictionary keys entries, offset, length => do
    let memory ← if length = keys.count then Ledger.carryOver keys.memory else Ledger.fresh
    let window ← keys.window memory offset length
    return ⟨dictionary window entries, Nat.le_refl _⟩
  | lazy promise payload, offset, length => do
    checkRegion promise.count offset length
    match (← read).content? promise.cell payload.depth with
    | some content =>
      let window ← content.1.windowWithin offset length
      return ⟨window.1, Nat.le_succ_of_le (Nat.le_trans window.2 content.2)⟩
    | none =>
      return ⟨lazy (promise.window (← Ledger.fresh) offset length) payload, Nat.le_refl _⟩
termination_by block => block.depth
decreasing_by
  have := content.2
  simp only [depth]
  omega

/-- The positions `[offset, offset + length)` of a block, sharing all that the block has. -/
def window (block : Block) (offset length : Nat) : Query Block := do
  return (← block.windowWithin offset length).1

end Block

end BatchColumn
