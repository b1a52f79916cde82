import BatchColumn.Block.Compact
import BatchColumn.Block.Load

/-!
# Copies

`Block.copy` makes a block of the positions `[offset, offset + length)` that keeps nothing else
alive, and `Block.single` one of a single position. Copying loads the lazy blocks that stand in
front of what is copied.

The copy of a dictionary block need not be one. An empty copy, a copy of one position, and a copy of
ids known to count up through all entries are copies of entries; ids that are known to be distinct,
or refer to another dictionary, are gathered; otherwise the copied ids keep their entries, and the
result is compacted. Only statistics that are remembered already steer the choice.
-/

namespace BatchColumn

/-- The layer of a single list of `length` elements, under a new handle. -/
def Lists.ofOne (length : Nat) (null : Bool) : Query Lists := do
  let nulls := Nulls.ofFlags (← Ledger.fresh) [null]
  return .ofEnds (← Ledger.fresh) (← Ledger.fresh) (← Ledger.fresh) 0 [length] nulls

/-- The layer of the lists `[offset, offset + length)`, with offsets from zero on, under a new
handle. -/
def Lists.copy (lists : Lists) (offset length : Nat) : Query Lists := do
  let rebased ← orPanic (rebase? lists.offsets.toList (lists.base + offset) length)
  let nulls ← lists.nulls.copy (← Ledger.fresh) (lists.base + offset) length
  return .ofEnds (← Ledger.fresh) (← Ledger.fresh) (← Ledger.fresh) 0 rebased.ends.toList nulls

namespace Block

/-- The positions `[offset, offset + length)`, in a block that keeps nothing else alive. -/
def copy (block : Block) (offset length : Nat) : Session Block := do
  match ← block.reveal with
  | .ints leaf =>
    checkRegion leaf.count offset length
    return ints (← leaf.copy (← Ledger.fresh) (← Ledger.fresh) offset length)
  | .slices leaf =>
    checkRegion leaf.count offset length
    return slices (← leaf.copy (← Slices.Storages.fresh) offset length)
  | .array lists elements _ =>
    let (start, stop) ← lists.cut offset length
    let elements ← elements.copy start (stop - start)
    return array (← lists.copy offset length) elements
  | .dictionary keys entries _ =>
    checkRegion keys.count offset length
    let known? := (← get).ledger.stats.get? keys.memory
    let counting := known?.any fun known =>
      known.unique == entries.positionCount && known.sequential
    if length = 0 then entries.copy 0 0
    else if length = 1 || counting then entries.copy (← keys.id offset) length
    else
      let ids := stretch keys.toList offset length
      if entries.isNested (← get).loads || known?.any (·.unique == keys.count) then
        entries.gather ids
      else
        let copied ← Keys.ofIds keys.handle entries ids (← Ledger.mint) .none
        let (compacted, entries) ← copied.compact entries
        return dictionary compacted entries
termination_by block.depth

/-- One position, in a block that keeps nothing else alive. -/
def single (block : Block) (position : Nat) : Session Block := do
  match ← block.reveal with
  | .ints leaf =>
    checkPosition position leaf.count
    (ints leaf).copy position 1
  | .slices leaf =>
    checkPosition position leaf.count
    (slices leaf).copy position 1
  | .array lists elements _ =>
    let (start, stop) ← lists.span position
    let elements ← elements.copy start (stop - start)
    return array (← Lists.ofOne (stop - start) (← lists.isNull position)) elements
  | .dictionary keys entries _ => entries.single (← keys.id position)
termination_by block.depth

end Block

end BatchColumn
