import BatchColumn.Block.Inspect

/-!
# Sizes

How many bytes the positions of a block count for: all of them, those of a region, those that a mask
selects. An entry of a dictionary counts once, however many positions refer to it, and a lazy block
that is not loaded counts for nothing; sizing never loads.

* `Block.maskSize` sizes the positions of a mask, `Block.positionsSize` those that flags select.
  Layers turn the mask over their positions into a mask over the block below: the elements in the
  selected lists, the entries referred to.
* `Block.sizeOf` sizes an `Extent`. The size of all of an array block and the `Stats` of a
  dictionary block are remembered, under the memory of the layer.
* `Block.logicalSize` sizes a block as if every position had a copy of its own.

Directly nested dictionaries are sized as the one dictionary they come to
(`Block.flatMaskSize`): the keys between two dictionaries count for nothing.
-/

namespace BatchColumn

/-! ### Masks -/

namespace Block

/-- Bytes of the positions that a mask selects. -/
def maskSize (loads : Loads) (block : Block) (mask : Mask) : Except Fault Nat := do
  match block.face? loads with
  | none => return 0
  | some (.ints leaf) => return leaf.entrySize * selected leaf.count mask
  | some (.slices leaf) => leaf.maskSize mask
  | some (.array lists elements _) =>
    let covered ← cover elements.positionCount (pick lists.spans mask)
    return (← elements.maskSize loads covered) + Lists.overhead * selected lists.count mask
  | some (.dictionary keys entries _) =>
    let used ← keys.used entries.positionCount mask
    return (← entries.maskSize loads used) + idSize * selected keys.count mask
termination_by block.depth

/-- Bytes of the positions whose flags are set. -/
def positionsSize (loads : Loads) (block : Block) (flags : List Bool) : Except Fault Nat := do
  checkFlags flags block.positionCount
  block.maskSize loads (.ofFlags flags)

/-- Bytes of the positions that a mask selects, if directly nested dictionaries were one. -/
def flatMaskSize (loads : Loads) (block : Block) (mask : Mask) : Except Fault Nat := do
  match block.face? loads with
  | some (.dictionary keys entries _) =>
    let used ← keys.used entries.positionCount mask
    entries.flatMaskSize loads used
  | _ => block.maskSize loads mask
termination_by block.depth

end Block

/-! ### Statistics of a dictionary block -/

/-- The statistics of a dictionary block, where `entriesSize` sizes all of its entries. -/
def Keys.statsWith (keys : Keys) (entries : Block) (entriesSize : Query Nat) : Query Stats :=
  .remembered Ledger.statsTable keys.memory do
    let loads ← read
    let used ← markUsed entries.positionCount keys.toList
    let unique := keys.toList.eraseDups.length
    let nested? := entries.resolved? loads
    let size ←
      if unique = entries.positionCount then do
        let size ← entriesSize
        match nested? with
        | some (inner, _) => pure (size - idSize * inner.count)
        | none => pure size
      else entries.flatMaskSize loads used
    return {
      size := size + idSize * keys.count
      unique := unique
      sequential := nested?.isNone && increasing keys.toList }

/-! ### Extents -/

/-- Which positions of a block to size. -/
inductive Extent where
  /-- All positions. -/
  | all
  /-- The positions `[offset, offset + length)`. -/
  | region (offset length : Nat)

namespace Extent

/-- Where the positions start. -/
def offset : Extent → Nat
  | all => 0
  | region offset _ => offset

/-- How many positions there are, of a block of `count`. -/
def length (count : Nat) : Extent → Nat
  | all => count
  | region _ length => length

/-- Every position of a block of `count` is meant. -/
def isWhole (count : Nat) (extent : Extent) : Bool :=
  extent.offset == 0 && extent.length count == count

end Extent

namespace Block

/-- Bytes of an extent of a block. -/
def sizeOf (block : Block) (extent : Extent) : Query Nat := do
  checkRegion block.positionCount extent.offset (extent.length block.positionCount)
  match block.face? (← read) with
  | none => return 0
  | some (.ints leaf) => return leaf.entrySize * extent.length leaf.count
  | some (.slices leaf) => leaf.windowSize extent.offset (extent.length leaf.count)
  | some (.array lists elements _) =>
    let length := extent.length lists.count
    let cut : Query Nat := do
      let (start, stop) ← lists.cut extent.offset length
      return (← elements.sizeOf (.region start (stop - start))) + Lists.overhead * length
    match extent with
    | .all => .remembered Ledger.sizeTable lists.memory cut
    | .region .. => cut
  | some (.dictionary keys entries _) =>
    if extent.isWhole keys.count then
      return (← keys.statsWith entries (entries.sizeOf .all)).size
    let length := extent.length keys.count
    let used ← markUsed entries.positionCount (stretch keys.toList extent.offset length)
    return (← entries.maskSize (← read) used) + idSize * length
termination_by block.depth

/-- Bytes of all positions of a block. -/
def size (block : Block) : Query Nat :=
  block.sizeOf .all

/-- Bytes of the positions `[offset, offset + length)` of a block. -/
def regionSize (block : Block) (offset length : Nat) : Query Nat :=
  block.sizeOf (.region offset length)

end Block

/-- The statistics of a dictionary block. -/
def Keys.stats (keys : Keys) (entries : Block) : Query Stats :=
  keys.statsWith entries entries.size

namespace Block

/-- Bytes of the entry that an id refers to. -/
def entrySize (entries : Block) (id : Nat) : Query Nat := do
  if entries.positionCount ≤ id then throw (.error (.missingKey id))
  entries.regionSize id 1

/-- Bytes of a block if every position had an entry of its own. An entry of a dictionary counts for
each position that refers to it. -/
def logicalSize (block : Block) : Query Nat := do
  match block.face? (← read) with
  | none => return 0
  | some (.dictionary keys entries _) =>
    .remembered Ledger.logicalSizeTable keys.memory do
      allocate entries.positionCount optionalSize
      sumOver keys.toList entries.entrySize
  | some _ => block.size

end Block

end BatchColumn
