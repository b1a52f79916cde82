import BatchColumn.Block.Inspect
import BatchColumn.Block.Load

/-!
# Reading positions

The answer at one position of a block: whether it is null, the integer or byte string that a leaf
stores there, the list of an array block as a window of its elements, the value. Reading loads the
lazy blocks on its way and nothing else. A dictionary block passes the question on to the entry that
the position refers to, and a block of another kind than asked for refuses.

`Block.value` is the reading in which encodings no longer show: `Block.values` lists it for all
positions and `Block.sameValues` compares two blocks by it.
-/

namespace BatchColumn

namespace Block

/-! ### Nulls and stored data -/

/-- The position is null. A dictionary block without nulls answers without loading its entries. -/
def isNull (block : Block) (position : Nat) : Session Bool := do
  match ← block.reveal with
  | .ints leaf => leaf.isNull position
  | .slices leaf => leaf.isNull position
  | .array lists _ _ => lists.isNull position
  | .dictionary keys entries _ =>
    let id ← keys.id position
    if entries.mayHaveNull (← get).loads then entries.isNull id else return false
termination_by block.depth

/-- The integer that a leaf stores at a position, read as one of width `width`. -/
def readInt (block : Block) (width : Width) (position : Nat) : Session Int := do
  match ← block.reveal with
  | .ints leaf => leaf.read width position
  | .dictionary keys entries _ => entries.readInt width (← keys.id position)
  | face => throw (.error (face.unsupported width.reader))
termination_by block.depth

/-- The byte string that a leaf stores at a position. -/
def readSlice (block : Block) (position : Nat) : Session (List UInt8) := do
  match ← block.reveal with
  | .slices leaf => leaf.slice position
  | .dictionary keys entries _ => entries.readSlice (← keys.id position)
  | face => throw (.error (face.unsupported "get_slice"))
termination_by block.depth

/-- How many bytes the byte string that a leaf stores at a position has. -/
def sliceLength (block : Block) (position : Nat) : Session Nat := do
  match ← block.reveal with
  | .slices leaf => leaf.sliceLength position
  | .dictionary keys entries _ => entries.sliceLength (← keys.id position)
  | face => throw (.error (face.unsupported "get_slice_length"))
termination_by block.depth

/-- The list at a position, as a window of the elements. -/
def readList (block : Block) (position : Nat) : Session Block := do
  match ← block.reveal with
  | .array lists elements _ =>
    let (start, stop) ← lists.span position
    elements.window start (stop - start)
  | .dictionary keys entries _ => entries.readList (← keys.id position)
  | face => throw (.error (face.unsupported "get_object"))
termination_by block.depth

/-! ### Values -/

/-- The value at a position. -/
def value (block : Block) (position : Nat) : Session Value := do
  match ← block.reveal with
  | .ints leaf => leaf.value position
  | .slices leaf => leaf.value position
  | .array lists elements _ =>
    if ← lists.isNull position then return .null
    let (start, stop) ← lists.span position
    let list ← elements.windowWithin start (stop - start)
    return .list (← mapFrom 0 list.1.positionCount list.1.value)
  | .dictionary keys entries _ => entries.value (← keys.id position)
termination_by block.depth
decreasing_by
  · have := list.2
    omega
  · assumption

/-- The values at all positions. -/
def values (block : Block) : Session (List Value) :=
  mapFrom 0 block.positionCount block.value

/-- Two blocks hold the same values, compared position by position until two differ. -/
def sameValues (block other : Block) : Session Bool := do
  if block.positionCount ≠ other.positionCount then return false
  allFrom 0 block.positionCount fun position =>
    return (← block.value position) == (← other.value position)

/-- Bytes of data at a position, as counted for column statistics: none at a null. -/
def dataSize (block : Block) (position : Nat) : Session Nat := do
  match ← block.reveal with
  | .ints leaf => leaf.dataSize position
  | .slices leaf => leaf.dataSize position
  | .array lists elements _ =>
    if ← lists.isNull position then return 0
    let (start, stop) ← lists.span position
    sumFrom start (stop - start) elements.dataSize
  | .dictionary keys entries _ => entries.dataSize (← keys.id position)
termination_by block.depth

end Block

end BatchColumn
