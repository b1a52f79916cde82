import BatchColumn.Bounds
import BatchColumn.Ledger
import BatchColumn.Nulls
import BatchColumn.Value

/-!
# Leaves of byte strings

`Slices` keeps byte strings back to back in one array of bytes, cut by offsets: position `p` is the
stretch from `offsets[p]` to `offsets[p + 1]`. A window narrows the offsets and keeps all bytes; a
copy keeps the bytes of its own positions only, and moves the offsets to start at zero.

Operations that make new arrays take the identities of their storages. They trust their callers to
have checked positions and regions: an index that leaves an array panics.
-/

namespace BatchColumn

/-- A leaf of byte strings. -/
structure Slices where
  /-- Where each byte string starts, and where the last one ends. -/
  offsets : View Nat
  /-- The bytes. -/
  bytes : View UInt8
  /-- Which positions are null. -/
  nulls : Nulls

namespace Slices

/-- The encoding of a leaf of byte strings. -/
def encoding : String := "VARIABLE_WIDTH"

/-- The identities of the arrays of a new leaf. -/
structure Storages where
  offsets : Nat
  bytes : Nat
  flags : Nat

/-- New identities for the arrays of a leaf. -/
def Storages.fresh : StateM Ledger Storages :=
  return ⟨← Ledger.fresh, ← Ledger.fresh, ← Ledger.fresh⟩

/-! ### Making leaves -/

/-- A leaf over these bytes and offsets, with null flags if any are given. -/
def ofBytes? (storages : Storages) (bytes : List UInt8) (offsets : List Nat)
    (nulls : Option (List Bool)) : Except Error Slices := do
  verifyArgument (!offsets.isEmpty) "offsets" "!offsets.is_empty()"
  checkOffsets offsets (offsets.length - 1) bytes.length
  verifyArgument (nulls.all (·.length == offsets.length - 1))
    "value_is_null" "flags.len() == position_count"
  return ⟨.ofList storages.offsets offsets, .ofList storages.bytes bytes,
    .ofFlags? storages.flags nulls⟩

/-- A leaf of these byte strings in which missing ones are null, and empty. -/
def ofSlices (storages : Storages) (values : List (Option (List UInt8))) :
    Except Fault Slices := do
  let slices := values.map (·.getD [])
  let offsets ← Offsets.ofLengths (slices.map List.length)
  return ⟨.ofList storages.offsets offsets.toList, .ofList storages.bytes slices.flatten,
    .ofFlags storages.flags (values.map Option.isNone)⟩

/-! ### Reading -/

/-- How many positions there are. -/
def count (leaf : Slices) : Nat :=
  leaf.offsets.length - 1

/-- The position is null. -/
def isNull (leaf : Slices) (position : Nat) : Except Fault Bool := do
  checkPosition position leaf.count
  leaf.nulls.isNull position

/-- How many bytes the byte string at a position has. -/
def sliceLength (leaf : Slices) (position : Nat) : Except Fault Nat := do
  checkPosition position leaf.count
  return (← leaf.offsets.get (position + 1)) - (← leaf.offsets.get position)

/-- The byte string at a position. -/
def slice (leaf : Slices) (position : Nat) : Except Fault (List UInt8) := do
  checkPosition position leaf.count
  let start ← leaf.offsets.get position
  let stop ← leaf.offsets.get (position + 1)
  return (← leaf.bytes.region start (stop - start)).toList

/-- The value at a position. -/
def value (leaf : Slices) (position : Nat) : Except Fault Value := do
  if ← leaf.isNull position then return .null
  return .bytes (← leaf.slice position)

/-! ### Windows, copies, gathers -/

/-- A window of the leaf over the same arrays. -/
def window (leaf : Slices) (offset length : Nat) : Except Fault Slices := do
  return ⟨← leaf.offsets.region offset (length + 1), leaf.bytes, ← leaf.nulls.window offset length⟩

/-- A window of the leaf that retains nothing else. The leaf itself will do if the window is all of
it, its arrays are whole and its byte strings use every byte. -/
def copy (leaf : Slices) (storages : Storages) (offset length : Nat) : Except Fault Slices := do
  let start ← leaf.offsets.get offset
  let stop ← leaf.offsets.get (offset + length)
  let nulls ← leaf.nulls.copy storages.flags offset length
  if leaf.offsets.isWhole && (← leaf.offsets.get 0) == 0 && length == leaf.count
      && stop == leaf.bytes.length && nulls.sameView leaf.nulls then
    return leaf
  let rebased ← orPanic (rebase? leaf.offsets.toList offset length)
  return ⟨.ofList storages.offsets rebased.toList,
    (← leaf.bytes.region start (stop - start)).compact storages.bytes, nulls⟩

/-- The byte strings at some positions, in new arrays. -/
def gather (leaf : Slices) (storages : Storages) (positions : List Nat) : Except Fault Slices := do
  let slices ← positions.mapM leaf.slice
  let offsets ← Offsets.ofLengths (slices.map List.length)
  return ⟨.ofList storages.offsets offsets.toList, .ofList storages.bytes slices.flatten,
    ← leaf.nulls.gather storages.flags positions⟩

/-! ### Sizes -/

/-- Bytes that an entry counts for beside its byte string: an offset and a null flag. -/
def entryOverhead : Nat := idSize + flagSize

/-- Bytes of the positions `[offset, offset + length)`. -/
def windowSize (leaf : Slices) (offset length : Nat) : Except Fault Nat := do
  return (← leaf.offsets.get (offset + length)) - (← leaf.offsets.get offset)
    + entryOverhead * length

/-- Bytes of the positions that a mask selects. -/
def maskSize (leaf : Slices) (mask : Mask) : Except Fault Nat := do
  let sizes ← ((List.range leaf.count).filter mask).mapM leaf.sliceLength
  return sizes.foldl (· + ·) 0 + entryOverhead * selected leaf.count mask

/-- Bytes of all byte strings together. -/
def payloadSize (leaf : Slices) : Nat :=
  leaf.offsets.toList.getLastD 0 - leaf.offsets.toList.headD 0

/-- Bytes that the leaf keeps alive, its own record included. -/
def retainedSize (leaf : Slices) : Nat :=
  72 + leaf.offsets.retainedSize idSize + leaf.bytes.retainedSize 1 + leaf.nulls.retainedSize

/-- Bytes of data at a position: none at a null. -/
def dataSize (leaf : Slices) (position : Nat) : Except Fault Nat := do
  if ← leaf.isNull position then return 0
  leaf.sliceLength position

end Slices

end BatchColumn
