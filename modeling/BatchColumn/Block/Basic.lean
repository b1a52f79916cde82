import BatchColumn.Leaf.Ints
import BatchColumn.Leaf.Slices
import BatchColumn.SourceId

/-!
# Blocks

A `Block` holds one column's values for a batch of rows, addressed by position. It is a leaf of
integers or byte strings, or a layer over another block:

* `array lists elements` — position `p` is the stretch of `elements` between two offsets;
* `dictionary keys entries` — position `p` is the entry that the `p`-th key refers to;
* `lazy promise payload` — the values are those of `payload`, once something reads them.

The blocks below a layer are part of it, so a walk over a block is structural. What a block shares
with others is told by identities: a `handle` names the block below a layer, a `memory` names what
the layer remembers, and a `cell` names what a lazy block has loaded. Blocks with one identity
share, whatever else they hold.

A window of a lazy block that is not loaded yet is a lazy block with one more `Window`; its payload
is still the payload of the whole (`Promise`). So windows of windows do not make a block deeper, and
`Block.depth`, on which every walk through loaded blocks goes down, counts layers.
-/

namespace BatchColumn

/-! ### Layers of lists -/

/-- How an array block cuts its elements into lists. -/
structure Lists where
  /-- The position, in the offsets and in the null flags, of the first list. -/
  base : Nat
  /-- How many lists there are. -/
  count : Nat
  /-- Which lists are null, from the position zero of the flags on. -/
  nulls : Nulls
  /-- Where each list starts, and where the last one ends. -/
  offsets : View Nat
  /-- The identity of the block of elements. -/
  handle : Nat
  /-- The identity of the remembered size. -/
  memory : Nat
  /-- Every list has a start and an end. -/
  fits : base + count < offsets.length

namespace Lists

/-- The encoding of lists of elements. -/
def encoding : String := "ARRAY"

/-- Bytes that a list counts for beside its elements: an offset and a null flag. -/
def overhead : Nat := idSize + flagSize

/-- The offsets of the lists, from the start of the first to the end of the last. -/
def bounds (lists : Lists) : List Nat :=
  stretch lists.offsets.toList lists.base (lists.count + 1)

/-- The start and the end of every list. -/
def spans (lists : Lists) : List (Nat × Nat) :=
  lists.bounds.zip lists.bounds.tail

/-- The start and the end of the elements in the lists `[offset, offset + length)`. -/
def cut (lists : Lists) (offset length : Nat) : Except Error (Nat × Nat) :=
  if inside : offset + length ≤ lists.count then
    .ok
      (lists.offsets.item (lists.base + offset) (by have := lists.fits; omega),
        lists.offsets.item (lists.base + offset + length) (by have := lists.fits; omega))
  else .error (.invalidRegion offset length lists.count)

/-- The start and the end of one list. -/
def span (lists : Lists) (position : Nat) : Except Error (Nat × Nat) :=
  if inside : position < lists.count then
    .ok
      (lists.offsets.item (lists.base + position) (by have := lists.fits; omega),
        lists.offsets.item (lists.base + position + 1) (by have := lists.fits; omega))
  else .error (.positionOutOfBounds position lists.count)

/-- The list is null. -/
def isNull (lists : Lists) (position : Nat) : Except Fault Bool := do
  checkPosition position lists.count
  lists.nulls.isNull (lists.base + position)

/-- The lists `[offset, offset + length)`, over the same offsets, flags and elements. -/
def window (lists : Lists) (memory offset length : Nat) : Except Error Lists :=
  if inside : offset + length ≤ lists.count then
    .ok
      { lists with
        base := lists.base + offset
        count := length
        memory := memory
        fits := by have := lists.fits; omega }
  else .error (.invalidRegion offset length lists.count)

/-- The lists that start at `first` and end where `ends` says. -/
def ofEnds (storage handle memory first : Nat) (ends : List Nat) (nulls : Nulls) : Lists where
  base := 0
  count := ends.length
  nulls := nulls
  offsets := .ofList storage (first :: ends)
  handle := handle
  memory := memory
  fits := by simp

/-- Bytes that the layer keeps alive, its own record included. -/
def retainedSize (lists : Lists) : Nat :=
  88 + lists.offsets.retainedSize idSize + lists.nulls.retainedSize

end Lists

/-! ### Layers of keys -/

/-- Which entries of its dictionary a dictionary block refers to. -/
structure Keys where
  /-- Where the keys start among the ids. -/
  offset : Nat
  /-- How many keys there are. -/
  count : Nat
  /-- The ids, each the position of an entry. -/
  ids : View Nat
  /-- The identity of the dictionary. -/
  source : SourceId
  /-- The identity of the block of entries. -/
  handle : Nat
  /-- The identity of the remembered statistics. -/
  memory : Nat
  /-- Every key is an id. -/
  fits : offset + count ≤ ids.length

namespace Keys

/-- The encoding of references to entries. -/
def encoding : String := "DICTIONARY"

/-- The ids of all positions. -/
def toList (keys : Keys) : List Nat :=
  stretch keys.ids.toList keys.offset keys.count

/-- The id of a position. -/
def id (keys : Keys) (position : Nat) : Except Error Nat :=
  if inside : position < keys.count then
    .ok (keys.ids.item (keys.offset + position) (by have := keys.fits; omega))
  else .error (.positionOutOfBounds position keys.count)

/-- The ids of some positions. -/
def idsAt (keys : Keys) (positions : List Nat) : Except Error (List Nat) :=
  positions.mapM keys.id

/-- A view of the ids of all positions. -/
def view (keys : Keys) : View Nat where
  storage := keys.ids.storage
  backing := keys.ids.backing
  offset := keys.ids.offset + keys.offset
  length := keys.count
  fits := by have := keys.fits; have := keys.ids.fits; omega

/-- The keys `[offset, offset + length)`, over the same ids and entries. -/
def window (keys : Keys) (memory offset length : Nat) : Except Error Keys :=
  if inside : offset + length ≤ keys.count then
    .ok
      { keys with
        offset := keys.offset + offset
        count := length
        memory := memory
        fits := by have := keys.fits; omega }
  else .error (.invalidRegion offset length keys.count)

/-- The mask, over `size` entries, of those that the selected positions refer to. -/
def used (keys : Keys) (size : Nat) (mask : Mask) : Except Fault Mask :=
  markUsed size (pick keys.toList mask)

/-- Bytes that the layer keeps alive, its own record included. -/
def retainedSize (keys : Keys) : Nat :=
  128 + keys.ids.retainedSize idSize

end Keys

/-! ### Promises -/

/-- A payload that a loader will produce. -/
structure Root where
  /-- The identity of what is loaded. -/
  cell : Nat
  /-- How many positions the payload is said to have. -/
  count : Nat
  /-- The error that a call of the loader, counted from zero, reports. A call that reports none
  hands over the payload. -/
  refusal : Nat → Option Error

/-- A window of a lazy block, taken before the block was loaded. -/
structure Window where
  /-- The identity of what is loaded. -/
  cell : Nat
  /-- Where the window starts. -/
  offset : Nat
  /-- How many positions it has. -/
  length : Nat

/-- What a lazy block promises: a payload, or a window of a window of … it. -/
structure Promise where
  /-- The payload. -/
  root : Root
  /-- The windows taken, the last one first. -/
  windows : List Window

namespace Promise

/-- The encoding of promises. -/
def encoding : String := "LAZY"

/-- How many positions are promised. -/
def count (promise : Promise) : Nat :=
  match promise.windows with
  | [] => promise.root.count
  | window :: _ => window.length

/-- The identity of what is loaded. -/
def cell (promise : Promise) : Nat :=
  match promise.windows with
  | [] => promise.root.cell
  | window :: _ => window.cell

/-- A window of what is promised. -/
def window (promise : Promise) (cell offset length : Nat) : Promise :=
  { promise with windows := ⟨cell, offset, length⟩ :: promise.windows }

/-- Bytes that the layer keeps alive: its own record. -/
def retainedSize : Nat := 32

end Promise

/-! ### Blocks -/

/-- One column's values for a batch of rows. -/
inductive Block where
  /-- A leaf of integers. -/
  | ints (leaf : Ints)
  /-- A leaf of byte strings. -/
  | slices (leaf : Slices)
  /-- Lists of elements. -/
  | array (lists : Lists) (elements : Block)
  /-- References to entries. -/
  | dictionary (keys : Keys) (entries : Block)
  /-- A payload to be loaded. -/
  | lazy (promise : Promise) (payload : Block)

namespace Block

/-- How many positions a block has. -/
def positionCount : Block → Nat
  | ints leaf => leaf.count
  | slices leaf => leaf.count
  | array lists _ => lists.count
  | dictionary keys _ => keys.count
  | lazy promise _ => promise.count

/-- The name of a block's encoding. -/
def encoding : Block → String
  | ints leaf => leaf.width.encoding
  | slices _ => Slices.encoding
  | array .. => Lists.encoding
  | dictionary .. => Keys.encoding
  | lazy .. => Promise.encoding

/-- How many layers lie over the leaf. -/
def depth : Block → Nat
  | ints _ | slices _ => 0
  | array _ elements => elements.depth + 1
  | dictionary _ entries => entries.depth + 1
  | lazy _ payload => payload.depth + 1

/-- A refusal that names the operation and the encoding of the block. -/
def unsupported (block : Block) (operation : String) : Error :=
  .unsupported operation block.encoding

end Block

/-- The blocks of bounded depth. -/
abbrev Within (bound : Nat) : Type :=
  { block : Block // block.depth ≤ bound }

end BatchColumn
