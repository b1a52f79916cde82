import BatchColumn.Bounds
import BatchColumn.Nulls
import BatchColumn.Value

/-!
# Leaves of integers

`Ints` keeps one integer per position in a view, with optional null flags beside it. All integers
of a leaf have one `Width`, which fixes its encoding name and the bytes that an entry counts for.
A null position stores an integer as well, which readers of the raw integer see and readers of the
value do not.

Operations that make new arrays take the identities of their storages, `cells` and `flags`. They
trust their callers to have checked positions and regions: an index that leaves an array panics.
-/

namespace BatchColumn

/-- The width of an integer. -/
inductive Width where
  | byte
  | short
  | int
  | long
  deriving DecidableEq

namespace Width

/-- Bytes of one integer. -/
def bytes : Width → Nat
  | byte => 1
  | short => 2
  | int => 4
  | long => 8

/-- The encoding of a leaf of this width. -/
def encoding : Width → String
  | byte => "BYTE_ARRAY"
  | short => "SHORT_ARRAY"
  | int => "INT_ARRAY"
  | long => "LONG_ARRAY"

/-- The operation that reads one integer of this width. -/
def reader : Width → String
  | byte => "get_byte"
  | short => "get_short"
  | int => "get_int"
  | long => "get_long"

end Width

/-- A leaf of integers. -/
structure Ints where
  /-- The width of every integer. -/
  width : Width
  /-- One integer per position. -/
  cells : View Int
  /-- Which positions are null. -/
  nulls : Nulls

namespace Ints

/-! ### Making leaves -/

/-- A leaf of these integers, none of them null. -/
def ofValues (width : Width) (cells : Nat) (values : List Int) : Ints :=
  ⟨width, .ofList cells values, .none⟩

/-- A leaf of these integers with null flags, of which there must be as many. -/
def ofFlags? (width : Width) (cells flags : Nat) (values : List Int)
    (nulls : Option (List Bool)) : Except Error Ints := do
  verifyArgument (nulls.all (·.length == values.length))
    "value_is_null" "flags.len() == values.len()"
  return ⟨width, .ofList cells values, .ofFlags? flags nulls⟩

/-- A leaf in which missing integers are null, and stored as zero. -/
def ofOptions (width : Width) (cells flags : Nat) (values : List (Option Int)) : Ints :=
  ⟨width, .ofList cells (values.map (·.getD 0)), .ofFlags flags (values.map Option.isNone)⟩

/-! ### Reading -/

/-- How many positions there are. -/
def count (leaf : Ints) : Nat :=
  leaf.cells.length

/-- The position is null. -/
def isNull (leaf : Ints) (position : Nat) : Except Fault Bool := do
  checkPosition position leaf.count
  leaf.nulls.isNull position

/-- The integer at a position, read as one of width `width`. A leaf answers for its own width, and
every leaf for the widest. -/
def read (leaf : Ints) (width : Width) (position : Nat) : Except Fault Int := do
  checkPosition position leaf.count
  if width = .long ∨ width = leaf.width then leaf.cells.get position
  else throw (.error (.unsupported width.reader leaf.width.encoding))

/-- The value at a position. -/
def value (leaf : Ints) (position : Nat) : Except Fault Value := do
  if ← leaf.isNull position then return .null
  return .long (← leaf.cells.get position)

/-! ### Windows, copies, gathers -/

/-- A window of the leaf over the same arrays. -/
def window (leaf : Ints) (offset length : Nat) : Except Fault Ints := do
  return ⟨leaf.width, ← leaf.cells.region offset length, ← leaf.nulls.window offset length⟩

/-- A window of the leaf that retains nothing else. All of a leaf that is whole is that leaf. -/
def copy (leaf : Ints) (cells flags offset length : Nat) : Except Fault Ints := do
  let values ← leaf.cells.region offset length
  return ⟨leaf.width, values.compact cells, ← leaf.nulls.copy flags offset length⟩

/-- The integers at some positions, in new arrays. -/
def gather (leaf : Ints) (cells flags : Nat) (positions : List Nat) : Except Fault Ints := do
  let values ← positions.mapM leaf.cells.get
  return ⟨leaf.width, .ofList cells values, ← leaf.nulls.gather flags positions⟩

/-! ### Sizes -/

/-- Bytes of one entry: the integer and its null flag. -/
def entrySize (leaf : Ints) : Nat :=
  leaf.width.bytes + flagSize

/-- Bytes that the leaf keeps alive, its own record included. -/
def retainedSize (leaf : Ints) : Nat :=
  56 + leaf.cells.retainedSize leaf.width.bytes + leaf.nulls.retainedSize

/-- Bytes of data at a position: none at a null. -/
def dataSize (leaf : Ints) (position : Nat) : Except Fault Nat := do
  return if ← leaf.isNull position then 0 else leaf.width.bytes

end Ints

end BatchColumn
