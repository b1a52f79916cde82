import BatchColumn.Block.Make
import BatchColumn.Block.Window

/-!
# Sample blocks

Blocks drawn at random, of any kind and shape, to try operations on. A draw is a `Sample`: a query
that also steps a generator of random numbers. What a draw promises holds whatever the generator
gives: lengths and depths as asked for, integers, ids and positions in range, ids that refer to
entries, null lists that are empty.
-/

namespace BatchColumn

/-- A query that draws random numbers. -/
abbrev Sample : Type → Type :=
  StateT StdGen Query

namespace Sample

/-! ### Draws -/

/-- A number from `low` to `high`. -/
def between (low high : Nat) : Sample Nat :=
  modifyGet fun generator => randNat generator low high

/-- One of two answers. -/
def coin : Sample Bool :=
  return (← between 0 1) == 0

/-- True once in `n` draws or so; never if `n` is zero. -/
def oneIn (n : Nat) : Sample Bool := do
  if n = 0 then return false
  return (← between 0 (n - 1)) == 0

/-- A list of `length` draws of `width` bytes each. -/
def listOf {α : Type} (length width : Nat) (draw : Sample α) : Sample (List α) := do
  allocate length width
  mapFrom 0 length fun _ => draw

/-- Positions below `count`, in any order. There are none if `count` is zero; asking for some
panics. -/
def positions (length count : Nat) : Sample (List Nat) := do
  if count = 0 && length ≠ 0 then throw .panic
  listOf length idSize (between 0 (count - 1))

/-- A region of `count` positions: its offset and its length. -/
def region (count : Nat) : Sample (Nat × Nat) := do
  let offset ← between 0 count
  return (offset, ← between 0 (count - offset))

/-- A mask over `length` positions. -/
def mask (length : Nat) : Sample (List Bool) :=
  listOf length flagSize coin

/-! ### Blocks -/

/-- Integers from `-1000` to `999`, one in `nullOneIn` of them null. -/
def ints (length nullOneIn : Nat) : Sample Block := do
  let values ← listOf length optionalSize do
    if ← oneIn nullOneIn then return none
    return some ((← between 0 1999 : Nat) - 1000 : Int)
  Block.mkIntsOfOptions .long values

/-- A byte string of up to eleven small letters, or a null. -/
def word : Sample (Option (List UInt8)) := do
  match ← between 0 9 with
  | 0 => return none
  | 1 => return some []
  | _ => return some (← listOf (← between 1 11) 1 (return UInt8.ofNat (← between 97 122)))

/-- Byte strings of up to eleven small letters, some of them null. -/
def slices (length : Nat) : Sample Block := do
  Block.mkSlicesOfOptions (← listOf length stringSize word)

/-- A leaf of either kind. -/
def leaf (length : Nat) : Sample Block := do
  if ← coin then ints length 8 else slices length

/-- References from `length` positions to entries. -/
def references (length : Nat) (entries : Block) : Sample Block := do
  let ids ← positions length entries.positionCount
  entries.mkDictionary ids (← Ledger.mint)

/-- References to the entries of a leaf of `count` positions. -/
def dictionary (length count : Nat) : Sample Block := do
  references length (← leaf count)

/-- `depth` dictionaries directly over one another, the outermost with `length` positions. There is
none of depth zero; asking for it panics. -/
def nestedDictionary (length : Nat) : (depth : Nat) → Sample Block
  | 0 => throw .panic
  | 1 => do references length (← leaf (← between 1 15))
  | depth + 2 => do references length (← nestedDictionary (← between 1 15) (depth + 1))

/-- Lists of up to `longest` elements of a leaf, one in eight of them null. -/
def lists (length longest : Nat) : Sample Block := do
  allocate (length + 1) idSize
  let drawn ← listOf length flagSize do
    if ← oneIn 8 then return none
    return some (← between 0 longest)
  let offsets ← Offsets.ofLengths (drawn.map (·.getD 0))
  let elements ← leaf offsets.last
  elements.mkArray offsets.toList (some (drawn.map Option.isNone))

/-- A block of any kind, with at most `depth` layers of references. -/
def block (length : Nat) : (depth : Nat) → Sample Block
  | 0 => leaf length
  | depth + 1 => do
    match ← between 0 3 with
    | 0 => leaf length
    | 1 => references length (← block (← between 1 11) depth)
    | 2 => lists length 4
    | _ =>
      let margin ← between 1 3
      let wide ← references (length + 2 * margin) (← block (← between 1 11) depth)
      wide.window margin length

end Sample

end BatchColumn
