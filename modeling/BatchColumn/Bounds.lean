import BatchColumn.Offsets

/-!
# Bounds of positions, regions, masks, ids and offsets

The checks that stand in front of every operation on a block. Each is an `Except Error Unit`, and
each accepts exactly the condition in its name: a position below the count, a region inside it, a
flag for every position, ids of entries, offsets that cut a list into consecutive entries.

What the checked lists are for stands beside them: `cover` and `markUsed` turn spans and ids into
the `Mask` of what lies in them, `renumber` moves ids to the list of the distinct ones, and
`rebase?` moves a stretch of offsets so that it starts at zero. A mask is a predicate: it costs
nothing for the many positions that a block that is not loaded yet may be said to have.
-/

namespace BatchColumn

/-! ### Positions and regions -/

/-- A position must be below the count. -/
def checkPosition (position count : Nat) : Except Error Unit :=
  if position < count then .ok () else .error (.positionOutOfBounds position count)

/-- A region must lie inside the positions. -/
def checkRegion (count offset length : Nat) : Except Error Unit :=
  if offset + length ≤ count then .ok () else .error (.invalidRegion offset length count)

/-- A stretch of a list of positions must lie inside the list. -/
def checkStretch (size offset length : Nat) : Except Error Unit :=
  if offset + length ≤ size then .ok ()
  else .error <| .invalidArgument "positions"
    s!"range [{offset}, {offset} + {length}) exceeds array of {size}"

/-- Every listed position must be below the count. -/
def checkPositions (positions : List Nat) (count : Nat) : Except Error Unit :=
  positions.forM (checkPosition · count)

/-- The items `[offset, offset + length)` of a list. -/
def stretch {α : Type} (items : List α) (offset length : Nat) : List α :=
  (items.drop offset).take length

/-! ### Masks -/

/-- Which positions of a block are meant. -/
abbrev Mask : Type := Nat → Bool

/-- The positions whose flags are set. -/
def Mask.ofFlags (flags : List Bool) : Mask :=
  fun position => flags.getD position false

/-- The positions inside some of the half-open spans. -/
def Mask.ofSpans (spans : List (Nat × Nat)) : Mask :=
  fun position => spans.any fun (start, stop) => start ≤ position && position < stop

/-- Flags select positions only if there is one flag per position. -/
def checkFlags (flags : List Bool) (count : Nat) : Except Error Unit :=
  if flags.length = count then .ok ()
  else .error <| .invalidArgument "positions"
    s!"mask length {flags.length} does not match position count {count}"

/-- How many of `count` positions a mask selects. -/
def selected (count : Nat) (mask : Mask) : Nat :=
  (List.range count).countP mask

/-- The items that a mask selects. -/
def pick {α : Type} (items : List α) (mask : Mask) : List α :=
  (items.zipIdx.filter fun (_, position) => mask position).map Prod.fst

/-- The mask, over `size` items, of those inside some of the half-open spans. A span that does not
fit panics. -/
def cover (size : Nat) (spans : List (Nat × Nat)) : Except Fault Mask := do
  allocate size flagSize
  if spans.all fun (start, stop) => start ≤ stop && stop ≤ size then return .ofSpans spans
  else throw .panic

/-! ### Ids -/

/-- Every id must be the position of one of `count` entries. -/
def checkIds (ids : List Nat) (count : Nat) : Except Error Unit :=
  match ids.find? (count ≤ ·) with
  | some id => .error <| .invalidArgument "ids"
      s!"id {id} is out of bounds for dictionary of {count} positions"
  | none => .ok ()

/-- The mask, over `size` entries, of those that the ids refer to. The first id that points past the
entries is reported. -/
def markUsed (size : Nat) (ids : List Nat) : Except Fault Mask := do
  allocate size flagSize
  match ids.find? (size ≤ ·) with
  | some id => throw (.error (.missingKey id))
  | none => return fun id => ids.contains id

/-- The ids, each replaced by its index among the distinct ids in order of first occurrence. -/
def renumber (ids : List Nat) : List Nat :=
  let distinct := ids.eraseDups
  ids.map fun id => distinct.idxOf id

/-! ### Offsets -/

/-- No offset is followed by a smaller one. -/
def nondecreasing : List Nat → Bool
  | a :: b :: rest => a ≤ b && nondecreasing (b :: rest)
  | _ => true

/-- Every number is followed by a larger one. -/
def increasing : List Nat → Bool
  | a :: b :: rest => a < b && increasing (b :: rest)
  | _ => true

/-- Offsets cut `valueCount` values into `count` consecutive entries: one offset more than entries,
never decreasing, ending within the values. -/
def checkOffsets (offsets : List Nat) (count valueCount : Nat) : Except Error Unit :=
  if offsets.length ≠ count + 1 then
    .error <| .invalidArgument "offsets" s!"expected {count + 1} offsets, got {offsets.length}"
  else if !nondecreasing offsets then
    .error <| .invalidArgument "offsets" "offsets must be non-decreasing"
  else if offsets.getLastD 0 > valueCount then
    .error <| .invalidArgument "offsets"
      s!"last offset {offsets.getLastD 0} exceeds value count {valueCount}"
  else .ok ()

/-- The `length + 1` offsets from `index` on, moved so that the first of them is zero; none if they
leave the list, or if one of them is smaller than the first. -/
def rebase? (offsets : List Nat) (index length : Nat) : Option Offsets :=
  match stretch offsets index (length + 1) with
  | [] => none
  | first :: rest =>
    if rest.length = length && rest.all (first ≤ ·) then some ⟨(rest.map (· - first)).toArray⟩
    else none

end BatchColumn
