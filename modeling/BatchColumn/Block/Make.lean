import BatchColumn.Block.Size
import BatchColumn.Block.Window

/-!
# Making blocks

The makers check what they are given and lay new blocks over it. A block that a layer is made over
is **duplicated**: what it remembers now goes with it, what it will remember does not.

* `Block.mkInts`, `Block.mkSlices` make leaves, `Block.mkLazy` makes promises.
* `Block.mkArray` cuts elements into lists; a null list must be empty.
* `Block.mkDictionary` refers to entries by ids, each the position of an entry.
* `Keys.make` is under the last of these and takes ids as they are. It takes the maker's word for
  the `Hints` as well, and remembers statistics that agree with them.
-/

namespace BatchColumn

namespace Block

/-! ### Leaves -/

/-- A leaf of integers, with null flags if any are given. -/
def mkInts (width : Width) (values : List Int) (nulls : Option (List Bool)) : Query Block := do
  return ints (← Ints.ofFlags? width (← Ledger.fresh) (← Ledger.fresh) values nulls)

/-- A leaf of integers in which missing ones are null. -/
def mkIntsOfOptions (width : Width) (values : List (Option Int)) : Query Block := do
  return ints (.ofOptions width (← Ledger.fresh) (← Ledger.fresh) values)

/-- A leaf of byte strings that offsets cut out of `bytes`, with null flags if any are given. -/
def mkSlices (bytes : List UInt8) (offsets : List Nat) (nulls : Option (List Bool)) :
    Query Block := do
  return slices (← Slices.ofBytes? (← Slices.Storages.fresh) bytes offsets nulls)

/-- A leaf of byte strings in which missing ones are null. -/
def mkSlicesOfOptions (values : List (Option (List UInt8))) : Query Block := do
  return slices (← Slices.ofSlices (← Slices.Storages.fresh) values)

/-! ### Promises -/

/-- The promise of a payload that is said to have `count` positions, and whose loader reports the
errors of `refusal`. -/
def mkLazy (payload : Block) (count : Nat) (refusal : Nat → Option Error) : Query Block := do
  let payload ← payload.duplicate
  return lazy ⟨⟨← Ledger.fresh, count, refusal⟩, []⟩ payload

/-- The promise of a payload whose loader never fails. -/
def mkLazyOf (payload : Block) : Query Block :=
  payload.mkLazy payload.positionCount fun _ => none

/-! ### Lists -/

/-- The elements, cut into lists by offsets, with null flags if any are given. -/
def mkArray (elements : Block) (offsets : List Nat) (nulls : Option (List Bool)) :
    Query Block := do
  match offsets with
  | [] => throw (.error (.invalidArgument "offsets" "!offsets.is_empty()"))
  | first :: ends =>
    checkOffsets (first :: ends) ends.length elements.positionCount
    let flags := nulls.getD []
    verifyArgument (nulls.all (·.length == ends.length))
      "value_is_null" "flags.len() == position_count"
    verifyArgument ((flags.zip ((first :: ends).zip ends)).all
        fun (null, start, stop) => !null || start == stop)
      "value_is_null" "offsets[position] == offsets[position + 1]"
    let elements ← elements.duplicate
    let nulls := Nulls.ofFlags? (← Ledger.fresh) nulls
    return array (.ofEnds (← Ledger.fresh) (← Ledger.fresh) (← Ledger.fresh) first ends nulls)
      elements

end Block

/-! ### Dictionaries -/

/-- What is vouched for when keys are made. -/
structure Hints where
  /-- Every entry is referred to. -/
  compacted : Bool
  /-- The entry referred to grows from each position to the next. -/
  sequential : Bool

/-- Nothing is vouched for. -/
def Hints.none : Hints := ⟨false, false⟩

/-- Keys `[offset, offset + count)` of some ids, to the entries that go by the identity `handle`. -/
def Keys.make (handle : Nat) (entries : Block) (ids : View Nat) (offset count : Nat)
    (source : SourceId) (hints : Hints) : Query Keys := do
  if fits : offset + count ≤ ids.length then
    verifyArgument (!hints.compacted || !entries.isNested (← read))
      "dictionary_is_compacted"
      "!dictionary_is_compacted || dictionary.resolved_dictionary().is_none()"
    verifyArgument (!hints.sequential || hints.compacted)
      "is_sequential_ids" "!is_sequential_ids || dictionary_is_compacted"
    let memory ← Ledger.fresh
    if hints.compacted then
      let stats : Stats :=
        ⟨(← entries.size) + idSize * count, entries.positionCount, hints.sequential⟩
      modifyThe Ledger (Ledger.statsTable.update (·.publish memory stats))
    return { offset, count, ids, source, handle, memory, fits }
  else
    throw <| .error <| .invalidArgument "ids"
      "ids_offset <= ids.len() && ids.len() - ids_offset >= position_count"

/-- Keys that are all of some new ids, to the entries that go by the identity `handle`. -/
def Keys.ofIds (handle : Nat) (entries : Block) (ids : List Nat) (source : SourceId)
    (hints : Hints) : Query Keys := do
  Keys.make handle entries (.ofList (← Ledger.fresh) ids) 0 ids.length source hints

/-- A dictionary block that refers to the entries by ids. -/
def Block.mkDictionary (entries : Block) (ids : List Nat) (source : SourceId) : Query Block := do
  checkIds ids entries.positionCount
  let entries ← entries.duplicate
  return dictionary (← Keys.ofIds (← Ledger.fresh) entries ids source .none) entries

end BatchColumn
