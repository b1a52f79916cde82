/-!
# Errors and faults

A call on a block ends in one of three ways: with an answer, with an `Error` — a cause that the
caller can read, test and report — or with a **panic**, when an index leaves the list it points
into or an array would be larger than any can be. `Fault` is the sum of the last two.

Each kind of error is one constructor and keeps the data of its cause; the wording of all of them
stands in `Error.message` alone. Three predicates sort the kinds for callers: `isBounds` (the caller
passed a bad position, region or argument), `isInternal` (the block itself is damaged) and
`isUnsupported` (the block cannot do what was asked).
-/

namespace BatchColumn

/-- Why a call was refused. -/
inductive Error where
  /-- The position is not below the number of positions. -/
  | positionOutOfBounds (position count : Nat)
  /-- The region `[offset, offset + length)` leaves the positions. -/
  | invalidRegion (offset length count : Nat)
  /-- The argument called `name` is not acceptable, for the reason `text`. -/
  | invalidArgument (name text : String)
  /-- Block state that no caller can bring about: the block is corrupted. -/
  | internal (text : String)
  /-- A block of this encoding cannot perform the operation. -/
  | unsupported (operation encoding : String)
  /-- No encoding of this name is registered. -/
  | unknownEncoding (name : String)
  /-- An encoding of this name is registered already. -/
  | duplicateEncoding (name : String)
  deriving DecidableEq

namespace Error

/-- The wording of an error. -/
def message : Error → String
  | positionOutOfBounds position count =>
      s!"position {position} is out of bounds for {count} positions"
  | invalidRegion offset length count =>
      s!"invalid region: offset {offset}, length {length}, position count {count}"
  | invalidArgument name text => s!"invalid argument {name}: {text}"
  | internal text => s!"internal invariant violated: {text}"
  | unsupported operation encoding =>
      s!"operation {operation} is not supported by {encoding} block"
  | unknownEncoding name => s!"unknown block encoding: {name}"
  | duplicateEncoding name => s!"encoding already registered: {name}"

/-- The errors that a caller can correct: a bad position, region or argument. -/
def isBounds : Error → Bool
  | positionOutOfBounds .. | invalidRegion .. | invalidArgument .. => true
  | _ => false

/-- The error reports corrupted block state. -/
def isInternal : Error → Bool
  | internal _ => true
  | _ => false

/-- The error reports an operation that the block cannot perform. -/
def isUnsupported : Error → Bool
  | unsupported .. => true
  | _ => false

/-- An id that points past the entries of its dictionary. -/
def missingKey (id : Nat) : Error :=
  internal s!"id {id} references a non-existent key"

end Error

/-- How a call fails. -/
inductive Fault where
  /-- The call was refused. -/
  | error (cause : Error)
  /-- An index left the list it points into, or an array would be too large. -/
  | panic
  deriving DecidableEq

/-- Refusals are faults. -/
instance : MonadLift (Except Error) (Except Fault) where
  monadLift
    | .ok a => .ok a
    | .error cause => .error (.error cause)

/-- The item looked up, or a panic if there is none. -/
def orPanic {α : Type} : Option α → Except Fault α
  | some a => .ok a
  | none => .error .panic

/-- A condition on the argument called `name` that the caller must meet. -/
def verifyArgument (holds : Bool) (name condition : String) : Except Error Unit :=
  if holds then .ok () else .error (.invalidArgument name condition)

/-- A condition that only corrupted state can break. -/
def verifyState (holds : Bool) (name condition : String) : Except Error Unit :=
  if holds then .ok () else .error (.internal s!"{name}: {condition}")

end BatchColumn
