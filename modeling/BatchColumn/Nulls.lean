import BatchColumn.View

/-!
# Null flags

The positions of a block that hold no value are marked by flags, which a block keeps only if it has
to: `Nulls.ofFlags` drops flags that mark nothing. `mayHaveNull` is then a cheap necessary condition
— but only that, since a window of the flags is taken as it is, marked position or not.
-/

namespace BatchColumn

/-- The null flags of a block, if it keeps any. Without flags, no position is null. -/
structure Nulls where
  /-- One flag per position; `true` marks a null. -/
  flags : Option (View Bool)

namespace Nulls

/-- No position is null. -/
def none : Nulls := ⟨.none⟩

/-- Flags under the identity `storage`, dropped if they mark nothing. -/
def ofFlags (storage : Nat) (flags : List Bool) : Nulls :=
  if flags.any id then ⟨some (.ofList storage flags)⟩ else none

/-- Flags that need not be given. -/
def ofFlags? (storage : Nat) : Option (List Bool) → Nulls
  | some flags => ofFlags storage flags
  | .none => none

/-- A position of the block may be null. -/
def mayHaveNull (nulls : Nulls) : Bool :=
  nulls.flags.isSome

/-- The flags kept. -/
def toList? (nulls : Nulls) : Option (List Bool) :=
  nulls.flags.map View.toList

/-- The flag at an index; an index outside flags that are kept panics. -/
def isNull (nulls : Nulls) (i : Nat) : Except Fault Bool :=
  match nulls.flags with
  | some flags => flags.get i
  | .none => .ok false

/-- A window of the flags, as it is. -/
def window (nulls : Nulls) (offset length : Nat) : Except Fault Nulls :=
  match nulls.flags with
  | some flags => do return ⟨some (← flags.region offset length)⟩
  | .none => .ok none

/-- A window of the flags that retains nothing else. -/
def copy (nulls : Nulls) (storage offset length : Nat) : Except Fault Nulls :=
  match nulls.flags with
  | some flags => do return ⟨some ((← flags.region offset length).compact storage)⟩
  | .none => .ok none

/-- The flags at some indices, in new storage. -/
def gather (nulls : Nulls) (storage : Nat) (indices : List Nat) : Except Fault Nulls :=
  match nulls.flags with
  | some flags => do return ofFlags storage (← indices.mapM flags.get)
  | .none => .ok none

/-- Both flag sets are the same view, or both are absent. -/
def sameView (nulls other : Nulls) : Bool :=
  match nulls.flags, other.flags with
  | .none, .none => true
  | some flags, some others => flags.sameView others
  | _, _ => false

/-- Bytes that the flags keep alive. -/
def retainedSize (nulls : Nulls) : Nat :=
  match nulls.flags with
  | some flags => flags.retainedSize 1
  | .none => 0

end Nulls

end BatchColumn
