import BatchColumn.Memory

/-!
# Offsets of consecutive entries

`Offsets` collects the lengths of entries that are laid out one after the other. It always starts
with the offset zero, which is therefore not stored: `ends` holds where each entry ends. Lengths
count modulo `2 ^ 32`, the range of a stored offset, and so does the end of an entry that is pushed.
Where arithmetic is checked an end past that range panics, and this is how entries are laid out
(`addLength`, `ofLengths`).

`toList` shows all offsets, the zero included. One more entry is one more offset at its end
(`toList_addLength`), so entries are added one by one at no cost but their own.
-/

namespace BatchColumn

/-- Where each of a run of consecutive entries ends. -/
structure Offsets where
  /-- The end of each entry. -/
  ends : Array Nat

namespace Offsets

/-- No entries. -/
def empty : Offsets := ⟨#[]⟩

/-- No entries, with room for `capacity` of them. -/
def withCapacity (capacity : Nat) : Except Fault Offsets := do
  allocate (capacity + 1) idSize
  return empty

/-- How many entries there are. -/
def itemCount (offsets : Offsets) : Nat :=
  offsets.ends.size

/-- There are no entries. -/
def isEmpty (offsets : Offsets) : Bool :=
  offsets.itemCount == 0

/-- All offsets, the leading zero included: one more than entries. -/
def toList (offsets : Offsets) : List Nat :=
  0 :: offsets.ends.toList

/-- Where the last entry ends. -/
def last (offsets : Offsets) : Nat :=
  offsets.ends.back?.getD 0

/-- One more entry, of this length. An end past the range of an offset wraps around. -/
def pushLength (offsets : Offsets) (length : Nat) : Offsets :=
  ⟨offsets.ends.push ((offsets.last + length % UInt32.size) % UInt32.size)⟩

/-- One more entry, of this length. An end past the range of an offset panics. -/
def addLength (offsets : Offsets) (length : Nat) : Except Fault Offsets :=
  if offsets.last + length % UInt32.size < UInt32.size then .ok (offsets.pushLength length)
  else .error .panic

/-- More entries, all of them empty. -/
def pushEmpty (offsets : Offsets) (count : Nat) : Except Fault Offsets := do
  allocate (offsets.itemCount + 1 + count) idSize
  return ⟨offsets.ends ++ Array.replicate count offsets.last⟩

/-- Entries of these lengths. -/
def ofLengths (lengths : List Nat) : Except Fault Offsets :=
  lengths.foldlM addLength empty

/-! ### What offsets hold -/

@[simp] theorem toList_empty : empty.toList = [0] := rfl

@[simp] theorem length_toList (offsets : Offsets) :
    offsets.toList.length = offsets.itemCount + 1 := by
  simp [toList, itemCount]

/-- The last entry ends where the last offset says. -/
theorem getLastD_toList (offsets : Offsets) : offsets.toList.getLastD 0 = offsets.last := by
  simp [toList, last, List.getLast?_cons]

/-- **An entry that is added ends the given length after the last one**, and moves no other. -/
theorem toList_addLength {offsets more : Offsets} {length : Nat}
    (added : offsets.addLength length = .ok more) :
    more.toList = offsets.toList ++ [offsets.last + length % UInt32.size] := by
  rw [addLength] at added
  split at added
  next room =>
    cases added
    simp [toList, pushLength, Nat.mod_eq_of_lt room]
  next => cases added

end Offsets

end BatchColumn
