import BatchColumn.Error

/-!
# Room for arrays and sums

The bytes that the items of arrays take, and the bound on the bytes of one array. The bound is far
above the size of any block that is held; it is met by a block that is not loaded yet, which may be
said to have any number of positions.

A sum of bytes is a word of 64 bits. Positions that share what they refer to may be many times what
is held, so a sum over them can pass any word; such a sum panics.
-/

namespace BatchColumn

/-- Bytes of one id or offset. -/
def idSize : Nat := 4

/-- Bytes of one null flag. -/
def flagSize : Nat := 1

/-- Bytes of one number that may be missing: two words. -/
def optionalSize : Nat := 16

/-- Bytes of the record of one byte string that may be missing: three words. -/
def stringSize : Nat := 24

/-- An array of `count` items of `width` bytes must have fewer than `2 ^ 63` bytes; a larger one
panics. -/
def allocate (count width : Nat) : Except Fault Unit :=
  if count * width < 1 <<< 63 then .ok () else .error .panic

/-- A sum of bytes must be below `2 ^ 64`; a larger one panics. -/
def checkSize (size : Nat) : Except Fault Nat :=
  if size < UInt64.size then .ok size else .error .panic

/-! ### Sums that are checked -/

theorem checkSize_of_lt {size : Nat} (room : size < UInt64.size) : checkSize size = .ok size :=
  if_pos room

theorem checkSize_of_le {size : Nat} (beyond : UInt64.size ≤ size) :
    checkSize size = .error .panic :=
  if_neg (Nat.not_lt.2 beyond)

theorem checkSize_eq_ok_iff {size n : Nat} :
    checkSize size = .ok n ↔ size < UInt64.size ∧ size = n := by
  rw [checkSize]
  split
  next room => simp [room]
  next beyond => simp [beyond]

theorem checkSize_eq_error_iff {size : Nat} {fault : Fault} :
    checkSize size = .error fault ↔ UInt64.size ≤ size ∧ fault = .panic := by
  rw [checkSize]
  split
  next room => simp [Nat.not_le.2 room]
  next beyond => simp [Nat.not_lt.1 beyond, eq_comm]

/-- A sum that is checked on the way is checked at its end: sums only grow. -/
theorem checkSize_bind (size more : Nat) :
    (checkSize size >>= fun total => checkSize (total + more)) = checkSize (size + more) := by
  rcases Nat.lt_or_ge size UInt64.size with room | beyond
  · rw [checkSize_of_lt room]
    rfl
  · rw [checkSize_of_le beyond, checkSize_of_le (Nat.le_trans beyond (Nat.le_add_right size more))]
    rfl

end BatchColumn
