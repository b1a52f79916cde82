/-!
# Values

A `Value` is what one position of a block holds once its encoding is taken away: nothing, an
integer, a byte string, or a list of values. Integers of every width become the same `Value.long`.

Two blocks hold the same column exactly when they hold equal values position by position, so
equality of values is decidable; `Value.digest` is a digest that equal values share.
-/

namespace BatchColumn

/-- The value at one position of a block. -/
inductive Value where
  /-- No value. -/
  | null
  /-- An integer of any width. -/
  | long (n : Int)
  /-- A byte string. -/
  | bytes (octets : List UInt8)
  /-- The elements of a list. -/
  | list (items : List Value)

namespace Value

/-- The bytes of a text, in UTF-8. -/
def ofText (text : String) : Value :=
  bytes text.toUTF8.toList

mutual

/-- Equality of values is decided by comparing their parts. -/
def decEq : (v w : Value) → Decidable (v = w)
  | null, null => isTrue rfl
  | long m, long n => if h : m = n then isTrue (by rw [h]) else isFalse (by simp [h])
  | bytes a, bytes b => if h : a = b then isTrue (by rw [h]) else isFalse (by simp [h])
  | list a, list b =>
    match decEqAll a b with
    | isTrue h => isTrue (by rw [h])
    | isFalse h => isFalse (by simp [h])
  | null, long _ | null, bytes _ | null, list _
  | long _, null | long _, bytes _ | long _, list _
  | bytes _, null | bytes _, long _ | bytes _, list _
  | list _, null | list _, long _ | list _, bytes _ => isFalse (by simp)

/-- Equality of lists of values. -/
def decEqAll : (vs ws : List Value) → Decidable (vs = ws)
  | [], [] => isTrue rfl
  | [], _ :: _ => isFalse (by simp)
  | _ :: _, [] => isFalse (by simp)
  | v :: vs, w :: ws =>
    match decEq v w with
    | isFalse h => isFalse (by simp [h])
    | isTrue h =>
      match decEqAll vs ws with
      | isTrue hs => isTrue (by rw [h, hs])
      | isFalse hs => isFalse (by simp [hs])

end

instance : DecidableEq Value := decEq

mutual

/-- A digest of a value. -/
def digest : Value → UInt64
  | null => 1
  | long n => mixHash 2 (hash n)
  | bytes octets => mixHash 3 (hash octets)
  | list items => mixHash 4 (digestAll items)

/-- A digest of a list of values. -/
def digestAll : List Value → UInt64
  | [] => 5
  | v :: vs => mixHash v.digest (digestAll vs)

end

instance : Hashable Value := ⟨digest⟩

end Value

end BatchColumn
