import BatchColumn.Block.Basic
import Mathlib.Algebra.BigOperators.Group.List.Lemmas
import Mathlib.Algebra.Order.Ring.Nat

/-!
# What a position holds

A `Datum` is what one position of a block holds once its encoding is taken away, and more than its
value: an integer keeps its width, and a null keeps the integer or the bytes that are stored under
it. `Block.datum?` tells the datum of a position by recursion on the layers. It is a function of the
block alone — the payload of a lazy block is part of the block — so it knows nothing of what is
loaded or remembered, and it is the yardstick for every operation: two blocks hold the same column
when their positions hold the same data.

All answers that reading gives at a position are functions of its datum (`Datum.value`,
`Datum.dataSize`, `Datum.readInt`, …). That the readers of a block compute these functions is a
theorem about loading and stands elsewhere; here is only the yardstick.

* `Block.Shows w b positions` says that `w` is `b` seen through a list of positions: windows,
  copies, gathers and selections all have this form.
* `Block.Mirrors c b` says that `c` holds what `b` holds, position by position: duplicates, loaded
  payloads and compacted dictionaries have this form.
* `Block.Loadable` says that every promise in a block will be kept.
-/

namespace BatchColumn

/-- What one position of a block holds. -/
inductive Datum where
  /-- An integer, or a null with the integer that is stored under it. -/
  | int (null : Bool) (width : Width) (n : Int)
  /-- A byte string, or a null with the bytes that are stored under it. -/
  | slice (null : Bool) (octets : List UInt8)
  /-- A list, or a null with the elements that are stored under it. -/
  | list (null : Bool) (items : List Datum)

namespace Datum

/-! ### Readings of a datum -/

/-- The datum is a null. -/
def isNull : Datum → Bool
  | int null _ _ | slice null _ | list null _ => null

/-- The encoding of the layer that holds the datum. -/
def encoding : Datum → String
  | int _ width _ => width.encoding
  | slice .. => Slices.encoding
  | list .. => Lists.encoding

mutual

/-- The value of a datum. -/
def value : Datum → Value
  | int null _ n => if null then .null else .long n
  | slice null octets => if null then .null else .bytes octets
  | list null items => if null then .null else .list (values items)

/-- The values of the elements of a list. -/
def values : List Datum → List Value
  | [] => []
  | datum :: rest => datum.value :: values rest

end

mutual

/-- Bytes of data that a datum counts for in column statistics. -/
def dataSize : Datum → Nat
  | int null width _ => if null then 0 else width.bytes
  | slice null octets => if null then 0 else octets.length
  | list null items => if null then 0 else totalSize items

/-- Bytes of data that the elements of a list count for. -/
def totalSize : List Datum → Nat
  | [] => 0
  | datum :: rest => datum.dataSize + totalSize rest

end

/-- The integer stored, read as one of width `width`. -/
def readInt (width : Width) : Datum → Except Error Int
  | int _ own n =>
    if width = .long ∨ width = own then .ok n else .error (.unsupported width.reader own.encoding)
  | datum => .error (.unsupported width.reader datum.encoding)

/-- The byte string stored. -/
def readSlice : Datum → Except Error (List UInt8)
  | slice _ octets => .ok octets
  | datum => .error (.unsupported "get_slice" datum.encoding)

/-- How many bytes the byte string stored has. -/
def sliceLength : Datum → Except Error Nat
  | slice _ octets => .ok octets.length
  | datum => .error (.unsupported "get_slice_length" datum.encoding)

theorem values_eq_map (items : List Datum) : values items = items.map value := by
  induction items with
  | nil => rfl
  | cons datum rest ih => rw [values, ih, List.map_cons]

theorem totalSize_eq_sum (items : List Datum) : totalSize items = (items.map dataSize).sum := by
  induction items with
  | nil => rfl
  | cons datum rest ih => rw [totalSize, ih, List.map_cons, List.sum_cons]

@[simp] theorem value_list (null : Bool) (items : List Datum) :
    (list null items).value = if null then .null else .list (items.map value) := by
  rw [value, values_eq_map]

@[simp] theorem dataSize_list (null : Bool) (items : List Datum) :
    (list null items).dataSize = if null then 0 else (items.map dataSize).sum := by
  rw [dataSize, totalSize_eq_sum]

end Datum

/-! ### The data of the layers -/

/-- The position is marked as null. A position that no flag is kept for is not. -/
def Nulls.marks (nulls : Nulls) (i : Nat) : Bool :=
  match nulls.flags with
  | some flags => flags.toList.getD i false
  | .none => false

/-- What a position of a leaf of integers holds. -/
def Ints.datum? (leaf : Ints) (position : Nat) : Option Datum :=
  leaf.cells.toList[position]?.map (.int (leaf.nulls.marks position) leaf.width)

/-- Where a byte string starts; of the position after the last one, where the last one ends. -/
def Slices.start (leaf : Slices) (position : Nat) : Nat :=
  leaf.offsets.toList.getD position 0

/-- The bytes of a position. -/
def Slices.octets (leaf : Slices) (position : Nat) : List UInt8 :=
  stretch leaf.bytes.toList (leaf.start position)
    (leaf.start (position + 1) - leaf.start position)

/-- What a position of a leaf of byte strings holds. -/
def Slices.datum? (leaf : Slices) (position : Nat) : Option Datum :=
  if position < leaf.count then some (.slice (leaf.nulls.marks position) (leaf.octets position))
  else none

/-- Where a list starts; of the position after the last one, where the last one ends. -/
def Lists.start (lists : Lists) (position : Nat) : Nat :=
  lists.offsets.toList.getD (lists.base + position) 0

/-- The positions of the elements of a list. -/
def Lists.members (lists : Lists) (position : Nat) : List Nat :=
  List.range' (lists.start position) (lists.start (position + 1) - lists.start position)

/-- What a position of an array block holds, if `element?` tells what its elements hold. -/
def Lists.datum? (lists : Lists) (element? : Nat → Option Datum) (position : Nat) :
    Option Datum :=
  if position < lists.count then
    some (.list (lists.nulls.marks (lists.base + position))
      ((lists.members position).filterMap element?))
  else none

/-- Where the positions promised start among those of the payload. -/
def Promise.shift (promise : Promise) : Nat :=
  (promise.windows.map Window.offset).sum

namespace Block

/-- What a position of a block holds. -/
def datum? : Block → Nat → Option Datum
  | ints leaf, position => leaf.datum? position
  | slices leaf, position => leaf.datum? position
  | array lists elements, position => lists.datum? (fun i => elements.datum? i) position
  | dictionary keys entries, position => keys.toList[position]?.bind fun id => entries.datum? id
  | lazy promise payload, position =>
    if position < promise.count then payload.datum? (promise.shift + position) else none

/-- Every promise in the block will be kept: its loader never refuses, and hands over a payload of
the promised length. -/
def Loadable : Block → Prop
  | ints _ | slices _ => True
  | array _ elements => elements.Loadable
  | dictionary _ entries => entries.Loadable
  | lazy promise payload =>
    (∀ calls, promise.root.refusal calls = none) ∧
      promise.root.count = payload.positionCount ∧ payload.Loadable

/-! ### Blocks that show other blocks -/

/-- One block holds what another holds, position by position. -/
structure Mirrors (c b : Block) : Prop where
  /-- Both have as many positions. -/
  count : c.positionCount = b.positionCount
  /-- Their positions hold the same data. -/
  datum : c.datum? = b.datum?
  /-- Promises that were kept before are kept still. -/
  loadable : b.Loadable → c.Loadable

/-- One block is another, seen through a list of positions. -/
structure Shows (w b : Block) (positions : List Nat) : Prop where
  /-- There is one position for each that is listed. -/
  count : w.positionCount = positions.length
  /-- It holds what the listed position holds. -/
  datum : ∀ i, w.datum? i = positions[i]?.bind b.datum?
  /-- Promises that were kept before are kept still. -/
  loadable : b.Loadable → w.Loadable

theorem Mirrors.refl (b : Block) : b.Mirrors b :=
  ⟨rfl, rfl, id⟩

theorem Mirrors.trans {a b c : Block} (first : a.Mirrors b) (second : b.Mirrors c) :
    a.Mirrors c :=
  ⟨first.count.trans second.count, first.datum.trans second.datum,
    first.loadable ∘ second.loadable⟩

/-- What shows a block shows all that the block mirrors. -/
theorem Shows.trans_mirrors {w c b : Block} {positions : List Nat}
    (shows : w.Shows c positions) (mirrors : c.Mirrors b) : w.Shows b positions where
  count := shows.count
  datum i := by rw [shows.datum, mirrors.datum]
  loadable := shows.loadable ∘ mirrors.loadable

theorem Mirrors.trans_shows {w c b : Block} {positions : List Nat}
    (mirrors : w.Mirrors c) (shows : c.Shows b positions) : w.Shows b positions where
  count := mirrors.count.trans shows.count
  datum i := by rw [mirrors.datum, shows.datum]
  loadable := mirrors.loadable ∘ shows.loadable

/-- A window is a block seen through consecutive positions. -/
theorem Shows.of_window {w b : Block} {offset length : Nat} (count : w.positionCount = length)
    (datum : ∀ i < length, w.datum? i = b.datum? (offset + i))
    (beyond : ∀ i, length ≤ i → w.datum? i = none) (loadable : b.Loadable → w.Loadable) :
    w.Shows b (List.range' offset length) where
  count := by rw [count, List.length_range']
  datum i := by
    rcases Nat.lt_or_ge i length with inside | outside
    · rw [datum i inside, List.getElem?_range' inside]
      simp
    · rw [beyond i outside, List.getElem?_eq_none (by simpa using outside)]
      rfl
  loadable := loadable

/-- Seeing a block through a window reads it past the offset. -/
theorem Shows.datum_range' {w b : Block} {offset length : Nat}
    (shows : w.Shows b (List.range' offset length)) {i : Nat} (inside : i < length) :
    w.datum? i = b.datum? (offset + i) := by
  rw [shows.datum, List.getElem?_range' inside]
  simp

end Block

end BatchColumn
