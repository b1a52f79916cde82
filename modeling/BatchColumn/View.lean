import BatchColumn.Error

/-!
# Views of shared storage

A `View` is a window `[offset, offset + length)` of an array that any number of views share. Which
views share it is told by the identity of the `storage`, a number given out once per array: equal
contents in two storages stay apart. Nothing is ever written through a view.

`toList` is what a view holds, and the operations are described through it: `get?` reads it
(`get?_eq_getElem?_toList`), `region?` takes a window of the window (`toList_of_region?`), `compact`
keeps the contents (`toList_compact`) and leaves a view that is whole. So a statement about a view
is one about a list, and that the items stand in an array shows in nothing but the time that `get?`
takes.
-/

namespace BatchColumn

/-- A window of a shared, immutable array. -/
structure View (α : Type) where
  /-- The identity of the array behind the view. -/
  storage : Nat
  /-- The array behind the view. -/
  backing : Array α
  /-- Where the window starts. -/
  offset : Nat
  /-- How many items the window has. -/
  length : Nat
  /-- The window lies inside the array. -/
  fits : offset + length ≤ backing.size

namespace View

variable {α : Type}

/-- A view of all of an array of these items, under the identity `storage`. -/
def ofList (storage : Nat) (items : List α) : View α where
  storage := storage
  backing := items.toArray
  offset := 0
  length := items.length
  fits := by simp

/-- The items of the window. -/
def toList (v : View α) : List α :=
  (v.backing.extract v.offset (v.offset + v.length)).toList

/-- The item at an index of the window. -/
def get? (v : View α) (i : Nat) : Option α :=
  if i < v.length then v.backing[v.offset + i]? else none

/-- The item at an index of the window. -/
def item (v : View α) (i : Nat) (inside : i < v.length) : α :=
  have := v.fits
  v.backing[v.offset + i]

/-- The item at an index of the window; an index outside it panics. -/
def get (v : View α) (i : Nat) : Except Fault α :=
  orPanic (v.get? i)

/-- A window of the window, over the same storage; none if it does not fit. -/
def region? (v : View α) (offset length : Nat) : Option (View α) :=
  if inside : offset + length ≤ v.length then
    some
      { storage := v.storage
        backing := v.backing
        offset := v.offset + offset
        length := length
        fits := by have := v.fits; omega }
  else none

/-- A window of the window; one that does not fit panics. -/
def region (v : View α) (offset length : Nat) : Except Fault (View α) :=
  orPanic (v.region? offset length)

/-- The window covers all of the array behind it. -/
def isWhole (v : View α) : Bool :=
  v.offset == 0 && v.length == v.backing.size

/-- Two views of the same array. -/
def sharesStorage (v w : View α) : Bool :=
  v.storage == w.storage

/-- Two views of the same window of the same array. -/
def sameView (v w : View α) : Bool :=
  v.sharesStorage w && v.offset == w.offset && v.length == w.length

/-- Bytes that the view keeps alive: the whole array behind it, `width` bytes an item. -/
def retainedSize (v : View α) (width : Nat) : Nat :=
  width * v.backing.size

/-- A view that retains its own items only: itself if it is whole, else a copy under the identity
`storage`. -/
def compact (v : View α) (storage : Nat) : View α :=
  if v.isWhole then v else ofList storage v.toList

/-- The text of a view, its items between brackets. -/
def text [ToString α] (v : View α) : String :=
  let items := ", ".intercalate (v.toList.map toString)
  s!"SharedArray([{items}])"

/-! ### What a view holds -/

/-- The items of the window are a stretch of the items of the array. -/
theorem toList_eq_take_drop (v : View α) :
    v.toList = (v.backing.toList.drop v.offset).take v.length := by
  simp [toList, List.extract_eq_take_drop]

@[simp] theorem length_toList (v : View α) : v.toList.length = v.length := by
  have := v.fits
  simp [toList]
  omega

@[simp] theorem toList_ofList (storage : Nat) (items : List α) :
    (ofList storage items).toList = items := by
  simp [toList_eq_take_drop, ofList]

@[simp] theorem length_ofList (storage : Nat) (items : List α) :
    (ofList storage items).length = items.length := rfl

/-- Reading a view is reading the list it holds. -/
theorem get?_eq_getElem?_toList (v : View α) (i : Nat) : v.get? i = v.toList[i]? := by
  simp [get?, toList_eq_take_drop, List.getElem?_take, List.getElem?_drop]

theorem get?_eq_some_item (v : View α) {i : Nat} (inside : i < v.length) :
    v.get? i = some (v.item i inside) := by
  have := v.fits
  simp only [get?, item, inside, if_true]
  exact Array.getElem?_eq_getElem (by omega)

/-- A window of a view holds the corresponding stretch of its items. -/
theorem toList_of_region? {v w : View α} {offset length : Nat}
    (h : v.region? offset length = some w) :
    w.toList = (v.toList.drop offset).take length := by
  unfold region? at h
  split at h
  next inside =>
    obtain rfl := Option.some.inj h
    simp only [toList_eq_take_drop, List.drop_take, List.take_take, List.drop_drop]
    rw [Nat.min_eq_left (Nat.le_sub_of_add_le' inside)]
  next => cases h

/-- **Compacting keeps the items.** -/
@[simp] theorem toList_compact (v : View α) (storage : Nat) :
    (v.compact storage).toList = v.toList := by
  unfold compact
  split <;> simp

end View

end BatchColumn
