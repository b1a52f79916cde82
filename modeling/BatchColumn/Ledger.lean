import BatchColumn.SourceId

/-!
# The ledger

What blocks remember and cannot hold themselves. A block is a value, but two of its properties are
not: arrays, handles and caches have **identities**, and a derived figure, once computed, is
**remembered** for every later caller. The `Ledger` gives out the identities and keeps the figures.

* Identities are natural numbers that count up, so a new one differs from all before it. The
  sequence of minted dictionary identities counts on its own.
* A figure is kept in a table under the identity of the block's memory. A table never changes an
  entry: the first figure published under a key stays (`Slots.get?_publish`).
-/

namespace BatchColumn

/-! ### Write-once tables -/

/-- A table whose entries are written once. -/
structure Slots (α : Type) where
  /-- The keys written, with what was written. -/
  entries : List (Nat × α)

namespace Slots

variable {α : Type}

/-- Nothing written. -/
def empty : Slots α := ⟨[]⟩

/-- What was written under a key. -/
def get? (slots : Slots α) (key : Nat) : Option α :=
  slots.entries.lookup key

/-- Writes under a key, unless the key is taken. -/
def publish (slots : Slots α) (key : Nat) (a : α) : Slots α :=
  match slots.get? key with
  | some _ => slots
  | none => ⟨(key, a) :: slots.entries⟩

/-- Writes under one key what stands under another, if anything. -/
def copy (slots : Slots α) (source target : Nat) : Slots α :=
  match slots.get? source with
  | some a => slots.publish target a
  | none => slots

@[simp] theorem get?_empty (key : Nat) : (empty : Slots α).get? key = none := rfl

/-- **The first entry under a key stays**, and no other key is touched. -/
theorem get?_publish (slots : Slots α) (key k : Nat) (a : α) :
    (slots.publish key a).get? k =
      if k = key then some ((slots.get? key).getD a) else slots.get? k := by
  unfold publish
  cases h : slots.get? key with
  | some b => by_cases hk : k = key <;> simp [hk, h]
  | none =>
    by_cases hk : k = key
    · simp [hk, get?]
    · have hne : (k == key) = false := by simpa using hk
      simp [hk, get?, List.lookup_cons, hne]

end Slots

/-! ### The ledger -/

/-- What one pass over the ids of a dictionary block tells. -/
structure Stats where
  /-- Bytes of the referenced entries, each once, and of the ids. -/
  size : Nat
  /-- How many entries are referenced. -/
  unique : Nat
  /-- The entry referenced grows from each position to the next. -/
  sequential : Bool
  deriving DecidableEq

/-- Identities given out, and figures remembered. -/
structure Ledger where
  /-- The next identity. -/
  next : Nat
  /-- How many dictionary identities were minted. -/
  minted : Nat
  /-- Sizes of blocks of lists. -/
  sizes : Slots Nat
  /-- Statistics of dictionary blocks. -/
  stats : Slots Stats
  /-- Logical sizes of dictionary blocks. -/
  logicalSizes : Slots Nat

namespace Ledger

/-- Nothing given out, nothing remembered. -/
def empty : Ledger :=
  ⟨0, 0, .empty, .empty, .empty⟩

/-- An identity that was never given out before. -/
def fresh : StateM Ledger Nat :=
  modifyGet fun ledger => (ledger.next, { ledger with next := ledger.next + 1 })

/-- A dictionary identity that was never minted before. -/
def mint : StateM Ledger SourceId :=
  modifyGet fun ledger => (⟨.own, ledger.minted⟩, { ledger with minted := ledger.minted + 1 })

/-- A new memory that starts with all that another one remembers. -/
def carryOver (memory : Nat) : StateM Ledger Nat := do
  let copy ← fresh
  modify fun ledger =>
    { ledger with
      sizes := ledger.sizes.copy memory copy
      stats := ledger.stats.copy memory copy
      logicalSizes := ledger.logicalSizes.copy memory copy }
  return copy

/-- One of the tables of the ledger. -/
structure Table (α : Type) where
  /-- What the table holds. -/
  slots : Ledger → Slots α
  /-- A change of the table, which leaves the rest of the ledger alone. -/
  update : (Slots α → Slots α) → Ledger → Ledger

/-- The sizes of blocks of lists. -/
def sizeTable : Table Nat :=
  ⟨sizes, fun change ledger => { ledger with sizes := change ledger.sizes }⟩

/-- The statistics of dictionary blocks. -/
def statsTable : Table Stats :=
  ⟨stats, fun change ledger => { ledger with stats := change ledger.stats }⟩

/-- The logical sizes of dictionary blocks. -/
def logicalSizeTable : Table Nat :=
  ⟨logicalSizes, fun change ledger => { ledger with logicalSizes := change ledger.logicalSizes }⟩

end Ledger

end BatchColumn
