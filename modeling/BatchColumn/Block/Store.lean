import BatchColumn.Block.Basic
import BatchColumn.Ledger

/-!
# What is loaded, and who may load

`Loads` records what lazy blocks have loaded, cell by cell, and which loaders were called. A `Store`
is that record and the `Ledger`. Two kinds of calls run over a store:

* a `Query` reads what is loaded, gives out identities and remembers figures. It has no way to load:
  its type holds the loads fixed.
* a `Session` may load as well. A query is a session that loads nothing.

Both keep what they have done to the store when they fail.

A cell never holds a block deeper than the payload it was loaded from, and `Loads.content?` says so
in its type; walks through loaded blocks end for this reason. `Block.face?` looks through the loaded
lazy blocks in front of a block and shows what stands behind them, a `Face`: a leaf, lists or keys,
never a lazy block.
-/

namespace BatchColumn

/-- What lazy blocks have loaded. -/
structure Loads where
  /-- The block in each cell. -/
  payloads : Slots Block
  /-- The cells whose loaders were called, the last one first. -/
  calls : List Nat

namespace Loads

/-- Nothing loaded. -/
def empty : Loads := ⟨.empty, []⟩

/-- How often the loader of a cell was called. -/
def callCount (loads : Loads) (cell : Nat) : Nat :=
  loads.calls.count cell

/-- What a cell holds, of a depth that its payload allows. -/
def content? (loads : Loads) (cell bound : Nat) : Option (Within bound) :=
  match loads.payloads.get? cell with
  | some block => if within : block.depth ≤ bound then some ⟨block, within⟩ else none
  | none => none

/-- One more call of a loader. -/
def call (loads : Loads) (cell : Nat) : Loads :=
  { loads with calls := cell :: loads.calls }

/-- Puts a block into a cell, unless the cell holds one. -/
def publish (loads : Loads) (cell : Nat) (block : Block) : Loads :=
  { loads with payloads := loads.payloads.publish cell block }

end Loads

/-- All that blocks share. -/
structure Store where
  /-- What is loaded. -/
  loads : Loads
  /-- What is given out and remembered. -/
  ledger : Ledger

/-- Nothing loaded, nothing remembered. -/
def Store.empty : Store := ⟨.empty, .empty⟩

/-! ### Calls -/

/-- A call that cannot load. -/
abbrev Query : Type → Type :=
  ReaderT Loads (ExceptT Fault (StateM Ledger))

/-- A call that may load. -/
abbrev Session : Type → Type :=
  ExceptT Fault (StateM Store)

/-- A query, run where loading is allowed. -/
def Query.lift {α : Type} (query : Query α) : Session α := fun store =>
  let (result, ledger) := (query.run store.loads).run store.ledger
  (result, { store with ledger := ledger })

instance (priority := low) : MonadLift Query Session := ⟨Query.lift⟩

/-- The figure remembered under a memory. If there is none, it is worked out, and remembered if that
succeeds. -/
def Query.remembered {α : Type} (table : Ledger.Table α) (memory : Nat) (figure : Query α) :
    Query α := do
  match (table.slots (← getThe Ledger)).get? memory with
  | some known => return known
  | none =>
    let found ← figure
    modifyThe Ledger (table.update (·.publish memory found))
    return found

/-! ### Calls at many positions

Positions are asked one by one, and no list of them is made first: a block that is not loaded yet
may be said to have more than can be listed, and the first answer will tell. The answers are kept in
reverse order while the rest is asked for, so that no call waits for a later one to return. -/

/-- The answers of a call at the numbers `[start, start + count)`, asked for in order until one
fails. They follow `answers`, of which the last one stands first. -/
@[specialize] def mapAfter {m : Type → Type} [Monad m] {α : Type} (call : Nat → m α)
    (start : Nat) : (count : Nat) → (answers : List α) → m (List α)
  | 0, answers => return answers.reverse
  | count + 1, answers => do
    let answer ← call start
    mapAfter call (start + 1) count (answer :: answers)

/-- The answers of a call at the numbers `[start, start + count)`, asked for in order until one
fails. -/
@[inline] def mapFrom {m : Type → Type} [Monad m] {α : Type} (start count : Nat)
    (call : Nat → m α) : m (List α) :=
  mapAfter call start count []

/-- A call holds at the numbers `[start, start + count)`, asked in order until it does not. -/
@[specialize] def allFrom {m : Type → Type} [Monad m] (start : Nat) :
    (count : Nat) → (call : Nat → m Bool) → m Bool
  | 0, _ => return true
  | count + 1, call => do
    if ← call start then allFrom (start + 1) count call else return false

/-- The sum of what a call answers at each of the items, in order. -/
@[specialize] def sumOver {m : Type → Type} [Monad m] [MonadLiftT (Except Fault) m] {α : Type}
    (items : List α) (call : α → m Nat) : m Nat :=
  items.foldlM (fun total item => do checkSize (total + (← call item))) 0

/-- The sum of what a call answers at the numbers `[start, start + count)`, in order, on top of
`total`. -/
@[specialize] def sumAfter {m : Type → Type} [Monad m] [MonadLiftT (Except Fault) m]
    (call : Nat → m Nat) (start : Nat) : (count : Nat) → (total : Nat) → m Nat
  | 0, total => return total
  | count + 1, total => do
    sumAfter call (start + 1) count (← checkSize (total + (← call start)))

/-- The sum of what a call answers at the numbers `[start, start + count)`, in order. -/
@[inline] def sumFrom {m : Type → Type} [Monad m] [MonadLiftT (Except Fault) m]
    (start count : Nat) (call : Nat → m Nat) : m Nat :=
  sumAfter call start count 0

/-- What is asked for from a number on follows the answers that are there. -/
theorem mapAfter_eq_mapM {m : Type → Type} [Monad m] [LawfulMonad m] {α : Type}
    (call : Nat → m α) (start count : Nat) (answers : List α) :
    mapAfter call start count answers =
      (answers.reverse ++ ·) <$> (List.range' start count).mapM call := by
  induction count generalizing start answers with
  | zero => simp [mapAfter]
  | succ count ih => simp [mapAfter, List.range'_succ, ih]

/-- Asking from a number on is asking along the list of those numbers. -/
theorem mapFrom_eq_mapM {m : Type → Type} [Monad m] [LawfulMonad m] {α : Type}
    (start count : Nat) (call : Nat → m α) :
    mapFrom start count call = (List.range' start count).mapM call := by
  simp [mapFrom, mapAfter_eq_mapM]

/-- Adding up from a number on is adding up along the list of those numbers. -/
theorem sumFrom_eq_sumOver {m : Type → Type} [Monad m] [LawfulMonad m]
    [MonadLiftT (Except Fault) m] (start count : Nat) (call : Nat → m Nat) :
    sumFrom start count call = sumOver (List.range' start count) call := by
  suffices after : ∀ total, sumAfter call start count total =
      (List.range' start count).foldlM
        (fun total item => do checkSize (total + (← call item))) total from after 0
  induction count generalizing start with
  | zero => exact fun total => rfl
  | succ count ih => simp [sumAfter, List.range'_succ, ih]

/-! ### Faces -/

/-- What stands behind the loaded lazy blocks in front of a block; the layers below it are less deep
than `bound`. -/
inductive Face (bound : Nat) where
  /-- A leaf of integers. -/
  | ints (leaf : Ints)
  /-- A leaf of byte strings. -/
  | slices (leaf : Slices)
  /-- Lists of elements. -/
  | array (lists : Lists) (elements : Block) (below : elements.depth < bound)
  /-- References to entries. -/
  | dictionary (keys : Keys) (entries : Block) (below : entries.depth < bound)

namespace Face

/-- A face is also one under any larger bound. -/
def widen {bound wider : Nat} (le : bound ≤ wider) : Face bound → Face wider
  | ints leaf => ints leaf
  | slices leaf => slices leaf
  | array lists elements below => array lists elements (Nat.lt_of_lt_of_le below le)
  | dictionary keys entries below => dictionary keys entries (Nat.lt_of_lt_of_le below le)

/-- The face as a block. -/
def toBlock {bound : Nat} : Face bound → Block
  | ints leaf => .ints leaf
  | slices leaf => .slices leaf
  | array lists elements _ => .array lists elements
  | dictionary keys entries _ => .dictionary keys entries

/-- The encoding of the face. -/
def encoding {bound : Nat} (face : Face bound) : String :=
  face.toBlock.encoding

/-- A refusal that names the operation and the encoding of the face. -/
def unsupported {bound : Nat} (face : Face bound) (operation : String) : Error :=
  face.toBlock.unsupported operation

end Face

/-- What stands behind the loaded lazy blocks in front of a block; nothing if one of them is not
loaded. -/
def Block.face? (loads : Loads) : (block : Block) → Option (Face block.depth)
  | .ints leaf => some (.ints leaf)
  | .slices leaf => some (.slices leaf)
  | .array lists elements => some (.array lists elements (Nat.lt_succ_self _))
  | .dictionary keys entries => some (.dictionary keys entries (Nat.lt_succ_self _))
  | .lazy promise payload =>
    match loads.content? promise.cell payload.depth with
    | some content =>
      (content.1.face? loads).map (.widen (Nat.le_succ_of_le content.2))
    | none => none
termination_by block => block.depth
decreasing_by
  have := content.2
  simp only [Block.depth]
  omega

/-- The keys and entries of the dictionary block that a block is or, through loaded lazy blocks,
comes to. -/
def Block.resolved? (loads : Loads) (block : Block) : Option (Keys × Block) :=
  match block.face? loads with
  | some (.dictionary keys entries _) => some (keys, entries)
  | _ => none

/-- The block is a dictionary block, or comes to one through loaded lazy blocks. -/
def Block.isNested (loads : Loads) (block : Block) : Bool :=
  (block.resolved? loads).isSome

end BatchColumn
