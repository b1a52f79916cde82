import BatchColumn.Block.Gather

/-!
# Compacting dictionaries

A dictionary block is **compact** if every entry is referred to and the entries are no dictionary
block themselves. `Keys.compact` makes an equivalent block that is, in two steps:

* `Keys.flatten` looks ids up through directly nested dictionaries, until they refer to something
  that is no dictionary;
* `Keys.shrink` gathers the entries that are referred to, each once and in the order of first
  reference, and renumbers the ids.

The result is a block over the old entries, with the identity of the old dictionary, if it was
compact already or if its entries cannot be gathered.
-/

namespace BatchColumn

/-- Looks ids up in a block of entries, and through the dictionaries directly below it. The result
is the first block that is no dictionary block, its handle and the ids into it. -/
def Block.flattenIds (loads : Loads) (handle : Nat) (entries : Block) (ids : List Nat) :
    Except Error (Nat × Block × List Nat) := do
  match entries.face? loads with
  | some (.dictionary keys inner _) =>
    verifyState (ids.all (· < keys.count)) "nested_id" "index < nested.position_count"
    inner.flattenIds loads keys.handle (← keys.idsAt ids)
  | _ => return (handle, entries, ids)
termination_by entries.depth

namespace Keys

/-- Every entry is referred to, and the entries are no dictionary block. -/
def isCompact (keys : Keys) (entries : Block) : Query Bool := do
  if entries.isNested (← read) then return false
  return (← keys.stats entries).unique == entries.positionCount

/-- An equivalent dictionary block whose entries are no dictionary block, under a new identity. -/
def flatten (keys : Keys) (entries : Block) : Query (Keys × Block) := do
  let (handle, inner, ids) ← entries.flattenIds (← read) keys.handle keys.toList
  return (← Keys.ofIds handle inner ids (← Ledger.mint) .none, inner)

/-- An equivalent dictionary block with the entries that are referred to, if the entries, which are
no dictionary block, can be gathered. -/
def shrink (keys : Keys) (entries : Block) : Query (Keys × Block) := do
  let stats ← keys.stats entries
  if stats.unique = entries.positionCount || !entries.supportsGather (← read) then
    return (← keys.duplicate, entries)
  let gathered ← entries.gather keys.toList.eraseDups
  let hints : Hints := ⟨true, stats.unique == keys.count⟩
  let compacted ← Keys.ofIds (← Ledger.fresh) gathered (renumber keys.toList) (← Ledger.mint) hints
  return (compacted, gathered)

/-- An equivalent dictionary block that is compact, if its entries can be gathered. -/
def compact (keys : Keys) (entries : Block) : Query (Keys × Block) := do
  if entries.isNested (← read) then
    let (keys, entries) ← keys.flatten entries
    keys.shrink entries
  else keys.shrink entries

end Keys

end BatchColumn
