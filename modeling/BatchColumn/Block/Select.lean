import BatchColumn.Block.Compact

/-!
# Selections

`Block.select` picks positions without copying anything: the result is a dictionary block that
refers to them. Selecting from a dictionary block adds no layer. The result refers to the same
entries, under the same identity, and is known to be compact if the block is and each of its entries
is selected; that question is asked only where there are enough positions for it to be so.

Selecting never loads. A lazy block is wrapped whatever it has loaded.
-/

namespace BatchColumn

/-- The keys at some positions, over the same entries. -/
def Keys.select (keys : Keys) (entries : Block) (positions : List Nat) : Query Keys := do
  let compact ←
    if entries.positionCount ≤ positions.length then keys.isCompact entries else pure false
  let ids ← positions.mapM fun position => do
    let id ← keys.id position
    if compact && entries.positionCount ≤ id then throw .panic
    return id
  let hints : Hints := ⟨compact && (List.range entries.positionCount).all ids.contains, false⟩
  Keys.ofIds keys.handle entries ids keys.source hints

/-- The positions listed in `[offset, offset + length)`, as references to them. -/
def Block.select (block : Block) (positions : List Nat) (offset length : Nat) : Query Block := do
  checkStretch positions.length offset length
  let positions := stretch positions offset length
  match block with
  | dictionary keys entries => return dictionary (← keys.select entries positions) entries
  | _ =>
    checkPositions positions block.positionCount
    block.mkDictionary positions (← Ledger.mint)

end BatchColumn
