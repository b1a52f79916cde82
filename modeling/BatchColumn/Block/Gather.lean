import BatchColumn.Block.Make

/-!
# Gathering

`Block.gather` makes a block of the values at some positions, which may repeat and come in any
order. The new block has arrays of its own. Gathering never loads: a lazy block that is not loaded
refuses, once the positions are found to be good ones. Byte strings and lists are laid out one after
the other, so a gather panics if their lengths come to more than an offset can be
(`Offsets.ofLengths`).

Lists are gathered by one gather of the elements in them; a null list brings none. Of a dictionary
block only as much survives as is of use. If the ids are likely to be distinct, or refer to another
dictionary, the entries are gathered and stand for themselves; else each entry referred to is
gathered once, and new keys refer to it.
-/

namespace BatchColumn

/-- The start and the end of the lists at some positions, nothing for a null list. -/
def Lists.filledSpans (lists : Lists) (positions : List Nat) :
    Except Fault (List (Option (Nat × Nat))) :=
  positions.mapM fun position => do
    if ← lists.isNull position then return none
    return some (← lists.span position)

namespace Block

/-- The values at some positions, in a new block. -/
def gather (block : Block) (positions : List Nat) : Query Block := do
  match block.face? (← read) with
  | none =>
    checkPositions positions block.positionCount
    throw (.error (block.unsupported "copy_positions"))
  | some (.ints leaf) =>
    checkPositions positions leaf.count
    return ints (← leaf.gather (← Ledger.fresh) (← Ledger.fresh) positions)
  | some (.slices leaf) =>
    checkPositions positions leaf.count
    return slices (← leaf.gather (← Slices.Storages.fresh) positions)
  | some (.array lists elements _) =>
    let spans ← lists.filledSpans positions
    let offsets ← Offsets.ofLengths <| spans.map fun span =>
      span.elim 0 fun (start, stop) => stop - start
    if (elements.face? (← read)).isNone then
      throw (.error (elements.unsupported "copy_positions"))
    let filled := spans.filterMap id
    let elements ← elements.gather (filled.flatMap fun (start, stop) =>
      List.range' start (stop - start))
    let flags? := if lists.nulls.mayHaveNull then some (spans.map Option.isNone) else none
    let nulls := Nulls.ofFlags? (← Ledger.fresh) flags?
    return array
      (.ofEnds (← Ledger.fresh) (← Ledger.fresh) (← Ledger.fresh) 0 offsets.ends.toList nulls)
      elements
  | some (.dictionary keys entries _) =>
    let ids ← keys.idsAt positions
    let known? := (← getThe Ledger).stats.get? keys.memory
    if ids.length ≤ 1 || entries.isNested (← read) || known?.any (·.unique == keys.count) then
      entries.gather ids
    else
      let distinct := ids.eraseDups
      let gathered ← entries.gather distinct
      if distinct.length = ids.length then return gathered
      let hints : Hints := ⟨!gathered.isNested (← read), false⟩
      let keys ← Keys.ofIds (← Ledger.fresh) gathered (renumber ids) (← Ledger.mint) hints
      return dictionary keys gathered
termination_by block.depth

/-- The values at the positions listed in `[offset, offset + length)`, in a new block. -/
def copyPositions (block : Block) (positions : List Nat) (offset length : Nat) : Query Block := do
  checkStretch positions.length offset length
  block.gather (stretch positions offset length)

end Block

end BatchColumn
