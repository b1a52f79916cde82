import BatchColumn.Block.Store

/-!
# What can be told without reading

Facts about a block that follow from its layers and from what is loaded. They are functions of
`Loads`: asking them computes no figure and loads nothing. Of a lazy block that is not loaded they
say the least that is safe: it may have nulls, it is not loaded, it cannot be gathered, and it has
no children.
-/

namespace BatchColumn

namespace Block

/-- The block has no positions. -/
def isEmpty (block : Block) : Bool :=
  block.positionCount == 0

/-- Some position may be null. If this is false, none is. -/
def mayHaveNull (loads : Loads) (block : Block) : Bool :=
  match block.face? loads with
  | none => true
  | some (.ints leaf) => leaf.nulls.mayHaveNull
  | some (.slices leaf) => leaf.nulls.mayHaveNull
  | some (.array lists _ _) => lists.nulls.mayHaveNull
  | some (.dictionary keys entries _) => 0 < keys.count && entries.mayHaveNull loads
termination_by block.depth

/-- Everything the block is made of is loaded. -/
def isLoaded (loads : Loads) (block : Block) : Bool :=
  match block.face? loads with
  | none => false
  | some (.ints _) | some (.slices _) => true
  | some (.array _ elements _) => elements.isLoaded loads
  | some (.dictionary _ entries _) => entries.isLoaded loads
termination_by block.depth

/-- Positions of the block can be gathered: nothing in the way of the leaf is unloaded. -/
def supportsGather (loads : Loads) (block : Block) : Bool :=
  match block.face? loads with
  | none => false
  | some (.ints _) | some (.slices _) => true
  | some (.array _ elements _) => elements.supportsGather loads
  | some (.dictionary _ entries _) => entries.supportsGather loads
termination_by block.depth

/-- What a lazy block has loaded. -/
def content? (loads : Loads) : Block → Option Block
  | lazy promise payload => (loads.content? promise.cell payload.depth).map Subtype.val
  | _ => none

/-- The blocks one layer below. -/
def children (loads : Loads) : Block → List Block
  | ints _ | slices _ => []
  | array _ elements => [elements]
  | dictionary _ entries => [entries]
  | lazy promise payload => ((lazy promise payload).content? loads).toList

/-- Bytes that the block keeps alive: the records of its layers and the whole of every array behind
them, shared with other blocks or not. -/
def retainedSize (loads : Loads) : Block → Nat
  | ints leaf => leaf.retainedSize
  | slices leaf => leaf.retainedSize
  | array lists elements => lists.retainedSize + elements.retainedSize loads
  | dictionary keys entries => keys.retainedSize + entries.retainedSize loads
  | lazy promise payload =>
    match loads.content? promise.cell payload.depth with
    | some content => Promise.retainedSize + content.1.retainedSize loads
    | none => Promise.retainedSize
termination_by block => block.depth
decreasing_by
  all_goals simp only [depth]
  · omega
  · omega
  · have := content.2
    omega

/-- How many layers of keys lie directly over one another, through what is loaded. -/
def keyDepth (loads : Loads) (block : Block) : Nat :=
  match block.face? loads with
  | some (.dictionary _ entries _) => entries.keyDepth loads + 1
  | _ => 0
termination_by block.depth

end Block

end BatchColumn
