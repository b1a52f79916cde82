import BatchColumn.Block.Load
import BatchColumn.Block.Make

/-!
# Materialising

`Block.materialise` loads whatever lazy blocks a block is made of and returns an equivalent block
without any. A layer over a block that is loaded already is a duplicate of the layer. Any other
layer is made anew: it shares its offsets, flags and ids with the old one, but the block below it
has another handle and, for a dictionary block, a newly minted identity.
-/

namespace BatchColumn

/-- An equivalent block, all of it loaded. -/
def Block.materialise (block : Block) : Session Block := do
  match ← block.reveal with
  | .ints leaf => return ints leaf
  | .slices leaf => return slices leaf
  | .array lists elements _ =>
    if elements.isLoaded (← get).loads then return array (← lists.duplicate) elements
    let loaded ← elements.materialise
    return array { lists with handle := ← Ledger.fresh, memory := ← Ledger.fresh } loaded
  | .dictionary keys entries _ =>
    if entries.isLoaded (← get).loads then return dictionary (← keys.duplicate) entries
    let loaded ← entries.materialise
    let handle ← Ledger.fresh
    let keys ← Keys.make handle loaded keys.ids keys.offset keys.count (← Ledger.mint) .none
    return dictionary keys loaded
termination_by block.depth

end BatchColumn
