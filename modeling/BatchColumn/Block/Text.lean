import BatchColumn.Block.Store

/-!
# Blocks as text

The text of a block names its layers from the outside in, with their counts. It shows what a lazy
block has loaded only by saying whether it has. A dictionary block shows its identity, so it has a
text only if that identity was given by its bits (`SourceId.record?`).
-/

namespace BatchColumn

/-- A named record as text: its fields, each with its text, between braces. -/
def recordText (name : String) (fields : List (String × String)) : String :=
  let items := fields.map fun (field, text) => field ++ ": " ++ text
  name ++ " \x7b " ++ ", ".intercalate items ++ " \x7d"

/-- An identity as a record of its bits and its number. -/
def SourceId.record? (id : SourceId) : Option String :=
  match id.node with
  | .explicit high low => some <| recordText "DictionaryId"
      [("most_significant_bits", s!"{high.toNat}"), ("least_significant_bits", s!"{low.toNat}"),
        ("sequence_id", s!"{id.sequence}")]
  | .own => none

/-- The text of a block. -/
def Block.text? (loads : Loads) : Block → Option String
  | ints leaf => some <| recordText "FixedWidthBlock"
      [("encoding", "\"" ++ leaf.width.encoding ++ "\""), ("position_count", s!"{leaf.count}")]
  | slices leaf => some <| recordText "VariableWidthBlock"
      [("position_count", s!"{leaf.count}"), ("slice_bytes", s!"{leaf.payloadSize}")]
  | array lists elements => do
    return recordText "ArrayBlock"
      [("position_count", s!"{lists.count}"), ("offset_base", s!"{lists.base}"),
        ("raw_element_block", ← elements.text? loads)]
  | dictionary keys entries => do
    return recordText "DictionaryBlock"
      [("position_count", s!"{keys.count}"), ("dictionary_source_id", ← keys.source.record?),
        ("dictionary", ← entries.text? loads)]
  | lazy promise _ =>
    let loaded := (loads.payloads.get? promise.cell).isSome
    some <| recordText "LazyBlock"
      [("position_count", s!"{promise.count}"), ("loaded", if loaded then "true" else "false")]

end BatchColumn
