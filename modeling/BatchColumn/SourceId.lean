/-!
# Identities of dictionaries

Every physical dictionary has an identity, its `SourceId`, and two dictionary blocks with equal
identities refer to the same dictionary. An identity is a **node** and a number in the node's
sequence. A node is 128 bits; the node of the running process draws its bits at random when it
starts, so nothing can be said about them but that they are the process's own, and `Node.own` says
just that. An identity minted here therefore has no text, and one given by its bits has
(`SourceId.text?`).
-/

namespace BatchColumn

/-- Where an identity was minted. -/
inductive Node where
  /-- A node given by its 128 bits. -/
  | explicit (high low : UInt64)
  /-- The node of this process. -/
  | own
  deriving DecidableEq

/-- The identity of a physical dictionary. -/
structure SourceId where
  /-- Where the identity was minted. -/
  node : Node
  /-- Its number in the sequence of that node. -/
  sequence : Nat
  deriving DecidableEq

/-- The last `width` hexadecimal digits of a number, in lower case. -/
def hexDigits (width n : Nat) : String :=
  String.ofList <| (List.range width).reverse.map fun i => Nat.digitChar (n >>> (4 * i) % 16)

/-- 128 bits in groups of eight, four, four, four and twelve hexadecimal digits. -/
def groupedHex (high low : UInt64) : String :=
  "-".intercalate
    [hexDigits 8 (high.toNat >>> 32), hexDigits 4 (high.toNat >>> 16), hexDigits 4 high.toNat,
      hexDigits 4 (low.toNat >>> 48), hexDigits 12 low.toNat]

namespace SourceId

/-- The text of an identity: the bits of its node, a colon, its number. -/
def text? (id : SourceId) : Option String :=
  match id.node with
  | .explicit high low => some s!"{groupedHex high low}:{id.sequence}"
  | .own => none

end SourceId

end BatchColumn
