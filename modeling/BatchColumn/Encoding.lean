import BatchColumn.Block.Basic

/-!
# Encodings

An `Encoding` describes one kind of block under the name that blocks of this kind report. A
`Registry` is a set of encodings in which a name occurs once: `Registry.add` refuses a name that is
taken and `Registry.find` one that is not. `Registry.standard` knows the encodings of this library.
-/

namespace BatchColumn

/-- A kind of block. -/
structure Encoding where
  /-- The name that blocks of this kind report. -/
  name : String
  /-- Blocks of this kind are layers over other blocks. -/
  composite : Bool
  deriving DecidableEq

namespace Encoding

/-- The encoding of integers of one width. -/
def ofWidth (width : Width) : Encoding := ⟨width.encoding, false⟩

/-- The encodings of this library. -/
def builtin : List Encoding :=
  [.ofWidth .byte, .ofWidth .short, .ofWidth .int, .ofWidth .long, ⟨Slices.encoding, false⟩,
    ⟨Lists.encoding, true⟩, ⟨Keys.encoding, true⟩, ⟨Promise.encoding, true⟩]

end Encoding

/-- A set of encodings, found by name. -/
structure Registry where
  /-- The encodings, the last one added first. -/
  encodings : List Encoding

namespace Registry

/-- No encodings. -/
def empty : Registry := ⟨[]⟩

/-- The encodings of this library. -/
def standard : Registry := ⟨Encoding.builtin.reverse⟩

/-- The encoding of a name, if there is one. -/
def find? (registry : Registry) (name : String) : Option Encoding :=
  registry.encodings.find? (·.name == name)

/-- The encoding of a name. -/
def find (registry : Registry) (name : String) : Except Error Encoding :=
  match registry.find? name with
  | some encoding => .ok encoding
  | none => .error (.unknownEncoding name)

/-- The name is taken. -/
def contains (registry : Registry) (name : String) : Bool :=
  (registry.find? name).isSome

/-- One encoding more, under a name that is not taken. -/
def add (registry : Registry) (encoding : Encoding) : Except Error Registry :=
  if registry.contains encoding.name then .error (.duplicateEncoding encoding.name)
  else .ok ⟨encoding :: registry.encodings⟩

/-- The names taken, in the order of their code points. -/
def names (registry : Registry) : List String :=
  (registry.encodings.map Encoding.name).mergeSort fun a b => decide (a ≤ b)

/-- The encoding of a block. -/
def encodingOf (registry : Registry) (block : Block) : Except Error Encoding :=
  registry.find block.encoding

/-! ### Names are found once added -/

/-- **Adding a free name makes it found, and changes no other.** -/
theorem find?_of_add {registry extended : Registry} {encoding : Encoding}
    (added : registry.add encoding = .ok extended) (name : String) :
    extended.find? name =
      if encoding.name = name then some encoding else registry.find? name := by
  unfold add at added
  split at added
  · cases added
  · obtain rfl := Except.ok.inj added
    by_cases same : encoding.name = name <;> simp [find?, same]

end Registry

end BatchColumn
