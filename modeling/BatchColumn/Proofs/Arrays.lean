import BatchColumn.Proofs.Leaves

/-!
# The arrays behind a layer

Every layer of a block keeps views of arrays, and arrays are told apart by the identity of their
storage. `Block.arrays` lists the storages of one layer. What the operations on a layer do to them
is soon said: a window has those of the layer, a gather has none but those that were given out for
it, and a copy has some of both.

A view is whole if it covers the array behind it. A gather leaves whole views only, and so does a
copy: a view that it does not find whole it lays out anew. A leaf of byte strings that seems to need
no copy is its own, and then its flags must be whole as well, since flags laid out anew would stand
in another array (`Slices.whole_of_copy`). Its bytes are whole because bytes are never windowed
(`Block.Stored`).
-/

namespace BatchColumn

variable {offset length : Nat}

/-! ### Views -/

namespace View

variable {α : Type}

theorem of_region_eq_ok {v w : View α} (run : v.region offset length = .ok w) :
    w.storage = v.storage ∧ w.backing = v.backing := by
  rw [region, region?] at run
  split at run
  next =>
    obtain rfl := Except.ok.inj run
    exact ⟨rfl, rfl⟩
  next => cases run

@[simp] theorem isWhole_ofList (storage : Nat) (items : List α) :
    (ofList storage items).isWhole = true := by
  simp [isWhole, ofList]

@[simp] theorem isWhole_compact (v : View α) (storage : Nat) :
    (v.compact storage).isWhole = true := by
  rw [compact]
  split
  next whole => exact whole
  next => exact isWhole_ofList _ _

/-- A view that is not whole is compacted into new storage. -/
theorem storage_compact (v : View α) (storage : Nat) :
    (v.compact storage).storage = if v.isWhole then v.storage else storage := by
  rw [compact]
  split <;> rfl

end View

/-! ### Null flags -/

namespace Nulls

/-- The array of the flags, if any are kept. -/
def arrays (nulls : Nulls) : List Nat :=
  nulls.flags.toList.map View.storage

/-- The flags, if any are kept, cover their array. -/
def Whole (nulls : Nulls) : Prop :=
  ∀ flags, nulls.flags = some flags → flags.isWhole = true

theorem arrays_ofFlags (storage : Nat) (flags : List Bool) :
    (ofFlags storage flags).arrays ⊆ [storage] := by
  rw [ofFlags]
  split <;> simp [arrays, none, View.ofList]

theorem whole_ofFlags (storage : Nat) (flags : List Bool) : (ofFlags storage flags).Whole := by
  rw [ofFlags]
  split
  · rintro _ ⟨⟩
    exact View.isWhole_ofList _ _
  · rintro _ ⟨⟩

theorem arrays_ofFlags? (storage : Nat) (flags? : Option (List Bool)) :
    (ofFlags? storage flags?).arrays ⊆ [storage] := by
  rcases flags? with - | flags
  · exact List.nil_subset _
  · exact arrays_ofFlags storage flags

theorem whole_ofFlags? (storage : Nat) (flags? : Option (List Bool)) :
    (ofFlags? storage flags?).Whole := by
  rcases flags? with - | flags
  · rintro _ ⟨⟩
  · exact whole_ofFlags storage flags

variable {nulls w : Nulls} {storage : Nat}

theorem arrays_of_window (run : nulls.window offset length = .ok w) : w.arrays = nulls.arrays := by
  rcases nulls with ⟨_ | flags⟩
  · obtain rfl := Except.ok.inj run
    rfl
  · obtain ⟨region, cut, rest⟩ := bind_eq_ok_iff.1 run
    obtain rfl := Except.ok.inj rest
    simp [arrays, (View.of_region_eq_ok cut).1]

/-- Copied flags cover their array. It is the array of the flags if they cover it, and a new one
otherwise. -/
theorem of_copy_eq_ok (run : nulls.copy storage offset length = .ok w) :
    w.Whole ∧ w.arrays ⊆ storage :: nulls.arrays := by
  rcases nulls with ⟨_ | flags⟩
  · obtain rfl := Except.ok.inj run
    exact ⟨by rintro _ ⟨⟩, List.nil_subset _⟩
  · obtain ⟨region, cut, rest⟩ := bind_eq_ok_iff.1 run
    obtain rfl := Except.ok.inj rest
    refine ⟨fun flags kept ↦ Option.some.inj kept ▸ View.isWhole_compact _ _, ?_⟩
    simp only [arrays, Option.toList_some, List.map_cons, List.map_nil, View.storage_compact,
      (View.of_region_eq_ok cut).1]
    split <;> simp

/-- Flags that are the same view after a copy into new storage cover their array. -/
theorem whole_of_sameView (run : nulls.copy storage offset length = .ok w)
    (same : w.sameView nulls = true) (new : storage ∉ nulls.arrays) : nulls.Whole := by
  rcases nulls with ⟨_ | flags⟩
  · rintro _ ⟨⟩
  · obtain ⟨region, cut, rest⟩ := bind_eq_ok_iff.1 run
    obtain rfl := Except.ok.inj rest
    rintro _ ⟨⟩
    simp only [sameView, View.sameView, View.sharesStorage, Bool.and_eq_true, beq_iff_eq,
      View.storage_compact] at same
    obtain ⟨⟨shared, start⟩, size⟩ := same
    split at shared
    next whole =>
      -- The region covers the array, so the flags, which start where it does, cover it too.
      rw [View.compact, if_pos whole] at start size
      simpa [View.isWhole, start, size, (View.of_region_eq_ok cut).2] using whole
    next => exact absurd (by simp [arrays, shared]) new

theorem of_gather_eq_ok {indices : List Nat} (run : nulls.gather storage indices = .ok w) :
    w.Whole ∧ w.arrays ⊆ [storage] := by
  rcases nulls with ⟨_ | flags⟩
  · obtain rfl := Except.ok.inj run
    exact ⟨by rintro _ ⟨⟩, List.nil_subset _⟩
  · obtain ⟨picked, -, rest⟩ := bind_eq_ok_iff.1 run
    obtain rfl := Except.ok.inj rest
    exact ⟨whole_ofFlags _ _, arrays_ofFlags _ _⟩

end Nulls

/-! ### Leaves of integers -/

namespace Ints

/-- The arrays of a leaf. -/
def arrays (leaf : Ints) : List Nat :=
  leaf.cells.storage :: leaf.nulls.arrays

/-- Every view of a leaf covers its array. -/
def Whole (leaf : Ints) : Prop :=
  leaf.cells.isWhole = true ∧ leaf.nulls.Whole

theorem arrays_of_ofFlags? {width : Width} {cells flags : Nat} {values : List Int}
    {nulls : Option (List Bool)} {leaf : Ints}
    (made : ofFlags? width cells flags values nulls = .ok leaf) :
    leaf.arrays ⊆ [cells, flags] := by
  obtain ⟨_, -, rest⟩ := bind_eq_ok_iff.1 made
  obtain rfl := Except.ok.inj rest
  exact List.cons_subset_cons _ (Nulls.arrays_ofFlags? _ _)

theorem arrays_ofOptions (width : Width) (cells flags : Nat) (values : List (Option Int)) :
    (ofOptions width cells flags values).arrays ⊆ [cells, flags] :=
  List.cons_subset_cons _ (Nulls.arrays_ofFlags _ _)

variable {leaf w : Ints} {cells flags : Nat}

theorem arrays_of_window (run : leaf.window offset length = .ok w) : w.arrays = leaf.arrays := by
  obtain ⟨values, cut, run⟩ := bind_eq_ok_iff.1 run
  obtain ⟨nulls, marked, rest⟩ := bind_eq_ok_iff.1 run
  obtain rfl := Except.ok.inj rest
  rw [arrays, arrays, (View.of_region_eq_ok cut).1, Nulls.arrays_of_window marked]

theorem of_copy_eq_ok (run : leaf.copy cells flags offset length = .ok w) :
    w.Whole ∧ w.arrays ⊆ [cells, flags] ++ leaf.arrays := by
  obtain ⟨values, cut, run⟩ := bind_eq_ok_iff.1 run
  obtain ⟨nulls, marked, rest⟩ := bind_eq_ok_iff.1 run
  obtain rfl := Except.ok.inj rest
  obtain ⟨whole, within⟩ := Nulls.of_copy_eq_ok marked
  refine ⟨⟨View.isWhole_compact _ _, whole⟩, List.cons_subset.2 ⟨?_, fun n mem ↦ ?_⟩⟩
  · rw [View.storage_compact, (View.of_region_eq_ok cut).1]
    split <;> simp [arrays]
  · rcases List.mem_cons.1 (within mem) with rfl | old
    · simp
    · simp [arrays, old]

theorem of_gather_eq_ok {positions : List Nat} (run : leaf.gather cells flags positions = .ok w) :
    w.Whole ∧ w.arrays ⊆ [cells, flags] := by
  obtain ⟨values, -, run⟩ := bind_eq_ok_iff.1 run
  obtain ⟨nulls, marked, rest⟩ := bind_eq_ok_iff.1 run
  obtain rfl := Except.ok.inj rest
  obtain ⟨whole, within⟩ := Nulls.of_gather_eq_ok marked
  exact ⟨⟨View.isWhole_ofList _ _, whole⟩, List.cons_subset_cons _ within⟩

end Ints

/-! ### Leaves of byte strings -/

namespace Slices

/-- The arrays of a leaf. -/
def arrays (leaf : Slices) : List Nat :=
  leaf.offsets.storage :: leaf.bytes.storage :: leaf.nulls.arrays

/-- Every view of a leaf covers its array. -/
def Whole (leaf : Slices) : Prop :=
  leaf.offsets.isWhole = true ∧ leaf.bytes.isWhole = true ∧ leaf.nulls.Whole

/-- The arrays of new storages. -/
def Storages.arrays (storages : Storages) : List Nat :=
  [storages.offsets, storages.bytes, storages.flags]

variable {storages : Storages}

theorem of_ofBytes?_eq_ok {bytes : List UInt8} {offsets : List Nat} {nulls : Option (List Bool)}
    {leaf : Slices} (made : ofBytes? storages bytes offsets nulls = .ok leaf) :
    leaf.Whole ∧ leaf.arrays ⊆ storages.arrays := by
  obtain rfl := eq_of_ofBytes? made
  exact ⟨⟨View.isWhole_ofList _ _, View.isWhole_ofList _ _, Nulls.whole_ofFlags? _ _⟩,
    List.cons_subset_cons _ (List.cons_subset_cons _ (Nulls.arrays_ofFlags? _ _))⟩

theorem of_ofSlices_eq_ok {values : List (Option (List UInt8))} {leaf : Slices}
    (made : ofSlices storages values = .ok leaf) :
    leaf.Whole ∧ leaf.arrays ⊆ storages.arrays := by
  obtain ⟨offsets, -, made⟩ := bind_eq_ok_iff.1 made
  obtain rfl := Except.ok.inj made
  exact ⟨⟨View.isWhole_ofList _ _, View.isWhole_ofList _ _, Nulls.whole_ofFlags _ _⟩,
    List.cons_subset_cons _ (List.cons_subset_cons _ (Nulls.arrays_ofFlags _ _))⟩

variable {leaf w : Slices}

/-- A window is over the same arrays, and keeps all of the bytes. -/
theorem arrays_of_window (run : leaf.window offset length = .ok w) :
    w.arrays = leaf.arrays ∧ w.bytes = leaf.bytes := by
  obtain ⟨offsets, cut, run⟩ := bind_eq_ok_iff.1 run
  obtain ⟨nulls, marked, rest⟩ := bind_eq_ok_iff.1 run
  obtain rfl := Except.ok.inj rest
  refine ⟨?_, rfl⟩
  rw [arrays, arrays, (View.of_region_eq_ok cut).1, Nulls.arrays_of_window marked]

/-- The leaf can stand for the copy of all of it. -/
structure Stands (leaf : Slices) (storages : Storages) (offset length : Nat) : Prop where
  /-- The offsets cover their array. -/
  whole : leaf.offsets.isWhole = true
  /-- The first byte string starts with the first byte. -/
  first : leaf.offsets.get 0 = .ok 0
  /-- The copy is one of all positions. -/
  all : length = leaf.count
  /-- The last byte string ends with the last byte. -/
  last : leaf.offsets.get (offset + length) = .ok leaf.bytes.length
  /-- Copying the flags changes nothing. -/
  flagged : ∃ nulls, leaf.nulls.copy storages.flags offset length = .ok nulls ∧
    nulls.sameView leaf.nulls = true

/-- A copy is the leaf, or it is laid out anew. -/
theorem copy_cases (run : leaf.copy storages offset length = .ok w) :
    (w = leaf ∧ leaf.Stands storages offset length) ∨
    ∃ start stop nulls rebased bytes, leaf.offsets.get offset = .ok start ∧
      leaf.offsets.get (offset + length) = .ok stop ∧
      leaf.nulls.copy storages.flags offset length = .ok nulls ∧
      rebase? leaf.offsets.toList offset length = some rebased ∧
      leaf.bytes.region start (stop - start) = .ok bytes ∧
      w = ⟨.ofList storages.offsets rebased.toList, bytes.compact storages.bytes, nulls⟩ := by
  obtain ⟨start, from_start, run⟩ := bind_eq_ok_iff.1 run
  obtain ⟨stop, to_stop, run⟩ := bind_eq_ok_iff.1 run
  obtain ⟨nulls, marked, run⟩ := bind_eq_ok_iff.1 run
  obtain ⟨first, at_first, run⟩ := bind_eq_ok_iff.1 run
  split at run
  next stands =>
    simp only [Bool.and_eq_true, beq_iff_eq] at stands
    obtain ⟨⟨⟨⟨whole, zero⟩, all⟩, last⟩, same⟩ := stands
    exact .inl ⟨(Except.ok.inj run).symm, whole, zero ▸ at_first, all, last ▸ to_stop, nulls,
      marked, same⟩
  next =>
    obtain ⟨rebased, moved, run⟩ := bind_eq_ok_iff.1 run
    obtain ⟨bytes, cut, rest⟩ := bind_eq_ok_iff.1 run
    rcases found : rebase? leaf.offsets.toList offset length with - | offsets
    · rw [found] at moved
      cases moved
    · rw [found] at moved
      obtain rfl := Except.ok.inj moved
      exact .inr ⟨start, stop, nulls, offsets, bytes, from_start, to_stop, marked, rfl, cut,
        (Except.ok.inj rest).symm⟩

theorem arrays_of_copy (run : leaf.copy storages offset length = .ok w) :
    w.arrays ⊆ storages.arrays ++ leaf.arrays := by
  rcases copy_cases run with ⟨rfl, -⟩ | ⟨_, _, nulls, _, bytes, -, -, marked, -, cut, rfl⟩
  · exact List.subset_append_right _ _
  · obtain ⟨-, within⟩ := Nulls.of_copy_eq_ok marked
    refine List.cons_subset.2 ⟨by simp [Storages.arrays, View.ofList],
      List.cons_subset.2 ⟨?_, fun n mem ↦ ?_⟩⟩
    · rw [View.storage_compact, (View.of_region_eq_ok cut).1]
      split <;> simp [arrays, Storages.arrays]
    · rcases List.mem_cons.1 (within mem) with rfl | old
      · simp [Storages.arrays]
      · simp [arrays, old]

/-- The bytes of a copy cover their array if those of the leaf do. -/
theorem isWhole_bytes_of_copy (run : leaf.copy storages offset length = .ok w)
    (packed : leaf.bytes.isWhole = true) : w.bytes.isWhole = true := by
  rcases copy_cases run with ⟨rfl, -⟩ | ⟨_, _, _, _, _, -, -, -, -, -, rfl⟩
  · exact packed
  · exact View.isWhole_compact _ _

/-- **A copy covers its arrays.** A leaf stands for its own copy only if its flags cover theirs,
since flags that do not are laid out in new storage. -/
theorem whole_of_copy (run : leaf.copy storages offset length = .ok w)
    (packed : leaf.bytes.isWhole = true) (new : storages.flags ∉ leaf.nulls.arrays) : w.Whole := by
  rcases copy_cases run with ⟨rfl, stands⟩ | ⟨_, _, _, _, _, -, -, marked, -, -, rfl⟩
  · obtain ⟨nulls, marked, same⟩ := stands.flagged
    exact ⟨stands.whole, packed, Nulls.whole_of_sameView marked same new⟩
  · exact ⟨View.isWhole_ofList _ _, View.isWhole_compact _ _, (Nulls.of_copy_eq_ok marked).1⟩

theorem of_gather_eq_ok {positions : List Nat} (run : leaf.gather storages positions = .ok w) :
    w.Whole ∧ w.arrays ⊆ storages.arrays := by
  obtain ⟨slices, -, run⟩ := bind_eq_ok_iff.1 run
  obtain ⟨offsets, -, run⟩ := bind_eq_ok_iff.1 run
  obtain ⟨nulls, marked, rest⟩ := bind_eq_ok_iff.1 run
  obtain rfl := Except.ok.inj rest
  obtain ⟨whole, within⟩ := Nulls.of_gather_eq_ok marked
  exact ⟨⟨View.isWhole_ofList _ _, View.isWhole_ofList _ _, whole⟩,
    List.cons_subset_cons _ (List.cons_subset_cons _ within)⟩

end Slices

/-! ### Blocks -/

/-- The arrays of a layer of lists. -/
def Lists.arrays (lists : Lists) : List Nat :=
  lists.offsets.storage :: lists.nulls.arrays

theorem Lists.arrays_of_window {lists w : Lists} {memory : Nat}
    (run : lists.window memory offset length = .ok w) : w.arrays = lists.arrays := by
  rw [window] at run
  split at run
  next => rw [← Except.ok.inj run, arrays, arrays]
  next => cases run

theorem Keys.ids_of_window {keys w : Keys} {memory : Nat}
    (run : keys.window memory offset length = .ok w) : w.ids = keys.ids := by
  rw [window] at run
  split at run
  next => rw [← Except.ok.inj run]
  next => cases run

namespace Block

/-- The arrays of the outermost layer. -/
def arrays : Block → List Nat
  | ints leaf => leaf.arrays
  | slices leaf => leaf.arrays
  | array lists _ => lists.arrays
  | dictionary keys _ => [keys.ids.storage]
  | «lazy» _ _ => []

/-- The arrays of a layer are among those given out, and no bytes are windowed. -/
structure Stored (issued : Set Nat) (b : Block) : Prop where
  /-- The arrays were given out. -/
  issued : ∀ n ∈ b.arrays, n ∈ issued
  /-- The bytes cover their array. -/
  packed : ∀ leaf, b = slices leaf → leaf.bytes.isWhole = true

variable {issued : Set Nat}

theorem Stored.mono {b : Block} {more : Set Nat} (le : issued ⊆ more) (stored : b.Stored issued) :
    b.Stored more :=
  ⟨fun n mem ↦ le (stored.issued n mem), stored.packed⟩

theorem Stored.ints {leaf : Ints} {arrays : List Nat} (within : leaf.arrays ⊆ arrays)
    (known : ∀ n ∈ arrays, n ∈ issued) : (ints leaf).Stored issued :=
  ⟨fun n mem ↦ known n (within mem), by rintro _ ⟨⟩⟩

theorem Stored.slices {leaf : Slices} {arrays : List Nat} (packed : leaf.bytes.isWhole = true)
    (within : leaf.arrays ⊆ arrays) (known : ∀ n ∈ arrays, n ∈ issued) :
    (slices leaf).Stored issued :=
  ⟨fun n mem ↦ known n (within mem), by rintro _ ⟨⟩; exact packed⟩

theorem Stored.array {lists : Lists} {elements : Block} (known : ∀ n ∈ lists.arrays, n ∈ issued) :
    (array lists elements).Stored issued :=
  ⟨known, by rintro _ ⟨⟩⟩

theorem Stored.dictionary {keys : Keys} {entries : Block} (known : keys.ids.storage ∈ issued) :
    (dictionary keys entries).Stored issued :=
  ⟨by simpa [arrays] using known, by rintro _ ⟨⟩⟩

theorem Stored.lazy {promise : Promise} {payload : Block} :
    («lazy» promise payload).Stored issued :=
  ⟨by simp [arrays], by rintro _ ⟨⟩⟩

end Block

end BatchColumn
