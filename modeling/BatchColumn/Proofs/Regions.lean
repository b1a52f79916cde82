import BatchColumn.Proofs.Agreement

/-!
# Regions compose, and share what they are taken from

Each layer has a window of its own: views shift where they start, offsets are windowed with one item
more than there are byte strings, lists shift their base and leave the flags alone, keys shift where
they start among the ids. For each of them a window of a window is the window at the sum of the
offsets (`View.region_region`, …, `Keys.window_window`), so no shift is made twice or forgotten.

A region of a block that is not lazy is the window of its outermost layer, over the same block below
(`Block.Layered`), and keeps what that keeps (`Block.Keeps`). A region of a lazy block is a promise
or a window of what is loaded, as the time decides; what it shows is the same (`Shows`).

So a region of a region reads as the region at the sum of the offsets, and both read as the block
past that sum, **whatever is loaded when each of them is taken and read**
(`Reachable.regions_compose`).
-/

namespace BatchColumn

/-! ### Windows of windows -/

section Layers

variable {α : Type} {o₁ l₁ o₂ l₂ : Nat}

theorem View.region_region {v w : View α} (first : v.region o₁ l₁ = .ok w)
    (inner : o₂ + l₂ ≤ l₁) : w.region o₂ l₂ = v.region (o₁ + o₂) l₂ := by
  rw [View.region, View.region?] at first
  split at first
  next outer =>
    obtain rfl := Except.ok.inj first
    simp only [region, region?]
    rw [dif_pos inner, dif_pos (by omega)]
    simp only [Nat.add_assoc]
  next => cases first

theorem Nulls.window_window {nulls w : Nulls} (first : nulls.window o₁ l₁ = .ok w)
    (inner : o₂ + l₂ ≤ l₁) : w.window o₂ l₂ = nulls.window (o₁ + o₂) l₂ := by
  rcases nulls with ⟨_ | flags⟩
  · obtain rfl := Except.ok.inj first
    rfl
  · obtain ⟨region, run, rest⟩ := bind_eq_ok_iff.1 first
    obtain rfl := Except.ok.inj rest
    simp only [window, View.region_region run inner]

theorem Ints.window_window {leaf w : Ints} (first : leaf.window o₁ l₁ = .ok w)
    (inner : o₂ + l₂ ≤ l₁) : w.window o₂ l₂ = leaf.window (o₁ + o₂) l₂ := by
  obtain ⟨cells, run, first⟩ := bind_eq_ok_iff.1 first
  obtain ⟨nulls, marked, rest⟩ := bind_eq_ok_iff.1 first
  obtain rfl := Except.ok.inj rest
  simp only [window, View.region_region run inner, Nulls.window_window marked inner]

theorem Slices.window_window {leaf w : Slices} (first : leaf.window o₁ l₁ = .ok w)
    (inner : o₂ + l₂ ≤ l₁) : w.window o₂ l₂ = leaf.window (o₁ + o₂) l₂ := by
  obtain ⟨offsets, run, first⟩ := bind_eq_ok_iff.1 first
  obtain ⟨nulls, marked, rest⟩ := bind_eq_ok_iff.1 first
  obtain rfl := Except.ok.inj rest
  have longer : o₂ + (l₂ + 1) ≤ l₁ + 1 := by omega
  simp only [window, View.region_region run longer, Nulls.window_window marked inner]

theorem Lists.window_window {lists w : Lists} {m₁ : Nat} (m₂ : Nat)
    (first : lists.window m₁ o₁ l₁ = .ok w) (inner : o₂ + l₂ ≤ l₁) :
    w.window m₂ o₂ l₂ = lists.window m₂ (o₁ + o₂) l₂ := by
  rw [window] at first
  split at first
  next outer =>
    obtain rfl := Except.ok.inj first
    simp only [window]
    rw [dif_pos inner, dif_pos (by omega)]
    simp only [Nat.add_assoc]
  next => cases first

theorem Keys.window_window {keys w : Keys} {m₁ : Nat} (m₂ : Nat)
    (first : keys.window m₁ o₁ l₁ = .ok w) (inner : o₂ + l₂ ≤ l₁) :
    w.window m₂ o₂ l₂ = keys.window m₂ (o₁ + o₂) l₂ := by
  rw [window] at first
  split at first
  next outer =>
    obtain rfl := Except.ok.inj first
    simp only [window]
    rw [dif_pos inner, dif_pos (by omega)]
    simp only [Nat.add_assoc]
  next => cases first

/-! ### What a window shares -/

theorem Nulls.retainedSize_of_window {nulls w : Nulls} (run : nulls.window o₁ l₁ = .ok w) :
    w.retainedSize = nulls.retainedSize := by
  rcases nulls with ⟨_ | flags⟩
  · obtain rfl := Except.ok.inj run
    rfl
  · obtain ⟨region, cut, rest⟩ := bind_eq_ok_iff.1 run
    obtain rfl := Except.ok.inj rest
    simp only [retainedSize, View.retainedSize, (View.of_region_eq_ok cut).2]

/-- A window of integers is over the same array. -/
theorem Ints.of_window_eq_ok {leaf w : Ints} (run : leaf.window o₁ l₁ = .ok w) :
    w.width = leaf.width ∧ w.retainedSize = leaf.retainedSize ∧
      w.cells.storage = leaf.cells.storage := by
  obtain ⟨cells, cut, run⟩ := bind_eq_ok_iff.1 run
  obtain ⟨nulls, marked, rest⟩ := bind_eq_ok_iff.1 run
  obtain rfl := Except.ok.inj rest
  obtain ⟨storage, backing⟩ := View.of_region_eq_ok cut
  refine ⟨rfl, ?_, storage⟩
  simp only [retainedSize, View.retainedSize, backing, Nulls.retainedSize_of_window marked]

/-- A window of byte strings is over the same offsets, and over all bytes. -/
theorem Slices.of_window_eq_ok {leaf w : Slices} (run : leaf.window o₁ l₁ = .ok w) :
    w.retainedSize = leaf.retainedSize ∧ w.offsets.storage = leaf.offsets.storage ∧
      w.bytes = leaf.bytes := by
  obtain ⟨offsets, cut, run⟩ := bind_eq_ok_iff.1 run
  obtain ⟨nulls, marked, rest⟩ := bind_eq_ok_iff.1 run
  obtain rfl := Except.ok.inj rest
  obtain ⟨storage, backing⟩ := View.of_region_eq_ok cut
  refine ⟨?_, storage, rfl⟩
  simp only [retainedSize, View.retainedSize, backing, Nulls.retainedSize_of_window marked]

end Layers

/-! ### Windows of blocks -/

namespace Block

/-- A block whose outermost layer is a window of that of another block, over the same block
below. -/
inductive Layered (offset length : Nat) : Block → Block → Prop
  | ints {leaf w : Ints} : leaf.window offset length = .ok w →
      Layered offset length (ints w) (ints leaf)
  | slices {leaf w : Slices} : leaf.window offset length = .ok w →
      Layered offset length (slices w) (slices leaf)
  | array {lists w : Lists} {elements : Block} (memory : Nat) :
      lists.window memory offset length = .ok w →
        Layered offset length (array w elements) (array lists elements)
  | dictionary {keys w : Keys} {entries : Block} (memory : Nat) :
      keys.window memory offset length = .ok w →
        Layered offset length (dictionary w entries) (dictionary keys entries)

/-- **Windows of layers compose.** -/
theorem Layered.trans {b r s : Block} {o₁ l₁ o₂ l₂ : Nat} (second : Layered o₂ l₂ s r)
    (first : Layered o₁ l₁ r b) (inner : o₂ + l₂ ≤ l₁) : Layered (o₁ + o₂) l₂ s b := by
  cases first with
  | ints outer =>
    cases second with
    | ints cut => exact .ints (Ints.window_window outer inner ▸ cut)
  | slices outer =>
    cases second with
    | slices cut => exact .slices (Slices.window_window outer inner ▸ cut)
  | array _ outer =>
    cases second with
    | array memory cut => exact .array memory (Lists.window_window memory outer inner ▸ cut)
  | dictionary _ outer =>
    cases second with
    | dictionary memory cut =>
      exact .dictionary memory (Keys.window_window memory outer inner ▸ cut)

/-- A promise, loaded or not. -/
def IsLazy : Block → Prop
  | «lazy» _ _ => True
  | _ => False

theorem Layered.not_isLazy {r b : Block} {offset length : Nat}
    (layered : Layered offset length r b) : ¬ r.IsLazy := by
  cases layered <;> exact id

end Block

/-- A check that a query has passed. -/
theorem Query.eq_ok_of_outcome {α : Type} {check : Except Error α} {loads : Loads}
    {ledger after : Ledger} {a : α}
    (run : (liftM check : Query α).outcome loads ledger = (.ok a, after)) : check = .ok a := by
  rcases check with cause | b
  · cases run
  · cases run
    rfl

/-- An attempt of a query that has succeeded. -/
theorem Query.eq_ok_of_outcome_attempt {α : Type} {attempt : Except Fault α} {loads : Loads}
    {ledger after : Ledger} {a : α}
    (run : (liftM attempt : Query α).outcome loads ledger = (.ok a, after)) : attempt = .ok a := by
  rcases attempt with fault | b
  · cases run
  · cases run
    rfl

namespace Block

/-- What a block that is not lazy is windowed to. -/
theorem layered_of_outcome {b r : Block} {offset length : Nat} {loads : Loads}
    {ledger after : Ledger} (settled : ¬ b.IsLazy)
    (run : (b.window offset length).outcome loads ledger = (.ok r, after)) :
    Layered offset length r b := by
  obtain ⟨w, middle, run, rest⟩ := Query.exists_of_outcome_bind run
  cases rest
  rcases b with leaf | leaf | ⟨lists, elements⟩ | ⟨keys, entries⟩ | ⟨promise, payload⟩
  all_goals rw [windowWithin] at run
  case ints =>
    obtain ⟨_, _, _, run⟩ := Query.exists_of_outcome_bind run
    obtain ⟨window, _, cut, rest⟩ := Query.exists_of_outcome_bind run
    cases rest
    exact .ints (Query.eq_ok_of_outcome_attempt cut)
  case slices =>
    obtain ⟨_, _, _, run⟩ := Query.exists_of_outcome_bind run
    obtain ⟨window, _, cut, rest⟩ := Query.exists_of_outcome_bind run
    cases rest
    exact .slices (Query.eq_ok_of_outcome_attempt cut)
  case array =>
    obtain ⟨memory, _, _, run⟩ := Query.exists_of_outcome_bind run
    obtain ⟨window, _, cut, rest⟩ := Query.exists_of_outcome_bind run
    cases rest
    exact .array memory (Query.eq_ok_of_outcome cut)
  case dictionary =>
    -- All of the keys carry their memory over, others get a new one.
    split at run
    all_goals
      obtain ⟨memory, _, _, run⟩ := Query.exists_of_outcome_bind run
      obtain ⟨window, _, cut, rest⟩ := Query.exists_of_outcome_bind run
      cases rest
      exact .dictionary memory (Query.eq_ok_of_outcome cut)
  case «lazy» => exact absurd trivial settled

/-- What a region keeps of a block that is not lazy. -/
structure Keeps (r b : Block) (offset length : Nat) : Prop where
  /-- The name of its encoding. -/
  encoding : r.encoding = b.encoding
  /-- All that it keeps alive, at any time. -/
  retainedSize : ∀ loads, r.retainedSize loads = b.retainedSize loads
  /-- Integers keep their array. -/
  ints : ∀ leaf, b = ints leaf → ∃ window, r = ints window ∧
    window.cells.storage = leaf.cells.storage
  /-- Byte strings keep the array of their offsets, and their bytes. -/
  slices : ∀ leaf, b = slices leaf → ∃ window, r = slices window ∧
    window.offsets.storage = leaf.offsets.storage ∧ window.bytes = leaf.bytes
  /-- Lists keep their elements, the handle of these, and the offsets. -/
  array : ∀ lists elements, b = array lists elements → ∃ window, r = array window elements ∧
    window.handle = lists.handle ∧ window.offsets = lists.offsets
  /-- Keys keep their entries, the handle and the identity of these, and the ids, which they view
  from the offset on. -/
  dictionary : ∀ keys entries, b = dictionary keys entries → ∃ window,
    r = dictionary window entries ∧ window.handle = keys.handle ∧ window.source = keys.source ∧
      window.ids = keys.ids ∧ keys.view.region? offset length = some window.view

theorem Layered.keeps {r b : Block} {offset length : Nat} (layered : Layered offset length r b) :
    r.Keeps b offset length := by
  cases layered with
  | ints cut =>
    obtain ⟨width, retained, storage⟩ := Ints.of_window_eq_ok cut
    refine ⟨congrArg Width.encoding width, fun loads ↦ ?_, ?_, by rintro _ ⟨⟩, by rintro _ _ ⟨⟩,
      by rintro _ _ ⟨⟩⟩
    · simpa only [Block.retainedSize] using retained
    · rintro _ ⟨⟩
      exact ⟨_, rfl, storage⟩
  | slices cut =>
    obtain ⟨retained, storage, bytes⟩ := Slices.of_window_eq_ok cut
    refine ⟨rfl, fun loads ↦ ?_, by rintro _ ⟨⟩, ?_, by rintro _ _ ⟨⟩, by rintro _ _ ⟨⟩⟩
    · simpa only [Block.retainedSize] using retained
    · rintro _ ⟨⟩
      exact ⟨_, rfl, storage, bytes⟩
  | array memory cut =>
    rw [Lists.window] at cut
    split at cut
    next fits =>
      obtain rfl := Except.ok.inj cut
      refine ⟨rfl, fun loads ↦ ?_, by rintro _ ⟨⟩, by rintro _ ⟨⟩, ?_, by rintro _ _ ⟨⟩⟩
      · simp only [Block.retainedSize, Lists.retainedSize]
      · rintro _ _ ⟨⟩
        exact ⟨_, rfl, rfl, rfl⟩
    next => cases cut
  | dictionary memory cut =>
    rw [Keys.window] at cut
    split at cut
    next fits =>
      obtain rfl := Except.ok.inj cut
      refine ⟨rfl, fun loads ↦ ?_, by rintro _ ⟨⟩, by rintro _ ⟨⟩, by rintro _ _ ⟨⟩, ?_⟩
      · simp only [Block.retainedSize, Keys.retainedSize]
      · rintro _ _ ⟨⟩
        refine ⟨_, rfl, rfl, rfl, rfl, ?_⟩
        simp only [View.region?, Keys.view, dif_pos fits, Nat.add_assoc]
    next => cases cut

end Block

/-! ### Reading regions -/

/-- Somewhere a session about the block has this answer. -/
def Block.MayAnswer {α : Type} (b : Block) (session : Session α) (a : α) : Prop :=
  ∃ w, Reachable w ∧ b ∈ w.blocks ∧ (session.outcome w.store).1 = .ok a

/-- A reader that answers has answered with a function of the datum. -/
theorem Block.MayAnswer.exists_datum {α : Type} {b : Block} {session : Session α} {a : α}
    (may : b.MayAnswer session a) {position : Nat} {answer : Datum → Except Fault α}
    (reads : ∀ K : Census, b ∈ K → session.Reads K b position answer) :
    ∃ datum, b.datum? position = some datum ∧ answer datum = .ok a := by
  obtain ⟨w, reachable, held, run⟩ := may
  obtain ⟨K, sound, known⟩ := reachable.sound
  obtain ⟨L, -, -, ends⟩ := reads K (known b held) w.store sound
  rw [run] at ends
  exact ends

/-- It has answered with the function of the datum that the position holds. -/
theorem Block.MayAnswer.answer_eq {α : Type} {b : Block} {session : Session α} {a : α}
    (may : b.MayAnswer session a) {position : Nat} {answer : Datum → Except Fault α} {datum : Datum}
    (held : b.datum? position = some datum)
    (reads : ∀ K : Census, b ∈ K → session.Reads K b position answer) : answer datum = .ok a := by
  obtain ⟨other, same, reply⟩ := may.exists_datum reads
  rwa [Option.some.inj (held.symm.trans same)]

namespace Block

/-- What is answered at a position of the one block and at that position past the offset of the
other one, there and then or anywhere else, is the same. -/
structure ReadsFrom (r b : Block) (offset : Nat) : Prop where
  /-- Whether it is null. -/
  isNull : ∀ i null other, r.MayAnswer (r.isNull i) null →
    b.MayAnswer (b.isNull (offset + i)) other → null = other
  /-- Its value. -/
  value : ∀ i value other, r.MayAnswer (r.value i) value →
    b.MayAnswer (b.value (offset + i)) other → value = other

/-- Readers of positions that hold the same datum answer alike. -/
theorem MayAnswer.eq_of_datum {α : Type} {r b : Block} {i j : Nat} {mine yours : Session α}
    {answer : Datum → Except Fault α} {a other : α}
    (same : ∀ datum, r.datum? i = some datum → b.datum? j = some datum)
    (may : r.MayAnswer mine a) (may' : b.MayAnswer yours other)
    (reads : ∀ K : Census, r ∈ K → mine.Reads K r i answer)
    (reads' : ∀ K : Census, b ∈ K → yours.Reads K b j answer) : a = other := by
  obtain ⟨datum, held, reply⟩ := may.exists_datum reads
  exact Except.ok.inj (reply.symm.trans (may'.answer_eq (same datum held) reads'))

/-- Blocks that hold the same data read alike. -/
theorem readsFrom_of_datum {r b : Block} {offset : Nat}
    (same : ∀ i datum, r.datum? i = some datum → b.datum? (offset + i) = some datum) :
    r.ReadsFrom b offset :=
  ⟨fun i _ _ may may' ↦ may.eq_of_datum (same i) may' (fun _ mem ↦ isNull_reads mem i)
      fun _ mem ↦ isNull_reads mem _,
    fun i _ _ may may' ↦ may.eq_of_datum (same i) may' (fun _ mem ↦ value_reads mem i)
      fun _ mem ↦ value_reads mem _⟩

/-- What a region of a block is. -/
structure IsRegion (r b : Block) (offset length : Nat) : Prop where
  /-- It has the positions asked for. -/
  count : r.positionCount = length
  /-- They read as those of the block past the offset. -/
  reads : r.ReadsFrom b offset
  /-- If the block will be loaded, all of them are read. -/
  presents : b.Loadable → ∃ data, b.Presents data ∧ r.Presents (stretch data offset length)
  /-- It shares what the block has, unless that is lazy. -/
  keeps : ¬ b.IsLazy → r.Keeps b offset length

/-- What two regions of a block at the same positions have in common. -/
structure SameRegion (b s t : Block) : Prop where
  /-- They have as many positions. -/
  count : s.positionCount = t.positionCount
  /-- They read alike. -/
  reads : s.ReadsFrom t 0
  /-- If the block will be loaded, both are read everywhere. -/
  presents : b.Loadable → ∃ data, s.Presents data ∧ t.Presents data
  /-- Keys view the same ids. -/
  view : ∀ keys entries, b = dictionary keys entries → ∃ k l, s = dictionary k entries ∧
    t = dictionary l entries ∧ k.view = l.view

end Block

/-- A window of a window is the window at the sum of the offsets. -/
theorem Block.Shows.trans_window {s r b : Block} {o₁ l₁ o₂ l₂ : Nat}
    (second : s.Shows r (List.range' o₂ l₂)) (first : r.Shows b (List.range' o₁ l₁))
    (inner : o₂ + l₂ ≤ l₁) : s.Shows b (List.range' (o₁ + o₂) l₂) := by
  have count : s.positionCount = l₂ := second.count.trans List.length_range'
  refine .of_window count (fun i inside ↦ ?_) (fun i beyond ↦ datum?_of_le (count ▸ beyond))
    (second.loadable ∘ first.loadable)
  rw [second.datum_range' inside, first.datum_range' (by omega), Nat.add_assoc]

/-- A window reads as its block past the offset. -/
theorem Block.Shows.readsFrom {r b : Block} {offset length : Nat}
    (shows : r.Shows b (List.range' offset length)) : r.ReadsFrom b offset := by
  refine readsFrom_of_datum fun i datum held ↦ ?_
  have inside : i < length := by
    by_contra beyond
    rw [shows.datum, List.getElem?_eq_none (by simpa using beyond)] at held
    cases held
  rw [← shows.datum_range' inside, held]

/-! ### Taking regions -/

/-- In a world, a region of a block is taken, and held from then on. -/
def World.Opens (w : World) (b : Block) (offset length : Nat) (r : Block) : Prop :=
  ∃ ledger, (b.window offset length).outcome w.store.loads w.store.ledger = (.ok r, ledger) ∧
    Reachable ⟨{ w.store with ledger := ledger }, r :: w.blocks⟩

/-- A region that is taken in some reachable world that holds the block. -/
def Block.HasRegion (b : Block) (offset length : Nat) (r : Block) : Prop :=
  ∃ w, Reachable w ∧ b ∈ w.blocks ∧ w.Opens b offset length r

/-- A region of positions that a block has can be taken. -/
theorem Reachable.exists_opens {w : World} (reachable : Reachable w) {b : Block}
    (held : b ∈ w.blocks) {offset length : Nat} (fits : offset + length ≤ b.positionCount) :
    ∃ r, w.Opens b offset length r := by
  obtain ⟨K, sound, known⟩ := reachable.sound
  obtain ⟨_, L, _, _, ends⟩ :=
    Block.window_meets (known b held) offset length w.store.ledger sound
  rcases run : (b.window offset length).outcome w.store.loads w.store.ledger with ⟨result, ledger⟩
  rw [run] at ends
  rcases result with fault | r
  · exact absurd fits ends
  · exact ⟨r, ledger, run, reachable.of_outcome (.window b offset length)
      (by simpa [Call.operands] using held) trivial
      (Session.outcome_one (Session.outcome_query run))⟩

namespace Block

variable {b r s t : Block} {offset length : Nat}

/-- A region shows the positions of its block. -/
theorem HasRegion.shows (region : b.HasRegion offset length r) :
    r.Shows b (List.range' offset length) := by
  obtain ⟨w, reachable, held, ledger, run, -⟩ := region
  obtain ⟨K, sound, known⟩ := reachable.sound
  obtain ⟨_, L, _, _, ends⟩ := window_meets (known b held) offset length w.store.ledger sound
  rw [run] at ends
  exact ends.2

/-- A region of a block that is not lazy is a window of its outermost layer. -/
theorem HasRegion.layered (region : b.HasRegion offset length r) (settled : ¬ b.IsLazy) :
    Layered offset length r b := by
  obtain ⟨w, -, -, ledger, run, -⟩ := region
  exact layered_of_outcome settled run

/-- What shows positions of a block that a world holds is a region, if it is made as one. -/
theorem Shows.isRegion {w : World} (shows : r.Shows b (List.range' offset length))
    (reachable : Reachable w) (held : b ∈ w.blocks) (fits : offset + length ≤ b.positionCount)
    (layered : ¬ b.IsLazy → Layered offset length r b) : r.IsRegion b offset length where
  count := shows.count.trans List.length_range'
  reads := shows.readsFrom
  presents kept := by
    obtain ⟨data, count, datum⟩ := reachable.exists_data held kept
    refine ⟨data, presents_of_datum kept count datum, shows.presents kept datum ?_ ?_⟩
    · exact (length_stretch (count ▸ fits)).trans List.length_range'.symm
    · exact getElem?_stretch_eq_bind data offset length
  keeps settled := (layered settled).keeps

/-- Two blocks that show the same positions of a block are one region, if they are made as such. -/
theorem Shows.sameRegion {w : World} (shows : s.Shows b (List.range' offset length))
    (other : t.Shows b (List.range' offset length)) (reachable : Reachable w) (held : b ∈ w.blocks)
    (fits : offset + length ≤ b.positionCount) (first : ¬ b.IsLazy → Layered offset length s b)
    (second : ¬ b.IsLazy → Layered offset length t b) : b.SameRegion s t where
  count := shows.count.trans other.count.symm
  reads := readsFrom_of_datum fun i datum held ↦ by
    rw [Nat.zero_add, other.datum, ← shows.datum, held]
  presents kept := by
    obtain ⟨data, count, datum⟩ := reachable.exists_data held kept
    have all : (stretch data offset length).length = (List.range' offset length).length :=
      (length_stretch (count ▸ fits)).trans List.length_range'.symm
    have each := getElem?_stretch_eq_bind data offset length
    exact ⟨_, shows.presents kept datum all each, other.presents kept datum all each⟩
  view := by
    rintro keys entries rfl
    obtain ⟨k, rfl, -, -, -, mine⟩ := (first id).keeps.dictionary keys entries rfl
    obtain ⟨l, rfl, -, -, -, yours⟩ := (second id).keeps.dictionary keys entries rfl
    exact ⟨k, l, rfl, rfl, Option.some.inj (mine.symm.trans yours)⟩

end Block

/-- **Regions compose.** A region of positions that a block has can be taken whatever is loaded, and
reads as the block past the offset. In every reachable world that holds it, a region of it can be
taken as well, and this is, wherever it is read, the region of the block at the sum of the offsets,
wherever that is taken. All of them share what the block has, unless the block is lazy. -/
theorem Reachable.regions_compose {w : World} (reachable : Reachable w) {b : Block}
    (held : b ∈ w.blocks) {o₁ l₁ : Nat} (outer : o₁ + l₁ ≤ b.positionCount) :
    (∃ r, w.Opens b o₁ l₁ r) ∧ ∀ r, b.HasRegion o₁ l₁ r → r.IsRegion b o₁ l₁ ∧
      ∀ o₂ l₂, o₂ + l₂ ≤ l₁ →
        (∀ w', Reachable w' → r ∈ w'.blocks → ∃ s, w'.Opens r o₂ l₂ s) ∧
        ∀ s, r.HasRegion o₂ l₂ s → s.IsRegion b (o₁ + o₂) l₂ ∧
          ∀ t, b.HasRegion (o₁ + o₂) l₂ t → b.SameRegion s t := by
  refine ⟨reachable.exists_opens held outer, fun r first ↦ ⟨?_, fun o₂ l₂ inner ↦ ⟨?_, ?_⟩⟩⟩
  · exact first.shows.isRegion reachable held outer first.layered
  · intro w' reachable' held'
    have count : r.positionCount = l₁ := first.shows.count.trans List.length_range'
    exact reachable'.exists_opens held' (count ▸ inner)
  · intro s second
    have shows := second.shows.trans_window first.shows inner
    have fits : o₁ + o₂ + l₂ ≤ b.positionCount := by omega
    have layered : ¬ b.IsLazy → Block.Layered (o₁ + o₂) l₂ s b := fun settled ↦
      have below := first.layered settled
      (second.layered below.not_isLazy).trans below inner
    exact ⟨shows.isRegion reachable held fits layered,
      fun t other ↦ shows.sameRegion other.shows reachable held fits layered other.layered⟩

/-- The last two of the three keys of the sample, the last one of these, and the last key at
once. -/
theorem World.regions_compose_sample : ∃ r w s t,
    sample.Opens (.dictionary sampleKeys sampleEntries) 1 2 r ∧
      r.IsRegion (.dictionary sampleKeys sampleEntries) 1 2 ∧
      Reachable w ∧ w.Opens r 1 1 s ∧ sample.Opens (.dictionary sampleKeys sampleEntries) 2 1 t ∧
        (Block.dictionary sampleKeys sampleEntries).SameRegion s t := by
  have held : .dictionary sampleKeys sampleEntries ∈ sample.blocks := List.mem_cons_self
  obtain ⟨⟨r, opens⟩, all⟩ :=
    reachable_sample.regions_compose held (show 1 + 2 ≤ 3 by decide)
  obtain ⟨region, rest⟩ := all r ⟨sample, reachable_sample, held, opens⟩
  obtain ⟨again, agree⟩ := rest 1 1 (by decide)
  obtain ⟨t, direct⟩ := reachable_sample.exists_opens held (show 2 + 1 ≤ 3 by decide)
  have ⟨ledger, _, reachable⟩ := opens
  obtain ⟨s, second⟩ := again _ reachable List.mem_cons_self
  exact ⟨r, _, s, t, opens, region, reachable, second, direct,
    (agree s ⟨_, reachable, List.mem_cons_self, second⟩).2 t
      ⟨sample, reachable_sample, held, direct⟩⟩

end BatchColumn
