import BatchColumn.Proofs.Arrays

/-!
# Shelves of views

A `Shelf` holds views as a user gathers them: some lay out a list of their own, the others come from
views that are there already, one `Step` each. Every view is held with the list that its first
ancestor laid out and with the steps that lead from there, and both lists of interest can be
worked out from these:

* `Held.seen`: the list with all windows taken of it;
* `Held.laid`: the vector behind the view, which is the list itself until a compaction lays out
  what was seen at that time.

A step of a view either stays in its array or moves to one that no view had before
(`View.Step.storage_of_run`). Therefore an array is never behind two vectors, on any shelf that a
user can come by (`Shelf.Reachable.sound`), and all that is said of views follows: they are exact
windows of the vectors they should be windows of, and two that are the same view show the same.
-/

namespace BatchColumn

variable {α : Type}

/-! ### Whole views, and windows that do not fit -/

namespace View

/-- A whole view shows all of the vector behind it. -/
theorem toList_of_isWhole {v : View α} (whole : v.isWhole = true) :
    v.toList = v.backing.toList := by
  simp only [isWhole, Bool.and_eq_true, beq_iff_eq] at whole
  rw [toList_eq_take_drop, whole.1, whole.2, List.drop_zero]
  exact List.take_of_length_le (Array.length_toList ▸ le_rfl)

/-- A window that does not fit panics, and no other does. -/
theorem region_eq_panic_iff (v : View α) (offset length : Nat) :
    v.region offset length = .error .panic ↔
      ¬(offset ≤ v.length ∧ length ≤ v.length - offset) := by
  constructor
  · intro fails fits
    obtain ⟨w, cut, -⟩ := v.region_eq_ok (by omega : offset + length ≤ v.length)
    rw [cut] at fails
    cases fails
  · intro outside
    rw [region, region?, dif_neg (by omega)]
    rfl

/-- The vector behind a view counts as a whole. -/
theorem retainedSize_eq (v : View α) (width : Nat) :
    v.retainedSize width = width * v.backing.toList.length := rfl

/-- Compacting lays out what a view shows, or finds it laid out. -/
theorem backing_compact (v : View α) (storage : Nat) :
    (v.compact storage).backing.toList = v.toList := by
  rw [← toList_of_isWhole (isWhole_compact v storage), toList_compact]

@[simp] theorem sharesStorage_iff {v w : View α} :
    v.sharesStorage w = true ↔ v.storage = w.storage :=
  beq_iff_eq

/-- Under an identity that the view does not have yet, a compacted view stays in the array of the
view only if that was whole. -/
theorem sharesStorage_compact_iff {v : View α} {storage : Nat} (new : v.storage ≠ storage) :
    (v.compact storage).sharesStorage v = true ↔ v.isWhole = true := by
  rw [sharesStorage_iff, storage_compact]
  split
  next whole => exact iff_of_true rfl whole
  next partly => exact iff_of_false new.symm partly

theorem sameView_iff {v w : View α} :
    v.sameView w = true ↔ v.storage = w.storage ∧ v.offset = w.offset ∧ v.length = w.length := by
  simp [sameView, and_assoc]

/-- Being the same view is an equivalence. -/
theorem equivalence_sameView : Equivalence fun v w : View α ↦ v.sameView w = true where
  refl _ := sameView_iff.2 ⟨rfl, rfl, rfl⟩
  symm same := by
    obtain ⟨storage, offset, length⟩ := sameView_iff.1 same
    exact sameView_iff.2 ⟨storage.symm, offset.symm, length.symm⟩
  trans first second := by
    obtain ⟨storage, offset, length⟩ := sameView_iff.1 first
    obtain ⟨storage', offset', length'⟩ := sameView_iff.1 second
    exact sameView_iff.2
      ⟨storage.trans storage', offset.trans offset', length.trans length'⟩

/-- The same window of the same vector shows the same. -/
theorem toList_of_sameView {v w : View α} (backing : v.backing = w.backing)
    (same : v.sameView w = true) : v.toList = w.toList := by
  obtain ⟨-, offset, length⟩ := sameView_iff.1 same
  rw [toList_eq_take_drop, toList_eq_take_drop, backing, offset, length]

/-! ### Steps -/

/-- What may be done with a view. -/
inductive Step where
  /-- Takes a window. -/
  | region (offset length : Nat)
  /-- Leaves a view that retains its own items only. -/
  | compact
  /-- Takes the same window again. -/
  | clone

namespace Step

/-- The view that a step makes; `storage` is for the array that it may lay out. -/
def run (v : View α) (storage : Nat) : Step → Except Fault (View α)
  | region offset length => v.region offset length
  | compact => return v.compact storage
  | clone => return v

/-- What a step does to the items shown. -/
def cut (items : List α) : Step → List α
  | region offset length => stretch items offset length
  | compact | clone => items

variable {v w : View α} {storage : Nat} {step : Step}

/-- A step shows the stretch that it should. -/
theorem toList_of_run (ran : step.run v storage = .ok w) : w.toList = step.cut v.toList := by
  cases step with
  | region offset length =>
    have fits : offset + length ≤ v.length := by
      by_contra outside
      rw [run, (v.region_eq_panic_iff offset length).2 (by omega)] at ran
      cases ran
    obtain ⟨u, cut, shows, -⟩ := v.region_eq_ok fits
    obtain rfl := Except.ok.inj (cut.symm.trans ran)
    exact shows
  | compact =>
    obtain rfl := Except.ok.inj ran
    exact toList_compact v storage
  | clone =>
    obtain rfl := Except.ok.inj ran
    rfl

/-- A step stays in the array of the view, or lays out a new one. -/
theorem storage_of_run (ran : step.run v storage = .ok w) :
    (w.storage = v.storage ∧ w.backing = v.backing) ∨ w.storage = storage := by
  cases step with
  | region offset length => exact .inl (of_region_eq_ok ran)
  | compact =>
    obtain rfl := Except.ok.inj ran
    by_cases whole : v.isWhole = true
    · exact .inl (by rw [View.compact, if_pos whole]; exact ⟨rfl, rfl⟩)
    · exact .inr (by rw [storage_compact, if_neg whole])
  | clone =>
    obtain rfl := Except.ok.inj ran
    exact .inl ⟨rfl, rfl⟩

end Step

end View

/-! ### Shelves -/

/-- A view, and how it came about. -/
structure Held (α : Type) where
  /-- The list that was laid out first. -/
  items : List α
  /-- The steps that were taken from there, the last one first. -/
  steps : List View.Step
  /-- The view. -/
  view : View α

/-- What the steps leave of a list. -/
def View.Step.seen (items : List α) : List View.Step → List α
  | [] => items
  | step :: earlier => step.cut (seen items earlier)

/-- The vector laid out last: the list itself, or what was seen when it was compacted. -/
def View.Step.laid (items : List α) : List View.Step → List α
  | [] => items
  | .compact :: earlier => seen items earlier
  | .region _ _ :: earlier | .clone :: earlier => laid items earlier

namespace Held

/-- What the view should show. -/
def seen (held : Held α) : List α :=
  View.Step.seen held.items held.steps

/-- The vector that should stand behind the view. -/
def laid (held : Held α) : List α :=
  View.Step.laid held.items held.steps

/-- A list, laid out. -/
def start (storage : Nat) (items : List α) : Held α :=
  ⟨items, [], .ofList storage items⟩

/-- One step further. -/
def after (held : Held α) (step : View.Step) (w : View α) : Held α :=
  ⟨held.items, step :: held.steps, w⟩

end Held

/-- The views that a user holds. -/
structure Shelf (α : Type) where
  /-- The identity for the next array. -/
  next : Nat
  /-- The views, the last one first. -/
  held : List (Held α)

namespace Shelf

/-- No views. -/
def empty : Shelf α := ⟨0, []⟩

/-- One view more. Its identity for an array is used up, whether an array was laid out or not. -/
def put (shelf : Shelf α) (held : Held α) : Shelf α :=
  ⟨shelf.next + 1, held :: shelf.held⟩

/-- The shelves that laying out lists and taking steps from views lead to. -/
inductive Reachable : Shelf α → Prop where
  /-- It starts with no views. -/
  | empty : Reachable .empty
  /-- A list is laid out. -/
  | start {shelf : Shelf α} (items : List α) (reached : Reachable shelf) :
      Reachable (shelf.put (.start shelf.next items))
  /-- A step is taken from a view on the shelf, and succeeds. -/
  | step {shelf : Shelf α} {held : Held α} {w : View α} (step : View.Step)
      (reached : Reachable shelf) (mem : held ∈ shelf.held)
      (ran : step.run held.view shelf.next = .ok w) :
      Reachable (shelf.put (held.after step w))

/-- Every view is the window that it should be, and every array is behind one vector only. -/
structure Sound (shelf : Shelf α) : Prop where
  /-- Views show what their steps leave of the list. -/
  seen : ∀ held ∈ shelf.held, held.view.toList = held.seen
  /-- The vectors behind the views are those that were laid out. -/
  laid : ∀ held ∈ shelf.held, held.view.backing.toList = held.laid
  /-- No array has an identity that is still to be given out. -/
  old : ∀ held ∈ shelf.held, held.view.storage < shelf.next
  /-- Views of one array are views of one vector. -/
  shared : ∀ held ∈ shelf.held, ∀ other ∈ shelf.held,
    held.view.storage = other.view.storage → held.view.backing = other.view.backing

variable {shelf : Shelf α}

theorem Sound.empty : (empty : Shelf α).Sound where
  seen _ mem := nomatch mem
  laid _ mem := nomatch mem
  old _ mem := nomatch mem
  shared _ mem := nomatch mem

/-- A view may join if it is an exact window, of an array on the shelf or of a new one. -/
theorem Sound.put (sound : shelf.Sound) {held : Held α} (seen : held.view.toList = held.seen)
    (laid : held.view.backing.toList = held.laid)
    (array : (∃ other ∈ shelf.held, held.view.storage = other.view.storage ∧
      held.view.backing = other.view.backing) ∨ held.view.storage = shelf.next) :
    (shelf.put held).Sound := by
  -- The one view that is new is compared with those on the shelf, in either order.
  have old : held.view.storage < shelf.next + 1 := by
    obtain ⟨other, mem, storage, -⟩ | storage := array
    · exact storage ▸ Nat.lt_succ_of_lt (sound.old other mem)
    · exact storage ▸ Nat.lt_succ_self _
  have shared : ∀ third ∈ shelf.held, held.view.storage = third.view.storage →
      held.view.backing = third.view.backing := by
    intro third mem same
    obtain ⟨other, otherMem, storage, backing⟩ | storage := array
    · exact backing.trans (sound.shared other otherMem third mem (storage.symm.trans same))
    · exact absurd (same.symm.trans storage) (sound.old third mem).ne
  exact
    { seen := List.forall_mem_cons.2 ⟨seen, sound.seen⟩
      laid := List.forall_mem_cons.2 ⟨laid, sound.laid⟩
      old := List.forall_mem_cons.2
        ⟨old, fun third mem ↦ Nat.lt_succ_of_lt (sound.old third mem)⟩
      shared := List.forall_mem_cons.2
        ⟨List.forall_mem_cons.2 ⟨fun _ ↦ rfl, shared⟩, fun third mem ↦
          List.forall_mem_cons.2 ⟨fun same ↦ (shared third mem same.symm).symm,
            sound.shared third mem⟩⟩ }

theorem Sound.start (sound : shelf.Sound) (items : List α) :
    (shelf.put (.start shelf.next items)).Sound :=
  sound.put (View.toList_ofList _ _) (List.toList_toArray ..) (.inr rfl)

/-- The vector behind a view after a step is the one that was laid out last. -/
theorem Sound.laid_after (sound : shelf.Sound) {held : Held α} (mem : held ∈ shelf.held)
    {step : View.Step} {w : View α} (ran : step.run held.view shelf.next = .ok w) :
    w.backing.toList = (held.after step w).laid := by
  cases step with
  | region offset length =>
    rw [(View.of_region_eq_ok ran).2]
    exact sound.laid held mem
  | compact =>
    obtain rfl := Except.ok.inj ran
    exact (View.backing_compact _ _).trans (sound.seen held mem)
  | clone =>
    obtain rfl := Except.ok.inj ran
    exact sound.laid held mem

/-- A step from a view on the shelf leaves the shelf sound. -/
theorem Sound.step (sound : shelf.Sound) {held : Held α} (mem : held ∈ shelf.held)
    {step : View.Step} {w : View α} (ran : step.run held.view shelf.next = .ok w) :
    (shelf.put (held.after step w)).Sound := by
  have seen : w.toList = (held.after step w).seen := by
    rw [View.Step.toList_of_run ran, sound.seen held mem]
    rfl
  exact sound.put seen (sound.laid_after mem ran)
    ((View.Step.storage_of_run ran).imp_left fun array ↦ ⟨held, mem, array⟩)

/-- **Every shelf that a user can come by is sound.** -/
theorem Reachable.sound (reached : shelf.Reachable) : shelf.Sound := by
  induction reached with
  | empty => exact .empty
  | start items _ ih => exact ih.start items
  | step _ _ mem ran ih => exact ih.step mem ran

/-! ### What holds of the views on a shelf -/

/-- A window is taken if it fits and panics otherwise; what is taken shows the stretch, in the same
array, and so retains as much. -/
theorem Sound.region (sound : shelf.Sound) {held : Held α} (mem : held ∈ shelf.held)
    (offset length : Nat) :
    (held.view.region offset length = .error .panic ↔
      ¬(offset ≤ held.view.length ∧ length ≤ held.view.length - offset)) ∧
    (offset ≤ held.view.length ∧ length ≤ held.view.length - offset →
      ∃ w, held.view.region offset length = .ok w ∧
        w.toList = stretch held.seen offset length ∧ w.sharesStorage held.view = true ∧
        ∀ width, w.retainedSize width = held.view.retainedSize width) := by
  refine ⟨held.view.region_eq_panic_iff offset length, fun fits ↦ ?_⟩
  obtain ⟨w, cut, shows, -⟩ := held.view.region_eq_ok
    (by omega : offset + length ≤ held.view.length)
  obtain ⟨storage, backing⟩ := View.of_region_eq_ok cut
  refine ⟨w, cut, shows.trans (by rw [sound.seen held mem]), View.sharesStorage_iff.2 storage,
    fun width ↦ ?_⟩
  rw [View.retainedSize_eq, View.retainedSize_eq, backing]

/-- **Views are exact windows.** On every shelf that a user can come by, a view shows what its
windows leave of the list that was laid out, and retains the whole vector behind it. A further
window is taken if it fits and panics otherwise, and retains as much. Compacting leaves a whole view
of the same items, in the same array exactly if the view was whole. Views that are the same show the
same, and being the same is an equivalence. -/
theorem Reachable.views_exact (reached : shelf.Reachable) :
    (∀ held ∈ shelf.held,
      held.view.toList = held.seen ∧
      (∀ offset length,
        (held.view.region offset length = .error .panic ↔
          ¬(offset ≤ held.view.length ∧ length ≤ held.view.length - offset)) ∧
        (offset ≤ held.view.length ∧ length ≤ held.view.length - offset →
          ∃ w, held.view.region offset length = .ok w ∧
            w.toList = stretch held.seen offset length ∧ w.sharesStorage held.view = true ∧
            ∀ width, w.retainedSize width = held.view.retainedSize width)) ∧
      ((held.view.compact shelf.next).isWhole = true ∧
        (held.view.compact shelf.next).toList = held.view.toList ∧
        ((held.view.compact shelf.next).sharesStorage held.view = true ↔
          held.view.isWhole = true)) ∧
      ∀ width, held.view.retainedSize width = width * held.laid.length) ∧
    (∀ held ∈ shelf.held, ∀ other ∈ shelf.held,
      held.view.sameView other.view = true → held.view.toList = other.view.toList) ∧
    Equivalence fun held other : { held // held ∈ shelf.held } ↦
      held.1.view.sameView other.1.view = true := by
  have sound := reached.sound
  refine ⟨fun held mem ↦ ⟨sound.seen held mem, sound.region mem, ⟨View.isWhole_compact _ _,
    View.toList_compact _ _, View.sharesStorage_compact_iff (sound.old held mem).ne⟩,
    fun width ↦ ?_⟩, fun held mem other otherMem same ↦ ?_, ?_⟩
  · rw [View.retainedSize_eq, sound.laid held mem]
  · have storage := (View.sameView_iff.1 same).1
    exact View.toList_of_sameView (sound.shared held mem other otherMem storage) same
  · exact View.equivalence_sameView.comap fun held : { held // held ∈ shelf.held } ↦ held.1.view

/-! ### A shelf with a window of a window -/

/-- Five numbers. -/
def five : Held Nat :=
  .start 0 [1, 2, 3, 4, 5]

/-- The last four of them. -/
def wide : Held Nat :=
  five.after (.region 1 4) ⟨0, #[1, 2, 3, 4, 5], 1, 4, by decide⟩

/-- The middle two of those. -/
def narrow : Held Nat :=
  wide.after (.region 1 2) ⟨0, #[1, 2, 3, 4, 5], 2, 2, by decide⟩

/-- The same two, in an array of their own. -/
def owned : Held Nat :=
  narrow.after .compact (.ofList 3 [3, 4])

/-- The shelf that they stand on. -/
def sample : Shelf Nat :=
  (((empty.put five).put wide).put narrow).put owned

theorem reachable_sample : sample.Reachable :=
  have first : (empty.put five).Reachable := .start _ .empty
  have second : ((empty.put five).put wide).Reachable :=
    .step (.region 1 4) first (List.mem_cons_self ..) rfl
  have third : (((empty.put five).put wide).put narrow).Reachable :=
    .step (.region 1 2) second (List.mem_cons_self ..) rfl
  .step .compact third (List.mem_cons_self ..) rfl

theorem views_exact_sample :
    sample.Reachable ∧ narrow.view.toList = [3, 4] ∧
      narrow.view.region 1 2 = .error .panic ∧
      ¬(narrow.view.compact 4).sharesStorage narrow.view = true ∧
      narrow.view.retainedSize 4 = 20 ∧ owned.view.retainedSize 4 = 8 :=
  have views := (Reachable.views_exact reachable_sample).1
  have ofNarrow := views narrow (by simp [sample, put])
  have ofOwned := views owned (by simp [sample, put])
  ⟨reachable_sample, ofNarrow.1, (ofNarrow.2.1 1 2).1.2 (by decide),
    fun shares ↦ absurd (ofNarrow.2.2.1.2.2.1 shares) (by decide),
    ofNarrow.2.2.2 4, ofOwned.2.2.2 4⟩

end Shelf

end BatchColumn
