import BatchColumn.Proofs.Agreement
import BatchColumn.Proofs.Alike

/-!
# Inspecting never loads

The type of a query holds the loads fixed, so no query calls a loader or fills a cell. What the type
does not say is that a query leaves alone what a lazy block that is not loaded would load, which is
there to be read below the promise. So runs are compared side by side: over blocks that are alike
(`Block.Alike`), whatever they promise, a query ends alike and leaves the same ledger
(`Query.Alike`). As for `Query.Meets` there is one rule for each way of building a query, and then
one lemma for each operation; those that walk go down two alike blocks in step.

An `Inspection` is anything that can be asked of a block without loading: a window, a selection, a
gather, a compaction, a size, a fact. **Inspecting never loads** (`Inspection.loads_nothing`): it
leaves the loads as they are, and could not tell what is not loaded from anything else.
-/

namespace BatchColumn

variable {loads others : Loads} {α β γ δ : Type}

/-! ### Queries side by side -/

/-- Nothing is loaded under an identity that is not given out yet. -/
def Loads.Blank (loads : Loads) (ledger : Ledger) : Prop :=
  ∀ cell, ledger.next ≤ cell → loads.payloads.get? cell = none

/-- In a reachable world nothing is. -/
theorem Reachable.blank {w : World} (reachable : Reachable w) :
    w.store.loads.Blank w.store.ledger := by
  obtain ⟨K, sound, -⟩ := reachable.sound
  exact fun cell beyond ↦ (sound.blank cell beyond).2

theorem Loads.Blank.content?_eq_none {ledger : Ledger} (blank : loads.Blank ledger) {cell : Nat}
    (beyond : ledger.next ≤ cell) (bound : Nat) : loads.content? cell bound = none := by
  rw [content?, blank cell beyond]

namespace Query

/-- Run on one ledger, the one query over `loads` and the other over `others`, both end with answers
in the relation or with the same fault, and leave the same ledger. -/
def Alike (loads others : Loads) (R : α → β → Prop) (query : Query α) (twin : Query β) : Prop :=
  ∀ ledger, loads.Blank ledger → others.Blank ledger →
    Matched R (query.outcome loads ledger).1 (twin.outcome others ledger).1 ∧
      (query.outcome loads ledger).2 = (twin.outcome others ledger).2 ∧
        ledger.next ≤ (query.outcome loads ledger).2.next

namespace Alike

variable {R : α → β → Prop} {S : γ → δ → Prop}

protected theorem pure {a : α} {b : β} (related : R a b) :
    Query.Alike loads others R (pure a) (pure b) :=
  fun _ _ _ ↦ ⟨.ok related, rfl, Nat.le_refl _⟩

protected theorem throw (fault : Fault) :
    Query.Alike loads others R (throw fault) (throw fault) :=
  fun _ _ _ ↦ ⟨.error fault, rfl, Nat.le_refl _⟩

/-- Two steps in a row. -/
protected theorem bind {first : Query α} {second : Query β} {rest : α → Query γ}
    {other : β → Query δ} (alike : Query.Alike loads others R first second)
    (next : ∀ a b, R a b → Query.Alike loads others S (rest a) (other b)) :
    Query.Alike loads others S (first >>= rest) (second >>= other) := by
  intro ledger blank blank'
  obtain ⟨matched, same, grows⟩ := alike ledger blank blank'
  rcases run : first.outcome loads ledger with ⟨result, middle⟩
  rcases run' : second.outcome others ledger with ⟨result', middle'⟩
  rw [run, run'] at matched same
  rw [run] at grows
  obtain rfl : middle = middle' := same
  cases matched with
  | error fault =>
    rw [outcome_bind_of_error run, outcome_bind_of_error run']
    exact ⟨.error fault, rfl, grows⟩
  | ok related =>
    rw [outcome_bind_of_ok run, outcome_bind_of_ok run']
    obtain ⟨ends, left, more⟩ := next _ _ related middle
      (fun cell beyond ↦ blank cell (Nat.le_trans grows beyond))
      (fun cell beyond ↦ blank' cell (Nat.le_trans grows beyond))
    exact ⟨ends, left, Nat.le_trans grows more⟩

/-- Two steps in a row, the first with the same answer. -/
theorem same_bind {first second : Query α} {rest : α → Query γ} {other : α → Query δ}
    (alike : Query.Alike loads others Eq first second)
    (next : ∀ a, Query.Alike loads others S (rest a) (other a)) :
    Query.Alike loads others S (first >>= rest) (second >>= other) :=
  alike.bind fun a _ same ↦ same ▸ next a

theorem read_bind {rest : Loads → Query α} {other : Loads → Query β}
    (next : Query.Alike loads others R (rest loads) (other others)) :
    Query.Alike loads others R (read >>= rest) (read >>= other) := next

theorem ledger_bind {rest : Ledger → Query α} {other : Ledger → Query β}
    (next : ∀ ledger, Query.Alike loads others R (rest ledger) (other ledger)) :
    Query.Alike loads others R (getThe Ledger >>= rest) (getThe Ledger >>= other) :=
  fun ledger ↦ next ledger ledger

/-- A check of what is the same. -/
theorem check {first : Except Error α} {second : Except Error β}
    (matched : Matched R first second) :
    Query.Alike loads others R (liftM first) (liftM second) := by
  cases matched with
  | ok related => exact .pure related
  | error cause => exact .throw (.error cause)

theorem attempt {first : Except Fault α} {second : Except Fault β}
    (matched : Matched R first second) :
    Query.Alike loads others R (liftM first) (liftM second) := by
  cases matched with
  | ok related => exact .pure related
  | error fault => exact .throw fault

/-- A step of the ledger alone. -/
theorem step (act : StateM Ledger α) (grows : ∀ ledger, ledger.next ≤ (act.run ledger).2.next) :
    Query.Alike loads others Eq (liftM act) (liftM act) :=
  fun ledger _ _ ↦ ⟨.ok rfl, rfl, grows ledger⟩

theorem fresh : Query.Alike loads others Eq (liftM Ledger.fresh) (liftM Ledger.fresh) :=
  step _ fun _ ↦ Nat.le_succ _

/-- A fresh identity has nothing loaded. -/
theorem fresh_cell : Query.Alike loads others
    (fun n m ↦ n = m ∧ (∀ bound, loads.content? n bound = none) ∧
      ∀ bound, others.content? m bound = none) (liftM Ledger.fresh) (liftM Ledger.fresh) :=
  fun _ blank blank' ↦ ⟨.ok ⟨rfl, blank.content?_eq_none (Nat.le_refl _),
    blank'.content?_eq_none (Nat.le_refl _)⟩, rfl, Nat.le_succ _⟩

theorem mint : Query.Alike loads others Eq (liftM Ledger.mint) (liftM Ledger.mint) :=
  step _ fun _ ↦ Nat.le_refl _

theorem storages :
    Query.Alike loads others Eq (liftM Slices.Storages.fresh) (liftM Slices.Storages.fresh) :=
  step _ fun _ ↦ Nat.le_add_right _ 3

theorem carryOver (memory : Nat) :
    Query.Alike loads others Eq (liftM (Ledger.carryOver memory))
      (liftM (Ledger.carryOver memory)) :=
  step _ fun _ ↦ Nat.le_succ _

theorem modify (change : Ledger → Ledger) (grows : ∀ ledger, ledger.next ≤ (change ledger).next) :
    Query.Alike loads others Eq (modifyThe Ledger change) (modifyThe Ledger change) :=
  fun ledger _ _ ↦ ⟨.ok rfl, rfl, grows ledger⟩

theorem duplicate_lists (lists : Lists) :
    Query.Alike loads others Eq lists.duplicate lists.duplicate :=
  .same_bind (.carryOver _) fun _ ↦ .pure rfl

theorem duplicate_keys (keys : Keys) :
    Query.Alike loads others Eq keys.duplicate keys.duplicate :=
  .same_bind (.carryOver _) fun _ ↦ .pure rfl

theorem mapM {call twin : α → Query γ} (items : List α)
    (alike : ∀ item, Query.Alike loads others Eq (call item) (twin item)) :
    Query.Alike loads others Eq (items.mapM call) (items.mapM twin) := by
  induction items with
  | nil => exact .pure rfl
  | cons item items ih =>
    rw [List.mapM_cons, List.mapM_cons]
    exact .same_bind (alike item) fun _ ↦ .same_bind ih fun _ ↦ .pure rfl

/-- Sizes are added up alike. -/
theorem sumOver {call twin : α → Query Nat} (items : List α)
    (alike : ∀ item, Query.Alike loads others Eq (call item) (twin item)) :
    Query.Alike loads others Eq (sumOver items call) (sumOver items twin) := by
  simp only [BatchColumn.sumOver]
  generalize 0 = total
  induction items generalizing total with
  | nil => exact .pure rfl
  | cons item items ih =>
    simp only [List.foldlM_cons, bind_assoc]
    exact .same_bind (alike item) fun _ ↦ .same_bind (.attempt (.refl _)) ih

protected theorem ite {c : Prop} [Decidable c] {query query' : Query α} {twin twin' : Query β}
    (pos : Query.Alike loads others R query twin) (neg : Query.Alike loads others R query' twin') :
    Query.Alike loads others R (if c then query else query') (if c then twin else twin') := by
  split
  · exact pos
  · exact neg

/-- A figure is remembered alike if it is worked out alike. -/
theorem remembered {table : Ledger.Table α} (memory : Nat) {figure twin : Query α}
    (alike : Query.Alike loads others Eq figure twin)
    (keeps : ∀ change ledger, (table.update change ledger).next = ledger.next) :
    Query.Alike loads others Eq (.remembered table memory figure)
      (.remembered table memory twin) := by
  refine ledger_bind fun ledger ↦ ?_
  rcases (table.slots ledger).get? memory with - | known
  · exact alike.same_bind fun _ ↦
      .same_bind (.modify _ fun ledger ↦ Nat.le_of_eq (keeps _ ledger).symm) fun _ ↦ .pure rfl
  · exact .pure rfl

end Alike

end Query

namespace Block.Alike

variable {b c entries items : Block}

/-! ### Sizes -/

theorem statsWith (inner : entries.Alike loads others items) (keys : Keys) {figure twin : Query Nat}
    (figures : Query.Alike loads others Eq figure twin) :
    Query.Alike loads others Eq (keys.statsWith entries figure) (keys.statsWith items twin) := by
  refine .remembered keys.memory (.read_bind ?_) fun _ _ ↦ rfl
  rw [inner.positionCount_eq]
  refine .same_bind (.attempt (.refl _)) fun used ↦ ?_
  have found := inner.resolved
  dsimp only
  rw [inner.flatMaskSize_eq]
  generalize entries.resolved? loads = one, items.resolved? others = two at found ⊢
  cases found with
  | none =>
    exact .ite (figures.same_bind fun _ ↦ .pure rfl)
      (.same_bind (.attempt (.refl _)) fun _ ↦ .pure rfl)
  | some related =>
    -- Of the keys between two dictionaries only their number counts, and they are the same keys.
    dsimp only
    rw [related.1]
    exact .ite (figures.same_bind fun _ ↦ .pure rfl)
      (.same_bind (.attempt (.refl _)) fun _ ↦ .pure rfl)

theorem sizeOf (alike : b.Alike loads others c) (extent : Extent) :
    Query.Alike loads others Eq (b.sizeOf extent) (c.sizeOf extent) := by
  induction alike using walk generalizing extent with
  | unloaded b c alike shown seen | ints b c alike _ shown seen =>
    rw [Block.sizeOf, Block.sizeOf, alike.positionCount_eq]
    refine .same_bind (.check (.refl _)) fun _ ↦ .read_bind ?_
    rw [shown, seen]
    exact .pure rfl
  | slices b c alike _ shown seen =>
    rw [Block.sizeOf, Block.sizeOf, alike.positionCount_eq]
    refine .same_bind (.check (.refl _)) fun _ ↦ .read_bind ?_
    rw [shown, seen]
    exact .attempt (.refl _)
  | array b c alike lists _ _ _ _ shown seen _ ih =>
    rw [Block.sizeOf, Block.sizeOf, alike.positionCount_eq]
    refine .same_bind (.check (.refl _)) fun _ ↦ .read_bind ?_
    rw [shown, seen]
    have checked (length : Nat) :
        Query.Alike loads others Eq (liftM (lists.cut extent.offset length))
          (liftM (lists.cut extent.offset length)) := .check (.refl _)
    have cut (length : Nat) := (checked length).same_bind fun span ↦
      (ih (.region span.1 (span.2 - span.1))).same_bind fun size ↦
        .pure (rfl (a := size + Lists.overhead * length))
    rcases extent with - | ⟨offset, length⟩
    · exact .remembered lists.memory (cut _) fun _ _ ↦ rfl
    · exact cut _
  | dictionary b c alike keys _ _ _ _ shown seen inner ih =>
    rw [Block.sizeOf, Block.sizeOf, alike.positionCount_eq]
    refine .same_bind (.check (.refl _)) fun _ ↦ .read_bind ?_
    rw [shown, seen]
    refine .ite ((inner.statsWith keys (ih .all)).same_bind fun _ ↦ .pure rfl) ?_
    rw [inner.positionCount_eq]
    refine .same_bind (.attempt (.refl _)) fun used ↦ .read_bind ?_
    rw [inner.maskSize_eq]
    exact .same_bind (.attempt (.refl _)) fun _ ↦ .pure rfl

theorem stats (inner : entries.Alike loads others items) (keys : Keys) :
    Query.Alike loads others Eq (keys.stats entries) (keys.stats items) :=
  inner.statsWith keys (inner.sizeOf .all)

theorem logicalSize (alike : b.Alike loads others c) :
    Query.Alike loads others Eq b.logicalSize c.logicalSize := by
  induction alike using walk with
  | unloaded b c alike shown seen =>
    rw [Block.logicalSize, Block.logicalSize]
    refine .read_bind ?_
    rw [shown, seen]
    exact .pure rfl
  | ints b c alike _ shown seen | slices b c alike _ shown seen
  | array b c alike _ _ _ _ _ shown seen =>
    rw [Block.logicalSize, Block.logicalSize]
    refine .read_bind ?_
    rw [shown, seen]
    exact alike.sizeOf .all
  | dictionary b c _ keys _ _ _ _ shown seen inner =>
    rw [Block.logicalSize, Block.logicalSize]
    refine .read_bind ?_
    rw [shown, seen]
    refine .remembered keys.memory ?_ fun _ _ ↦ rfl
    rw [inner.positionCount_eq]
    refine .same_bind (.attempt (.refl _)) fun _ ↦ ?_
    refine .sumOver _ fun id ↦ ?_
    rw [entrySize, entrySize, inner.positionCount_eq]
    exact .ite (.same_bind (.throw _) fun _ ↦ inner.sizeOf _) (inner.sizeOf _)

/-! ### Windows, duplicates, keys -/

theorem windowWithin (alike : b.Alike loads others c) (offset length : Nat) :
    Query.Alike loads others (fun window twin ↦ window.1.Alike loads others twin.1)
      (b.windowWithin offset length) (c.windowWithin offset length) := by
  induction alike with
  | ints leaf =>
    rw [Block.windowWithin]
    exact .same_bind (.check (.refl _)) fun _ ↦
      .same_bind (.attempt (.refl _)) fun window ↦ .pure (.ints window)
  | slices leaf =>
    rw [Block.windowWithin]
    exact .same_bind (.check (.refl _)) fun _ ↦
      .same_bind (.attempt (.refl _)) fun window ↦ .pure (.slices window)
  | array lists alike =>
    rw [Block.windowWithin, Block.windowWithin]
    exact .same_bind .fresh fun _ ↦
      .same_bind (.check (.refl _)) fun window ↦ .pure (.array window alike)
  | dictionary keys alike =>
    rw [Block.windowWithin, Block.windowWithin]
    exact .ite
      (.same_bind (.carryOver _) fun _ ↦
        .same_bind (.check (.refl _)) fun window ↦ .pure (.dictionary window alike))
      (.same_bind .fresh fun _ ↦
        .same_bind (.check (.refl _)) fun window ↦ .pure (.dictionary window alike))
  | unloaded count held held' =>
    rw [Block.windowWithin, Block.windowWithin, count]
    refine .same_bind (.check (.refl _)) fun _ ↦ .read_bind ?_
    rw [held, held']
    refine .bind .fresh_cell ?_
    rintro cell _ ⟨rfl, empty, empty'⟩
    exact .pure (.unloaded rfl (empty _) (empty' _))
  | loaded count held held' _ ih =>
    rw [Block.windowWithin, Block.windowWithin, count]
    refine .same_bind (.check (.refl _)) fun _ ↦ .read_bind ?_
    rw [held, held']
    exact .bind ih fun _ _ alike ↦ .pure alike

theorem window (alike : b.Alike loads others c) (offset length : Nat) :
    Query.Alike loads others (Block.Alike loads others) (b.window offset length)
      (c.window offset length) :=
  .bind (alike.windowWithin offset length) fun _ _ alike ↦ .pure alike

theorem duplicate (alike : b.Alike loads others c) :
    Query.Alike loads others (Block.Alike loads others) b.duplicate c.duplicate := by
  cases alike with
  | ints leaf => exact .pure (.ints leaf)
  | slices leaf => exact .pure (.slices leaf)
  | array lists alike => exact .same_bind (.duplicate_lists lists) fun _ ↦ .pure (.array _ alike)
  | dictionary keys alike =>
    exact .same_bind (.duplicate_keys keys) fun _ ↦ .pure (.dictionary _ alike)
  | unloaded count held held' => exact .pure (.unloaded count held held')
  | loaded count held held' alike => exact .pure (.loaded count held held' alike)

theorem make (inner : entries.Alike loads others items) (handle : Nat) (ids : View Nat)
    (offset count : Nat) (source : SourceId) (hints : Hints) :
    Query.Alike loads others Eq (Keys.make handle entries ids offset count source hints)
      (Keys.make handle items ids offset count source hints) := by
  rw [Keys.make, Keys.make]
  split
  · refine .read_bind ?_
    rw [inner.isNested_eq, inner.positionCount_eq]
    refine .same_bind (.check (.refl _)) fun _ ↦ .same_bind (.check (.refl _)) fun _ ↦ ?_
    refine .same_bind .fresh fun memory ↦ ?_
    refine .ite (.same_bind (inner.sizeOf .all) fun size ↦ ?_) (.pure rfl)
    exact .same_bind (.modify _ fun _ ↦ Nat.le_refl _) fun _ ↦ .pure rfl
  · exact .throw _

theorem ofIds (inner : entries.Alike loads others items) (handle : Nat) (ids : List Nat)
    (source : SourceId) (hints : Hints) :
    Query.Alike loads others Eq (Keys.ofIds handle entries ids source hints)
      (Keys.ofIds handle items ids source hints) :=
  .same_bind .fresh fun _ ↦ inner.make handle _ 0 _ source hints

theorem mkDictionary (inner : entries.Alike loads others items) (ids : List Nat)
    (source : SourceId) :
    Query.Alike loads others (Block.Alike loads others) (entries.mkDictionary ids source)
      (items.mkDictionary ids source) := by
  rw [Block.mkDictionary, Block.mkDictionary, inner.positionCount_eq]
  refine .same_bind (.check (.refl _)) fun _ ↦ .bind inner.duplicate fun _ _ inner ↦ ?_
  exact .same_bind .fresh fun _ ↦
    .same_bind (inner.ofIds _ ids source .none) fun keys ↦ .pure (.dictionary keys inner)

/-! ### Gathers -/

theorem gather (alike : b.Alike loads others c) (positions : List Nat) :
    Query.Alike loads others (Block.Alike loads others) (b.gather positions)
      (c.gather positions) := by
  induction alike using walk generalizing positions with
  | unloaded b c alike shown seen =>
    rw [Block.gather, Block.gather]
    refine .read_bind ?_
    rw [shown, seen, alike.positionCount_eq, alike.unsupported_eq]
    exact .same_bind (.check (.refl _)) fun _ ↦ .throw _
  | ints b c _ leaf shown seen =>
    rw [Block.gather, Block.gather]
    refine .read_bind ?_
    rw [shown, seen]
    exact .same_bind (.check (.refl _)) fun _ ↦ .same_bind .fresh fun _ ↦ .same_bind .fresh fun _ ↦
      .same_bind (.attempt (.refl _)) fun gathered ↦ .pure (.ints gathered)
  | slices b c _ leaf shown seen =>
    rw [Block.gather, Block.gather]
    refine .read_bind ?_
    rw [shown, seen]
    exact .same_bind (.check (.refl _)) fun _ ↦ .same_bind .storages fun _ ↦
      .same_bind (.attempt (.refl _)) fun gathered ↦ .pure (.slices gathered)
  | array b c _ lists elements items _ _ shown seen inner ih =>
    rw [Block.gather, Block.gather]
    refine .read_bind ?_
    rw [shown, seen]
    refine .same_bind (.attempt (.refl _)) fun spans ↦
      .same_bind (.attempt (.refl _)) fun _ ↦ .read_bind ?_
    rw [inner.isNone_face_eq, inner.unsupported_eq]
    refine .ite (.same_bind (.throw _) fun _ ↦ ?_) ?_
    all_goals
      exact .bind (ih _) fun _ _ inner ↦ .same_bind .fresh fun _ ↦ .same_bind .fresh fun _ ↦
        .same_bind .fresh fun _ ↦ .same_bind .fresh fun _ ↦ .pure (.array _ inner)
  | dictionary b c _ keys entries items _ _ shown seen inner ih =>
    rw [Block.gather, Block.gather]
    refine .read_bind ?_
    rw [shown, seen]
    refine .same_bind (.check (.refl _)) fun ids ↦ .ledger_bind fun ledger ↦ .read_bind ?_
    rw [inner.isNested_eq]
    refine .ite (ih ids) (.bind (ih ids.eraseDups) fun gathered twin alike ↦ ?_)
    refine .ite (.pure alike) (.read_bind ?_)
    rw [alike.isNested_eq]
    exact .same_bind .fresh fun _ ↦ .same_bind .mint fun _ ↦
      .same_bind (alike.ofIds _ _ _ _) fun keys ↦ .pure (.dictionary keys alike)

theorem copyPositions (alike : b.Alike loads others c) (positions : List Nat)
    (offset length : Nat) :
    Query.Alike loads others (Block.Alike loads others) (b.copyPositions positions offset length)
      (c.copyPositions positions offset length) :=
  .same_bind (.check (.refl _)) fun _ ↦ alike.gather _

/-! ### Selections and compaction -/

theorem isCompact (inner : entries.Alike loads others items) (keys : Keys) :
    Query.Alike loads others Eq (keys.isCompact entries) (keys.isCompact items) := by
  rw [Keys.isCompact, Keys.isCompact]
  refine .read_bind ?_
  rw [inner.isNested_eq, inner.positionCount_eq]
  exact .ite (.pure rfl) (.same_bind (inner.stats keys) fun _ ↦ .pure rfl)

theorem selectKeys (inner : entries.Alike loads others items) (keys : Keys)
    (positions : List Nat) :
    Query.Alike loads others Eq (keys.select entries positions) (keys.select items positions) := by
  rw [Keys.select, Keys.select, inner.positionCount_eq]
  refine .ite (.same_bind (inner.isCompact keys) fun compact ↦ ?_)
    (.same_bind (.pure rfl) fun compact ↦ ?_)
  all_goals
    refine .same_bind (.mapM positions fun position ↦ .same_bind (.check (.refl _)) fun id ↦ ?_)
      fun ids ↦ inner.ofIds _ ids _ _
    exact .ite (.same_bind (.throw _) fun _ ↦ .pure rfl) (.pure rfl)

theorem select (alike : b.Alike loads others c) (positions : List Nat) (offset length : Nat) :
    Query.Alike loads others (Block.Alike loads others) (b.select positions offset length)
      (c.select positions offset length) := by
  rw [Block.select, Block.select]
  refine .same_bind (.check (.refl _)) fun _ ↦ ?_
  have wrapped (positions : List Nat) : Query.Alike loads others (Block.Alike loads others)
      (do checkPositions positions b.positionCount; b.mkDictionary positions (← Ledger.mint))
      (do checkPositions positions c.positionCount; c.mkDictionary positions (← Ledger.mint)) := by
    rw [alike.positionCount_eq]
    exact .same_bind (.check (.refl _)) fun _ ↦ .same_bind .mint fun _ ↦ alike.mkDictionary _ _
  cases alike with
  | dictionary keys inner =>
    exact .same_bind (inner.selectKeys keys _) fun keys ↦ .pure (.dictionary keys inner)
  | _ => exact wrapped _

theorem flatten (inner : entries.Alike loads others items) (keys : Keys) :
    Query.Alike loads others
      (fun flat twin ↦ flat.1 = twin.1 ∧ flat.2.Alike loads others twin.2)
      (keys.flatten entries) (keys.flatten items) := by
  rw [Keys.flatten, Keys.flatten]
  refine .read_bind (.bind (.check (inner.flattenIds keys.handle keys.toList)) ?_)
  rintro ⟨handle, bottom, ids⟩ ⟨_, ground, _⟩ ⟨rfl, alike, rfl⟩
  exact .same_bind .mint fun _ ↦ .same_bind (alike.ofIds _ _ _ _) fun _ ↦ .pure ⟨rfl, alike⟩

theorem shrink (inner : entries.Alike loads others items) (keys : Keys) :
    Query.Alike loads others
      (fun compacted twin ↦ compacted.1 = twin.1 ∧ compacted.2.Alike loads others twin.2)
      (keys.shrink entries) (keys.shrink items) := by
  rw [Keys.shrink, Keys.shrink]
  refine .same_bind (inner.stats keys) fun stats ↦ .read_bind ?_
  rw [inner.positionCount_eq, inner.supportsGather_eq]
  refine .ite (.same_bind (.duplicate_keys keys) fun _ ↦ .pure ⟨rfl, inner⟩) ?_
  refine .bind (inner.gather _) fun _ _ gathered ↦ ?_
  exact .same_bind .fresh fun _ ↦ .same_bind .mint fun _ ↦
    .same_bind (gathered.ofIds _ _ _ _) fun _ ↦ .pure ⟨rfl, gathered⟩

theorem compact (inner : entries.Alike loads others items) (keys : Keys) :
    Query.Alike loads others
      (fun compacted twin ↦ compacted.1 = twin.1 ∧ compacted.2.Alike loads others twin.2)
      (keys.compact entries) (keys.compact items) := by
  rw [Keys.compact, Keys.compact]
  refine .read_bind ?_
  rw [inner.isNested_eq]
  refine .ite (.bind (inner.flatten keys) ?_) (inner.shrink keys)
  rintro ⟨keys, flat⟩ ⟨_, twin⟩ ⟨rfl, alike⟩
  exact alike.shrink keys

end Block.Alike

/-! ### Inspections -/

/-- What can be asked of a block without loading. A question that comes with keys is one about the
dictionary block of these keys, and the block that it is asked of are the entries. -/
inductive Inspection where
  /-- A window. -/
  | window (offset length : Nat)
  /-- The positions listed in a stretch, as references to them. -/
  | select (positions : List Nat) (offset length : Nat)
  /-- The positions listed in a stretch, in a new block. -/
  | gather (positions : List Nat) (offset length : Nat)
  /-- An equivalent dictionary block that is compact. -/
  | compact (keys : Keys)
  /-- How many entries are referred to. -/
  | unique (keys : Keys)
  /-- Does the entry referred to grow from each position to the next? -/
  | sequential (keys : Keys)
  /-- Is the dictionary block compact? -/
  | isCompact (keys : Keys)
  /-- Bytes of all positions. -/
  | size
  /-- Bytes if every position had an entry of its own. -/
  | logicalSize
  /-- Bytes of a region. -/
  | regionSize (offset length : Nat)
  /-- Bytes of the positions whose flags are set. -/
  | positionsSize (flags : List Bool)
  /-- Bytes that are kept alive. -/
  | retainedSize
  /-- May some position be null? -/
  | mayHaveNull
  /-- Can positions be gathered? -/
  | supportsGather
  /-- Is everything loaded? -/
  | isLoaded
  /-- The blocks one layer below. -/
  | children
  /-- The dictionary block that the block comes to, if it does. -/
  | resolved

/-- What an inspection answers with. -/
inductive Answer where
  /-- Blocks. -/
  | blocks (blocks : List Block)
  /-- A number. -/
  | number (n : Nat)
  /-- Yes or no. -/
  | flag (yes : Bool)

/-- The answers are the same, up to what is not loaded of the blocks in them. -/
inductive Answer.Alike (loads others : Loads) : Answer → Answer → Prop
  /-- Blocks that are alike, one by one. -/
  | blocks {bs cs : List Block} : List.Forall₂ (Block.Alike loads others) bs cs →
      Alike loads others (.blocks bs) (.blocks cs)
  /-- The same number. -/
  | number (n : Nat) : Alike loads others (.number n) (.number n)
  /-- The same answer. -/
  | flag (yes : Bool) : Alike loads others (.flag yes) (.flag yes)

namespace Inspection

/-- The answer to an inspection. -/
def answer : Inspection → Block → Query Answer
  | window offset length, block => return .blocks [← block.window offset length]
  | select positions offset length, block =>
    return .blocks [← block.select positions offset length]
  | gather positions offset length, block =>
    return .blocks [← block.copyPositions positions offset length]
  | compact keys, entries => do
    let (compacted, others) ← keys.compact entries
    return .blocks [.dictionary compacted others]
  | unique keys, entries => return .number (← keys.stats entries).unique
  | sequential keys, entries => return .flag (← keys.stats entries).sequential
  | isCompact keys, entries => return .flag (← keys.isCompact entries)
  | size, block => return .number (← block.size)
  | logicalSize, block => return .number (← block.logicalSize)
  | regionSize offset length, block => return .number (← block.regionSize offset length)
  | positionsSize flags, block => return .number (← block.positionsSize (← read) flags)
  | retainedSize, block => return .number (block.retainedSize (← read))
  | mayHaveNull, block => return .flag (block.mayHaveNull (← read))
  | supportsGather, block => return .flag (block.supportsGather (← read))
  | isLoaded, block => return .flag (block.isLoaded (← read))
  | children, block => return .blocks (block.children (← read))
  | resolved, block =>
    return .blocks <| (block.resolved? (← read)).toList.map fun (keys, entries) =>
      .dictionary keys entries

/-- Inspects a block, where loading is allowed. -/
def run (inspection : Inspection) (block : Block) : Session Answer :=
  inspection.answer block

/-- **Blocks that are alike answer alike.** -/
theorem answer_alike (inspection : Inspection) {b c : Block} (alike : b.Alike loads others c) :
    Query.Alike loads others (Answer.Alike loads others) (inspection.answer b)
      (inspection.answer c) := by
  cases inspection with
  | window offset length =>
    exact .bind (alike.window offset length) fun _ _ made ↦ .pure (.blocks (.cons made .nil))
  | select positions offset length =>
    exact .bind (alike.select positions offset length) fun _ _ made ↦
      .pure (.blocks (.cons made .nil))
  | gather positions offset length =>
    exact .bind (alike.copyPositions positions offset length) fun _ _ made ↦
      .pure (.blocks (.cons made .nil))
  | compact keys =>
    refine .bind (alike.compact keys) ?_
    rintro ⟨compacted, entries⟩ ⟨_, items⟩ ⟨rfl, inner⟩
    exact .pure (.blocks (.cons (.dictionary compacted inner) .nil))
  | unique keys => exact .same_bind (alike.stats keys) fun stats ↦ .pure (.number stats.unique)
  | sequential keys =>
    exact .same_bind (alike.stats keys) fun stats ↦ .pure (.flag stats.sequential)
  | isCompact keys => exact .same_bind (alike.isCompact keys) fun yes ↦ .pure (.flag yes)
  | size => exact .same_bind (alike.sizeOf .all) fun n ↦ .pure (.number n)
  | logicalSize => exact .same_bind alike.logicalSize fun n ↦ .pure (.number n)
  | regionSize offset length =>
    exact .same_bind (alike.sizeOf (.region offset length)) fun n ↦ .pure (.number n)
  | positionsSize flags =>
    refine .read_bind ?_
    rw [alike.positionsSize_eq]
    exact .same_bind (.attempt (.refl _)) fun n ↦ .pure (.number n)
  | retainedSize => exact .read_bind (.pure (alike.retainedSize_eq ▸ .number _))
  | mayHaveNull => exact .read_bind (.pure (alike.mayHaveNull_eq ▸ .flag _))
  | supportsGather => exact .read_bind (.pure (alike.supportsGather_eq ▸ .flag _))
  | isLoaded => exact .read_bind (.pure (alike.isLoaded_eq ▸ .flag _))
  | children => exact .read_bind (.pure (.blocks alike.children))
  | resolved =>
    refine .read_bind (.pure ?_)
    have found := alike.resolved
    generalize b.resolved? loads = one, c.resolved? others = two at found ⊢
    rcases found with @⟨⟨keys, entries⟩, ⟨_, items⟩, rfl, inner⟩ | -
    · exact .blocks (.cons (.dictionary keys inner) .nil)
    · exact .blocks .nil

/-- **Inspecting never loads.** Whatever is asked of whatever block in whatever store, and whether
it is answered or refused, no loader is called and every lazy block has loaded what it had.

Nor does an inspection get at a payload in another way. If a lazy block that is not loaded promised
another payload, or its loader did something else, or had been called more often, the answer would
be the same, up to the promises in it, and so would the figures that are remembered. -/
theorem loads_nothing (inspection : Inspection) (b : Block) (store : Store) :
    ((inspection.run b).outcome store).2.loads = store.loads ∧
      ∀ (c : Block) (twin : Store), b.Alike store.loads twin.loads c → store.ledger = twin.ledger →
        store.loads.Blank store.ledger → twin.loads.Blank twin.ledger →
        Matched (Answer.Alike store.loads twin.loads) ((inspection.run b).outcome store).1
            ((inspection.run c).outcome twin).1 ∧
          ((inspection.run b).outcome store).2.ledger =
            ((inspection.run c).outcome twin).2.ledger := by
  refine ⟨rfl, fun c twin alike same blank blank' ↦ ?_⟩
  obtain ⟨loads, ledger⟩ := store
  obtain ⟨others, ledger'⟩ := twin
  obtain rfl : ledger = ledger' := same
  obtain ⟨ends, left, -⟩ := inspection.answer_alike alike ledger blank blank'
  exact ⟨ends, left⟩

end Inspection

/-- A window of the promise of three integers is taken as one of another promise, whose loader
has failed twice. -/
theorem World.loads_nothing_deferred :
    let twin : Store := ⟨⟨.empty, [2, 2]⟩, deferred.store.ledger⟩
    let other : Block := .lazy ⟨⟨2, 3, fun _ ↦ some .miscounted⟩, []⟩ sampleEntries
    (((Inspection.window 1 2).run deferredBlock).outcome deferred.store).2.loads =
        deferred.store.loads ∧
      Matched (Answer.Alike deferred.store.loads twin.loads)
        (((Inspection.window 1 2).run deferredBlock).outcome deferred.store).1
        (((Inspection.window 1 2).run other).outcome twin).1 := by
  intro twin other
  obtain ⟨loads, answers⟩ := (Inspection.window 1 2).loads_nothing deferredBlock deferred.store
  have alike : deferredBlock.Alike deferred.store.loads twin.loads other := .unloaded rfl rfl rfl
  exact ⟨loads, (answers other twin alike rfl reachable_deferred.blank fun _ _ ↦ rfl).1⟩

end BatchColumn
