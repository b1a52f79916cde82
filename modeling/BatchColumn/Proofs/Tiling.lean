import BatchColumn.Proofs.Decoding
import BatchColumn.Proofs.Recall

/-!
# Lists tile their elements

The lists of an array block lie side by side among the elements: each starts where the one before it
ends, and a null list takes no room (`Lists.Tiles`). So the members of consecutive lists are
consecutive elements (`Lists.Intact.flatMap_members`, by induction on the number of lists), and the
values read list by list are a stretch of those that the elements answer with.

A list is read through a window of the elements, which may be anything, promises included. Two
things are said of it, as of every reader: an answer is right (`Block.listValues_meets`), and there
is one if the promises in the elements will be kept or the elements are loaded
(`Block.listValues_answers`).

A copy and a gather lay out lists that use all of their elements (`Block.copy_tight`,
`Block.copyPositions_tight`).
-/

namespace BatchColumn

variable {K : Census} {loads : Loads} {store : Store}

/-! ### Spans -/

namespace Lists

/-- The lists lie side by side among `size` elements. -/
structure Tiles (lists : Lists) (size : Nat) : Prop where
  /-- A list ends where the next one starts. -/
  span : ∀ p < lists.count, lists.span p = .ok (lists.start p, lists.start (p + 1))
  /-- No list ends before it starts. -/
  ordered : ∀ p < lists.count, lists.start p ≤ lists.start (p + 1)
  /-- Two lists do not overlap. -/
  apart : ∀ p q, p < q → q < lists.count → lists.start (p + 1) ≤ lists.start q
  /-- Every list lies among the elements. -/
  within : ∀ p ≤ lists.count, lists.start p ≤ size
  /-- A null list is empty. -/
  hollow : ∀ p, lists.isNull p = .ok true → lists.start p = lists.start (p + 1)

namespace Intact

variable {lists : Lists} {size : Nat} (intact : lists.Intact size)

include intact

theorem tiles : lists.Tiles size where
  span _ inside := span_eq_ok inside
  ordered p inside := intact.start_le_start (Nat.le_succ p) inside
  apart _ _ before inside := intact.start_le_start before inside.le
  within _ le := intact.start_le_size le
  hollow p null := by
    rcases Nat.lt_or_ge p lists.count with inside | outside
    · rw [intact.isNull_eq_ok inside] at null
      exact intact.hollow p inside (Except.ok.inj null)
    · rw [isNull_eq_error outside] at null
      cases null

end Intact

end Lists

/-! ### Reading list by list -/

namespace Block

/-- The values of the list at a position. -/
def listValues (block : Block) (position : Nat) : Session (List Value) := do
  (← block.readList position).values

/-- The values of the lists `[offset, offset + length)`, one list after another. -/
def concatValues (block : Block) (offset length : Nat) : Session (List Value) := do
  return (← mapFrom offset length block.listValues).flatten

/-- A block answers with as many values as it has positions. -/
theorem length_of_values (sound : Sound K store.loads store.ledger) {b : Block} (mem : b ∈ K)
    {answers : List Value} (run : (b.values.outcome store).1 = .ok answers) :
    answers.length = b.positionCount := by
  have meets : b.values.Meets K
      (fun _ ↦ List.Forall₂ (fun _ _ ↦ True) (List.range' 0 b.positionCount)) fun _ ↦ True :=
    .mapFrom fun L later i _ _ ↦ (value_reads (Census.mem_of_le later mem) i).mono
      (fun _ _ _ _ ↦ trivial) fun _ _ ↦ trivial
  obtain ⟨_, -, -, ends⟩ := meets store sound
  rw [run] at ends
  exact (List.length_range' ▸ ends.length_eq).symm

theorem listValues_array (lists : Lists) (elements : Block) (position : Nat) :
    (array lists elements).listValues position = (do
      let span ← liftM (lists.span position)
      let list ← liftM (elements.window span.1 (span.2 - span.1))
      list.values) := by
  rw [listValues, readList, reveal, pure_bind, bind_assoc]

section Array

variable {lists : Lists} {elements : Block} (mem : .array lists elements ∈ K) {position : Nat}

include mem

/-- **The values of a list are those of its members.** -/
theorem listValues_meets (inside : position < lists.count) :
    ((array lists elements).listValues position).Meets K
      (fun _ answers ↦
        ((lists.members position).filterMap elements.datum?).map Datum.value = answers)
      (fun _ ↦ ¬ elements.Loadable) := by
  refine .of_sound fun store sound ↦ ?_
  have intact : lists.Intact elements.positionCount := sound.formed _ mem
  have fits := intact.span_le_size (show position + 1 ≤ lists.count from inside)
  rw [listValues_array]
  refine .check_ok_bind (Lists.span_eq_ok inside) ?_
  refine .query_bind (fun loads ↦ (window_meets (sound.elements_mem mem) _ _).refusing
    fun _ beyond ↦ absurd fits beyond) fun L list _ window ↦ ?_
  obtain ⟨there, shows⟩ := window
  refine (values_meets there).mono (fun _ answers _ read ↦ ?_)
    fun _ refused kept ↦ refused (shows.loadable kept)
  rw [← read, shows.count, List.length_range', Lists.members]
  congr 1
  refine filterMap_range'_congr fun j room ↦ ?_
  rw [Nat.zero_add, shows.datum_range' room]

/-- A list of elements that were seen to be loaded throughout is read. -/
theorem listValues_answers (seen : loads.payloads.Grows K.seen)
    (loaded : elements.isLoaded loads = true) (inside : position < lists.count) :
    ((array lists elements).listValues position).Meets K (fun _ _ ↦ True) fun _ ↦ False := by
  refine .of_sound fun store sound ↦ ?_
  have intact : lists.Intact elements.positionCount := sound.formed _ mem
  have fits := intact.span_le_size (show position + 1 ≤ lists.count from inside)
  rw [listValues_array]
  refine .check_ok_bind (Lists.span_eq_ok inside) ?_
  -- The list is a window of elements that are loaded throughout, and so is loaded itself.
  have window : ∀ now, (elements.window (lists.start position)
      (lists.start (position + 1) - lists.start position)).Meets K now
        (fun L list ↦ list ∈ L ∧ list.isLoaded loads = true) (fun _ ↦ False) := by
    refine fun now ↦ .of_sound fun ledger later ↦ ?_
    have throughout : ∀ ledger list after, (elements.window (lists.start position)
        (lists.start (position + 1) - lists.start position)).outcome now ledger =
          (.ok list, after) → list.isLoaded loads = true := by
      intro ledger list after run
      obtain ⟨list, _, run, ⟨⟩⟩ := Query.exists_of_outcome_bind run
      exact isLoaded_of_windowWithin loaded (seen.trans later.delivered.past) run
    exact ((window_meets (sound.elements_mem mem) _ _).telling throughout).mono
      (fun _ _ _ made ↦ ⟨made.1.1, made.2⟩) fun _ beyond ↦ absurd fits beyond
  refine .query_bind window fun L list le made ↦ ?_
  obtain ⟨there, throughout⟩ := made
  refine (Session.Meets.mapFrom (R := fun _ _ ↦ True) fun M since i _ room ↦ ?_).mono
    (fun _ _ _ _ ↦ trivial) fun _ ↦ id
  exact value_answers (Census.mem_of_le since there)
    (seen.trans (Census.le_trans le since).seen) throughout (by omega)

variable {offset length : Nat} (fits : offset + length ≤ lists.count)

include fits

/-- **Values read list by list are those of a stretch of the elements.** -/
theorem concatValues_meets :
    ((array lists elements).concatValues offset length).Meets K
      (fun _ answers ↦ ((List.range' (lists.start offset)
        (lists.start (offset + length) - lists.start offset)).filterMap elements.datum?).map
          Datum.value = answers)
      (fun _ ↦ ¬ elements.Loadable) := by
  refine .of_sound fun store sound ↦ ?_
  have intact : lists.Intact elements.positionCount := sound.formed _ mem
  refine .bind (.mapFrom fun L later i _ room ↦
    listValues_meets (Census.mem_of_le later mem) (by omega)) fun L answers _ each ↦ .pure ?_
  have answers_eq : (List.range' offset length).map (fun position ↦
      ((lists.members position).filterMap elements.datum?).map Datum.value) = answers := by
    rw [← List.forall₂_eq_eq_eq]
    exact List.forall₂_map_left_iff.2 each
  rw [← intact.flatMap_members fits, List.filterMap_flatMap, List.map_flatMap, ← answers_eq,
    ← List.flatMap_def]

/-- The answer is a stretch of the values of the elements. -/
theorem concatValues_eq (sound : Sound K store.loads store.ledger) {data : List Datum}
    (held : ∀ i, elements.datum? i = data[i]?) {answers : List Value}
    (run : (((array lists elements).concatValues offset length).outcome store).1 = .ok answers) :
    answers = stretch (data.map Datum.value) (lists.start offset)
      (lists.start (offset + length) - lists.start offset) := by
  obtain ⟨_, -, -, ends⟩ := concatValues_meets mem fits store sound
  rw [run] at ends
  have bare : elements.datum? = fun i ↦ data[i]?.bind some := by
    funext i
    rw [held, Option.bind_fun_some]
  have items := filterMap_range'_listed some data (lists.start offset)
    (lists.start (offset + length) - lists.start offset)
  rw [← bare, List.filterMap_some] at items
  rw [← show _ = answers from ends, items, stretch, stretch, List.map_take, List.map_drop]

/-- There is an answer if the promises in the elements will be kept, or have been. -/
theorem exists_concatValues (sound : Sound K store.loads store.ledger)
    (kept : elements.Loadable ∨ elements.isLoaded store.loads = true) :
    ∃ answers,
      (((array lists elements).concatValues offset length).outcome store).1 = .ok answers := by
  rcases kept with kept | loaded
  · obtain ⟨answers, _, run⟩ :=
      (concatValues_meets mem fits).exists_answer sound fun _ ↦ not_not.2 kept
    exact ⟨answers, congrArg Prod.fst run⟩
  · have meets : ((array lists elements).concatValues offset length).Meets (K.note store.loads)
        (fun _ _ ↦ True) fun _ ↦ False :=
      .bind (.mapFrom (R := fun _ _ ↦ True) fun L later i _ room ↦
        listValues_answers (Census.mem_of_le later mem) later.seen loaded (by omega))
        fun _ _ _ _ ↦ .pure trivial
    obtain ⟨answers, _, run⟩ := meets.exists_answer sound.note fun _ ↦ id
    exact ⟨answers, congrArg Prod.fst run⟩

end Array

/-! ### Lists laid out anew -/

section Copies

variable {lists : Lists} {elements : Block} (mem : .array lists elements ∈ K) {offset length : Nat}

/-- Lists are gathered into lists. -/
theorem exists_of_copyPositions_array {positions : List Nat} {c : Block} {ledger after : Ledger}
    (run : ((array lists elements).copyPositions positions offset length).outcome loads ledger =
      (.ok c, after)) : ∃ gathered others, c = array gathered others := by
  obtain ⟨_, _, -, run⟩ := Query.exists_of_outcome_bind run
  rw [gather] at run
  obtain ⟨_, _, ⟨⟩, run⟩ := Query.exists_of_outcome_bind run
  rw [face?] at run
  obtain ⟨spans, _, -, run⟩ := Query.exists_of_outcome_bind run
  obtain ⟨offsets, _, -, run⟩ := Query.exists_of_outcome_bind run
  obtain ⟨_, _, -, run⟩ := Query.exists_of_outcome_bind run
  dsimp only at run
  split at run
  · obtain ⟨_, _, ⟨⟩, -⟩ := Query.exists_of_outcome_bind run
  · obtain ⟨others, _, -, run⟩ := Query.exists_of_outcome_bind run
    obtain ⟨flags, _, -, run⟩ := Query.exists_of_outcome_bind run
    obtain ⟨storage, _, -, run⟩ := Query.exists_of_outcome_bind run
    obtain ⟨handle, _, -, run⟩ := Query.exists_of_outcome_bind run
    obtain ⟨memory, _, -, ⟨⟩⟩ := Query.exists_of_outcome_bind run
    exact ⟨_, others, rfl⟩

include mem

/-- **A copy of lists uses all of its elements.** -/
theorem copy_tight : ((array lists elements).copy offset length).Meets K
    (fun _ c ↦ (∃ copied others, c = array copied others ∧ copied.Tight others.positionCount) ∧
      (elements.Loadable → c.Loadable))
    (fun _ ↦ True) := by
  refine .of_sound fun store sound ↦ ?_
  have intact : lists.Intact elements.positionCount := sound.formed _ mem
  rw [copy, reveal, pure_bind]
  refine .check_bind (fun span run ↦ ?_) fun _ _ ↦ trivial
  obtain ⟨fits, rfl⟩ := Lists.of_cut_eq_ok run
  refine .bind ((copy_meets (sound.elements_mem mem) _ _).refusing fun _ _ ↦ trivial)
    fun L others le copied ↦ ?_
  have stored := ((sound.stored _ mem).mono le.issued).issued
  refine .query_bind (fun loads ↦ (Lists.copy_meets intact stored copied.mem fits
    copied.shows).refusing fun _ _ ↦ trivial) fun M lists _ made ↦ .pure ?_
  obtain ⟨-, shows, tight⟩ := made
  exact ⟨⟨lists, others, rfl, tight⟩, shows.loadable⟩

/-- **Lists that are gathered use all of their elements.** -/
theorem copyPositions_tight (positions : List Nat) :
    ((array lists elements).copyPositions positions offset length).Meets K loads
      (fun _ c ↦ (∃ gathered others, c = array gathered others ∧
        gathered.Tight others.positionCount) ∧ (elements.Loadable → c.Loadable))
      (fun _ ↦ True) := by
  have lists_made : ∀ ledger c after,
      ((array lists elements).copyPositions positions offset length).outcome loads ledger =
        (.ok c, after) → ∃ gathered others, c = array gathered others :=
    fun _ _ _ ↦ exists_of_copyPositions_array
  refine ((copyPositions_owns mem positions offset length).telling lists_made).mono
    (fun _ c _ made ↦ ?_) fun _ _ ↦ trivial
  obtain ⟨⟨made, owned⟩, gathered, others, rfl⟩ := made
  exact ⟨⟨gathered, others, rfl, (owned loads _ .refl).tight⟩, made.shows.loadable⟩

end Copies

end Block

/-! ### In reachable worlds -/

/-- How the lists over some elements read in a world. -/
structure Lists.ReadTiled (lists : Lists) (elements : Block) (w : World) : Prop where
  /-- The lists lie side by side among the elements. -/
  tiles : lists.Tiles elements.positionCount
  /-- Wherever the lists answer, one after another, and wherever the elements do, the answer is the
  stretch of the elements from the start of the first list to the end of the last one. -/
  agrees : ∀ offset length, offset + length ≤ lists.count → ∀ all answers,
    elements.MayAnswer elements.values all →
    (Block.array lists elements).MayAnswer
      ((Block.array lists elements).concatValues offset length) answers →
    answers = stretch all (lists.start offset)
      (lists.start (offset + length) - lists.start offset)
  /-- Both answer if the elements are loaded, or will be. A null list brings nothing. -/
  answers : elements.Loadable ∨ elements.isLoaded w.store.loads = true →
    ∃ all, (elements.values.outcome w.store).1 = .ok all ∧ all.length = elements.positionCount ∧
      (∀ offset length, offset + length ≤ lists.count →
        (((Block.array lists elements).concatValues offset length).outcome w.store).1 =
          .ok (stretch all (lists.start offset)
            (lists.start (offset + length) - lists.start offset))) ∧
      ∀ p, lists.isNull p = .ok true →
        (((Block.array lists elements).concatValues p 1).outcome w.store).1 = .ok []

theorem Reachable.readTiled {w : World} (reachable : Reachable w) {lists : Lists}
    {elements : Block} (held : .array lists elements ∈ w.blocks) :
    lists.ReadTiled elements w := by
  obtain ⟨K, sound, known⟩ := reachable.sound
  have mem := known _ held
  have intact : lists.Intact elements.positionCount := sound.formed _ mem
  refine ⟨intact.tiles, fun offset length fits all answers read ⟨later, reached, there, run⟩ ↦ ?_,
    fun kept ↦ ?_⟩
  · obtain ⟨data, held, rfl⟩ := read.exists_data
    obtain ⟨L, sound, known⟩ := reached.sound
    exact Block.concatValues_eq (known _ there) fits sound held run
  · have present := sound.elements_mem mem
    obtain ⟨all, read⟩ := Block.exists_values sound present kept
    obtain ⟨data, held, rfl⟩ := Block.exists_data_of_values sound present read
    have concat : ∀ offset length, offset + length ≤ lists.count →
        (((Block.array lists elements).concatValues offset length).outcome w.store).1 =
          .ok (stretch (data.map Datum.value) (lists.start offset)
            (lists.start (offset + length) - lists.start offset)) := fun offset length fits ↦ by
      obtain ⟨answers, run⟩ := Block.exists_concatValues mem fits sound kept
      rw [run, Block.concatValues_eq mem fits sound held run]
    refine ⟨_, read, Block.length_of_values sound present read, concat, fun p null ↦ ?_⟩
    have inside : p < lists.count := by
      by_contra outside
      rw [Lists.isNull_eq_error (Nat.le_of_not_lt outside)] at null
      cases null
    rw [concat p 1 inside, ← intact.tiles.hollow p null, Nat.sub_self, stretch, List.take_zero]

/-- A block made of lists uses all of its elements, and reads as it does. -/
def Block.ReadWhole (c : Block) (w : World) : Prop :=
  ∃ lists elements, c = .array lists elements ∧ lists.ReadTiled elements w ∧
    lists.start 0 = 0 ∧ lists.start lists.count = elements.positionCount ∧
    (elements.Loadable ∨ elements.isLoaded w.store.loads = true →
      ∃ all, (elements.values.outcome w.store).1 = .ok all ∧
        ((c.concatValues 0 lists.count).outcome w.store).1 = .ok all)

theorem Reachable.readWhole {w : World} (reachable : Reachable w) {lists : Lists}
    {elements : Block} (held : .array lists elements ∈ w.blocks)
    (tight : lists.Tight elements.positionCount) :
    (Block.array lists elements).ReadWhole w := by
  have tiled := reachable.readTiled held
  refine ⟨lists, elements, rfl, tiled, tight.first, tight.last, fun kept ↦ ?_⟩
  obtain ⟨all, read, size, concat, -⟩ := tiled.answers kept
  refine ⟨all, read, ?_⟩
  rw [concat 0 lists.count (Nat.zero_add _).le, tight.first, Nat.zero_add, tight.last, ← size,
    Nat.sub_zero, stretch, List.drop_zero, List.take_length]

/-- **Lists tile their elements**: consecutive lists are adjacent, and read one after another they
give the elements from the start of the first to the end of the last one. Of a copy and of what is
gathered these are all of the elements. -/
theorem Reachable.lists_tile {w : World} (reachable : Reachable w) {lists : Lists}
    {elements : Block} (held : .array lists elements ∈ w.blocks) :
    lists.ReadTiled elements w ∧
    (∀ offset length c store,
      ((Block.array lists elements).copy offset length).outcome w.store = (.ok c, store) →
        Reachable ⟨store, c :: w.blocks⟩ ∧ c.ReadWhole ⟨store, c :: w.blocks⟩ ∧
          (elements.Loadable → c.Loadable)) ∧
    ∀ positions offset length c ledger,
      ((Block.array lists elements).copyPositions positions offset length).outcome w.store.loads
          w.store.ledger = (.ok c, ledger) →
        Reachable ⟨{ w.store with ledger := ledger }, c :: w.blocks⟩ ∧
          c.ReadWhole ⟨{ w.store with ledger := ledger }, c :: w.blocks⟩ ∧
            (elements.Loadable → c.Loadable) := by
  obtain ⟨K, sound, known⟩ := reachable.sound
  have mem := known _ held
  refine ⟨reachable.readTiled held, fun offset length c store run ↦ ?_,
    fun positions offset length c ledger run ↦ ?_⟩
  · have next := reachable.of_outcome (.copy _ offset length)
      (by simpa [Call.operands] using held) trivial (Session.outcome_one run)
    obtain ⟨_, -, -, ends⟩ := Block.copy_tight mem w.store sound
    rw [run] at ends
    obtain ⟨⟨copied, others, rfl, tight⟩, kept⟩ := ends
    exact ⟨next, next.readWhole List.mem_cons_self tight, kept⟩
  · have next := reachable.of_outcome (.gather _ positions offset length)
      (by simpa [Call.operands] using held) trivial
      (Session.outcome_one (Session.outcome_query run))
    obtain ⟨-, _, -, -, ends⟩ := Block.copyPositions_tight mem positions w.store.ledger sound
    rw [run] at ends
    obtain ⟨⟨gathered, others, rfl, tight⟩, kept⟩ := ends
    exact ⟨next, next.readWhole List.mem_cons_self tight, kept⟩

/-- The second list of the sample is promised. It reads as the last two of three values, and what is
copied of it reads as all of its elements. -/
theorem World.lists_tile_listed :
    (∃ a b c, (deferredBlock.values.outcome listed.store).1 = .ok [a, b, c] ∧
      (((Block.array deferredLists deferredBlock).concatValues 1 1).outcome listed.store).1 =
        .ok [b, c]) ∧
    ∃ c store, ((Block.array deferredLists deferredBlock).copy 1 1).outcome listed.store =
      (.ok c, store) ∧ c.ReadWhole ⟨store, c :: listed.blocks⟩ := by
  have held : .array deferredLists deferredBlock ∈ listed.blocks := by simp [blocks_listed]
  obtain ⟨tiled, copies, -⟩ := Reachable.lists_tile reachable_listed held
  refine ⟨?_, ?_⟩
  · obtain ⟨all, read, size, concat, -⟩ := tiled.answers (.inl loadable_deferredBlock)
    obtain ⟨a, b, c, rfl⟩ := List.length_eq_three.1 size
    exact ⟨a, b, c, read, concat 1 1 (by decide)⟩
  · obtain ⟨c, store, run, -⟩ : ∃ c store,
        ((Block.array deferredLists deferredBlock).copy 1 1).outcome listed.store =
          (.ok c, store) ∧ (c.positionCount == 1) = true := exists_eq_ok_of_any (by cbv)
    exact ⟨c, store, run, (copies 1 1 c store run).2.1⟩

end BatchColumn
