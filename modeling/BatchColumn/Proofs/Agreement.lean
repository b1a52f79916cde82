import BatchColumn.Proofs.Worlds
import Mathlib

/-!
# What a block presents, in every world that has it

Reading a position has six answers: whether it is null, its value, its data size, the integer, the
byte string and the length of the byte string stored there. `Block.ReadsAs` says that in a store
they are all those of one datum, refusals included, and `Block.Presents` that the positions of a
block read as the data of a list **in every reachable world that holds the block**, whatever is
loaded and remembered there. A block whose promises will be kept presents the data that its
positions hold (`Block.presents_of_datum`).

The results of the three operations that make new arrays are stated in these terms:

* a copy presents the stretch of the data that was asked for, as a window does
  (`Block.copy_presents`);
* a gather presents the data at the positions (`Block.gather_presents`);
* compacting succeeds on small blocks if what is gathered fits together, keeps the data, and keeps
  or gathers the bottom of the chain of dictionaries, as the landings of the ids decide
  (`Keys.compact_presents`).
-/

namespace BatchColumn

/-! ### Reading as a datum -/

/-- All that reading answers at a position of a block is what a datum says. -/
structure Block.ReadsAs (store : Store) (b : Block) (position : Nat) (datum : Datum) : Prop where
  /-- Whether it is null. -/
  isNull : ((b.isNull position).outcome store).1 = .ok datum.isNull
  /-- Its value. -/
  value : ((b.value position).outcome store).1 = .ok datum.value
  /-- Its bytes of data, if they are a word. -/
  dataSize : ((b.dataSize position).outcome store).1 = checkSize datum.dataSize
  /-- The integer stored, at every width. -/
  readInt : ∀ width, ((b.readInt width position).outcome store).1 = liftM (datum.readInt width)
  /-- The byte string stored. -/
  readSlice : ((b.readSlice position).outcome store).1 = liftM datum.readSlice
  /-- How long the byte string stored is. -/
  sliceLength : ((b.sliceLength position).outcome store).1 = liftM datum.sliceLength

/-- In every reachable world that holds the block, its positions read as the data. -/
structure Block.Presents (b : Block) (data : List Datum) : Prop where
  /-- There is one position for each datum. -/
  count : b.positionCount = data.length
  /-- It reads as the datum. -/
  reads : ∀ w, Reachable w → b ∈ w.blocks → ∀ i datum, data[i]? = some datum →
    b.ReadsAs w.store i datum

/-- In a sound store a reader answers as the datum does. -/
theorem Session.Reads.outcome_eq {α : Type} {session : Session α} {K : Census} {b : Block}
    {position : Nat} {answer : Datum → Except Fault α} (reads : session.Reads K b position answer)
    {store : Store} (sound : Sound K store.loads store.ledger) (kept : b.Loadable) {datum : Datum}
    (found : b.datum? position = some datum) : (session.outcome store).1 = answer datum := by
  obtain ⟨L, -, -, ends⟩ := reads store sound
  rcases run : (session.outcome store).1 with fault | a
  · rw [run] at ends
    exact (ends kept datum found).symm
  · rw [run] at ends
    obtain ⟨other, same, reply⟩ := ends
    rw [← Option.some.inj (same.symm.trans found), reply]

/-- A block that will be loaded presents the data that its positions hold. -/
theorem Block.presents_of_datum {b : Block} {data : List Datum} (kept : b.Loadable)
    (count : b.positionCount = data.length) (datum : ∀ i, b.datum? i = data[i]?) :
    b.Presents data := by
  refine ⟨count, fun w reachable held i d listed ↦ ?_⟩
  obtain ⟨K, sound, known⟩ := reachable.sound
  have mem := known b held
  have found := (datum i).trans listed
  exact ⟨(isNull_reads mem i).outcome_eq sound kept found,
    (value_reads mem i).outcome_eq sound kept found,
    (dataSize_reads mem i).outcome_eq sound kept found,
    fun width ↦ (readInt_reads mem i width).outcome_eq sound kept found,
    (readSlice_reads mem i).outcome_eq sound kept found,
    (sliceLength_reads mem i).outcome_eq sound kept found⟩

/-- Data that are held at all positions are a list. -/
theorem Block.exists_data_of_datum {b : Block}
    (each : ∀ i < b.positionCount, ∃ datum, b.datum? i = some datum) :
    ∃ data : List Datum, b.positionCount = data.length ∧ ∀ i, b.datum? i = data[i]? := by
  obtain ⟨data, size, found⟩ := exists_getElem?_eq_bind
    fun i (inside : i ∈ List.range b.positionCount) ↦ each i (List.mem_range.1 inside)
  rw [List.length_range] at size
  refine ⟨data, size.symm, fun i ↦ ?_⟩
  rcases Nat.lt_or_ge i b.positionCount with inside | outside
  · rw [found, List.getElem?_range inside, Option.bind_some]
  · rw [Block.datum?_of_le outside, List.getElem?_eq_none (size ▸ outside)]

/-- **A block that will be loaded holds a datum at every position.** -/
theorem Reachable.exists_data {w : World} (reachable : Reachable w) {b : Block}
    (held : b ∈ w.blocks) (kept : b.Loadable) :
    ∃ data : List Datum, b.positionCount = data.length ∧ ∀ i, b.datum? i = data[i]? := by
  obtain ⟨K, sound, known⟩ := reachable.sound
  exact Block.exists_data_of_datum fun i inside ↦ sound.exists_datum (known b held) kept inside

/-- What shows some positions of a block presents the data there. -/
theorem Block.Shows.presents {b c : Block} {positions : List Nat} {data shown : List Datum}
    (shows : c.Shows b positions) (kept : b.Loadable) (datum : ∀ i, b.datum? i = data[i]?)
    (count : shown.length = positions.length)
    (each : ∀ i : Nat, shown[i]? = positions[i]?.bind (data[·]?)) : c.Presents shown := by
  refine presents_of_datum (shows.loadable kept) (shows.count.trans count.symm) fun i ↦ ?_
  rw [shows.datum, each, funext datum]

/-! ### Results in later worlds -/

/-- A block that a call answers with is held in the next world. -/
theorem Reachable.of_outcome {w : World} (reachable : Reachable w) (call : Call)
    (held : ∀ b ∈ call.operands, b ∈ w.blocks) (fits : call.Fits) {b : Block} {store : Store}
    (run : call.run.outcome w.store = (.ok [b], store)) : Reachable ⟨store, b :: w.blocks⟩ :=
  World.after_of_outcome run ▸ reachable.after held fits

/-- A session that answers with one block. -/
theorem Session.outcome_one {session : Session Block} {store later : Store} {b : Block}
    (run : session.outcome store = (.ok b, later)) :
    (do return [← session] : Session (List Block)).outcome store = (.ok [b], later) := by
  rw [Session.outcome_bind_of_ok run]
  rfl

/-! ### Copies and windows -/

/-- **A copy that answers presents the data copied**, and so does a window. What is loaded and
remembered decides how the copy is made, and whether it answers, but not what it presents. -/
theorem Block.copy_presents {w₀ : World} (reachable : Reachable w₀) {b : Block}
    (held : b ∈ w₀.blocks) (kept : b.Loadable) {offset length : Nat}
    (fits : offset + length ≤ b.positionCount) :
    ∃ data, b.Presents data ∧ ∀ w, Reachable w → b ∈ w.blocks →
      (∀ c store, (b.copy offset length).outcome w.store = (.ok c, store) →
        Reachable ⟨store, c :: w.blocks⟩ ∧ c.positionCount = length ∧
          c.Presents (stretch data offset length)) ∧
      ∃ r ledger, (b.window offset length).outcome w.store.loads w.store.ledger =
          (.ok r, ledger) ∧
        Reachable ⟨{ w.store with ledger := ledger }, r :: w.blocks⟩ ∧
          r.positionCount = length ∧ r.Presents (stretch data offset length) := by
  obtain ⟨data, count, datum⟩ := reachable.exists_data held kept
  have presents : ∀ c : Block, c.Shows b (List.range' offset length) →
      c.positionCount = length ∧ c.Presents (stretch data offset length) := fun c shows ↦
    ⟨shows.count.trans List.length_range', shows.presents kept datum
      ((length_stretch (count ▸ fits)).trans List.length_range'.symm)
      (getElem?_stretch_eq_bind data offset length)⟩
  refine ⟨data, presents_of_datum kept count datum,
    fun w reachable held ↦ ⟨fun c store run ↦ ?_, ?_⟩⟩
  · obtain ⟨K, sound, known⟩ := reachable.sound
    obtain ⟨L, _, _, ends⟩ := copy_meets (known b held) offset length w.store sound
    rw [run] at ends
    exact ⟨reachable.of_outcome (.copy b offset length) (by simpa [Call.operands] using held)
      trivial (Session.outcome_one run), presents c ends.2⟩
  · obtain ⟨K, sound, known⟩ := reachable.sound
    obtain ⟨_, L, _, _, ends⟩ :=
      window_meets (known b held) offset length w.store.ledger sound
    rcases run : (b.window offset length).outcome w.store.loads w.store.ledger with ⟨result, ledger⟩
    rw [run] at ends
    rcases result with fault | r
    · exact absurd fits ends
    · exact ⟨r, ledger, rfl, reachable.of_outcome (.window b offset length)
        (by simpa [Call.operands] using held) trivial
        (Session.outcome_one (Session.outcome_query run)), presents r ends.2⟩

namespace World

/-- The world in which the referred integers were loaded, and the keys counted. -/
def counted : World :=
  (referred.after (.load ⟨⟨2, 3, fun _ ↦ none⟩, []⟩ deferredLeaf)).after
    (.ask (.stats deferredKeys deferredBlock))

theorem blocks_counted : counted.blocks = deferredLeaf :: referred.blocks := by
  cbv

theorem reachable_counted : Reachable counted := by
  refine Reachable.after (reachable_referred.after ?_ trivial) (fun b mem ↦ ?_) trivial
  · simp [Call.operands, blocks_referred, deferredBlock]
  · obtain rfl := List.mem_singleton.1 mem
    exact World.mem_after (by simp [blocks_referred]) _

/-- Two keys are copied as keys to the promise while it is not loaded, and as integers once it is
loaded and the keys are known to be distinct. Both copies present the same data. -/
theorem copy_counted : ∃ data c before d after,
    (Block.dictionary deferredKeys deferredBlock).Presents data ∧
    ((Block.dictionary deferredKeys deferredBlock).copy 1 2).outcome referred.store =
      (.ok c, before) ∧ c.isNested referred.store.loads = true ∧
    ((Block.dictionary deferredKeys deferredBlock).copy 1 2).outcome counted.store =
      (.ok d, after) ∧ d.isNested counted.store.loads = false ∧
    c.Presents (stretch data 1 2) ∧ d.Presents (stretch data 1 2) := by
  have held : .dictionary deferredKeys deferredBlock ∈ referred.blocks := by
    simp [blocks_referred]
  have still : .dictionary deferredKeys deferredBlock ∈ counted.blocks := by
    simp [blocks_counted, blocks_referred]
  obtain ⟨data, presents, copies⟩ := Block.copy_presents reachable_referred held
    loadable_deferredBlock (show 1 + 2 ≤ deferredKeys.count by decide)
  obtain ⟨c, before, early, keyed⟩ : ∃ c before,
      ((Block.dictionary deferredKeys deferredBlock).copy 1 2).outcome referred.store =
        (.ok c, before) ∧ c.isNested referred.store.loads = true := exists_eq_ok_of_any (by cbv)
  obtain ⟨d, after, late, bare⟩ : ∃ d after,
      ((Block.dictionary deferredKeys deferredBlock).copy 1 2).outcome counted.store =
        (.ok d, after) ∧ (!d.isNested counted.store.loads) = true := exists_eq_ok_of_any (by cbv)
  obtain ⟨-, -, copied⟩ := (copies referred reachable_referred held).1 c before early
  obtain ⟨-, -, gathered⟩ := (copies counted reachable_counted still).1 d after late
  exact ⟨data, c, before, d, after, presents, early, keyed, late, by simpa using bare, copied,
    gathered⟩

end World

/-! ### Gathers -/

/-- **A gather that answers presents the data at the positions**, repeated and ordered as they are,
nulls with what is stored under them. The list is the same whatever is loaded or remembered. -/
theorem Block.gather_presents {w₀ : World} (reachable : Reachable w₀) {b : Block}
    (held : b ∈ w₀.blocks) (kept : b.Loadable) {positions : List Nat} {offset length : Nat}
    (fits : offset + length ≤ positions.length)
    (inside : ∀ position ∈ stretch positions offset length, position < b.positionCount) :
    ∃ data gathered, b.Presents data ∧ gathered.length = length ∧
      (∀ i < length, gathered[i]? = positions[offset + i]?.bind (data[·]?)) ∧
      ∀ w, Reachable w → b ∈ w.blocks → ∀ c ledger,
        (b.copyPositions positions offset length).outcome w.store.loads w.store.ledger =
            (.ok c, ledger) →
          Reachable ⟨{ w.store with ledger := ledger }, c :: w.blocks⟩ ∧
            c.positionCount = length ∧ c.Presents gathered := by
  obtain ⟨data, count, datum⟩ := reachable.exists_data held kept
  obtain ⟨gathered, size, each⟩ := exists_getElem?_eq_bind fun position mem ↦
    (⟨_, List.getElem?_eq_getElem (count ▸ inside position mem)⟩ : ∃ d, data[position]? = some d)
  have all := length_stretch fits
  refine ⟨data, gathered, presents_of_datum kept count datum, size.trans all, fun i room ↦ ?_,
    fun w reachable held c ledger run ↦ ?_⟩
  · rw [each, getElem?_stretch, if_pos room]
  · obtain ⟨K, sound, known⟩ := reachable.sound
    obtain ⟨_, L, _, _, ends⟩ :=
      copyPositions_meets (known b held) positions offset length w.store.ledger sound
    rw [run] at ends
    exact ⟨reachable.of_outcome (.gather b positions offset length)
        (by simpa [Call.operands] using held) trivial
        (Session.outcome_one (Session.outcome_query run)),
      ends.shows.count.trans all, ends.shows.presents kept datum size each⟩

/-- Three positions of the dictionary block of the sample are gathered, two of which have the same
key. The entries are gathered once each and in the order of first reference, and the keys are
renumbered; what is presented are the data at the positions. -/
theorem World.gather_sample : ∃ c ledger data gathered,
    ((Block.dictionary sampleKeys sampleEntries).copyPositions [1, 0, 2, 1] 1 3).outcome
        sample.store.loads sample.store.ledger = (.ok c, ledger) ∧
      (c.resolved? sample.store.loads).map (·.1.toList) = some [0, 0, 1] ∧
      (Block.dictionary sampleKeys sampleEntries).Presents data ∧ c.Presents gathered ∧
      gathered[0]? = data[0]? ∧ gathered[1]? = data[2]? ∧ gathered[2]? = data[1]? := by
  have held : .dictionary sampleKeys sampleEntries ∈ sample.blocks := by simp [blocks_sample]
  obtain ⟨data, gathered, presents, -, each, gathers⟩ :=
    Block.gather_presents reachable_sample held trivial
      (show 1 + 3 ≤ [1, 0, 2, 1].length by decide) (by decide)
  obtain ⟨c, ledger, run, renumbered⟩ : ∃ c ledger,
      ((Block.dictionary sampleKeys sampleEntries).copyPositions [1, 0, 2, 1] 1 3).outcome
        sample.store.loads sample.store.ledger = (.ok c, ledger) ∧
      ((c.resolved? sample.store.loads).map (·.1.toList) == some [0, 0, 1]) = true :=
    exists_eq_ok_of_any (by cbv)
  obtain ⟨-, -, shown⟩ := gathers sample reachable_sample held c ledger run
  exact ⟨c, ledger, data, gathered, run, beq_iff_eq.1 renumbered, presents, shown,
    each 0 (by decide), each 1 (by decide), each 2 (by decide)⟩

/-! ### Compacted dictionary blocks -/

/-- What compacting comes to, if the ids land on the positions `flat` of the `bottom`. -/
structure Keys.CompactsTo (loads : Loads) (ledger : Ledger) (bottom : Nat × Block) (flat : List Nat)
    (out : Keys × Block) : Prop where
  /-- A bottom that is landed on everywhere is kept, with its handle. -/
  whole : (∀ position < bottom.2.positionCount, position ∈ flat) →
    (out.1.handle, out.2) = bottom ∧ out.1.toList = flat
  /-- Another bottom is gathered where it is landed on, once and in the order of first landing, and
  every id is the index of its landing. -/
  part : (¬ ∀ position < bottom.2.positionCount, position ∈ flat) →
    bottom.2.supportsGather loads = true →
      (∃ before later, ledger.Grows before ∧
        (bottom.2.gather flat.eraseDups).outcome loads before = (.ok out.2, later)) ∧
      out.2.Shows bottom.2 flat.eraseDups ∧
        out.1.toList = flat.map fun position ↦ flat.eraseDups.idxOf position
  /-- A bottom that cannot be gathered is kept as well. -/
  unable : (¬ ∀ position < bottom.2.positionCount, position ∈ flat) →
    bottom.2.supportsGather loads = false →
      (out.1.handle, out.2) = bottom ∧ out.1.toList = flat

/-- **Compacting a small dictionary block succeeds and keeps the data**, at any nesting and in every
reachable world, if what is gathered of the bottom fits together. -/
theorem Keys.compact_presents {w : World} (reachable : Reachable w) {keys : Keys} {entries : Block}
    (held : .dictionary keys entries ∈ w.blocks)
    (kept : (Block.dictionary keys entries).Loadable)
    (small : (Block.dictionary keys entries).Small w.store.loads)
    (fits : keys.FitsCompacted w.store.loads entries) :
    ∃ compacted others ledger data flat,
      (keys.compact entries).outcome w.store.loads w.store.ledger =
          (.ok (compacted, others), ledger) ∧
        Reachable ⟨{ w.store with ledger := ledger }, .dictionary compacted others :: w.blocks⟩ ∧
        compacted.count = keys.count ∧
        (Block.dictionary keys entries).Presents data ∧
        (Block.dictionary compacted others).Presents data ∧
        flat.length = keys.count ∧
        (∀ p : Nat, flat[p]? = keys.toList[p]?.bind (entries.landing w.store.loads)) ∧
        CompactsTo w.store.loads w.store.ledger (entries.bottom w.store.loads keys.handle) flat
          (compacted, others) := by
  obtain ⟨K, sound, known⟩ := reachable.sound
  have mem := known _ held
  obtain ⟨data, count, datum⟩ := reachable.exists_data held kept
  obtain ⟨_, L, _, after, ends⟩ := compact_meets mem w.store.ledger sound
  rcases run : (keys.compact entries).outcome w.store.loads w.store.ledger with ⟨result, ledger⟩
  rw [run] at after ends
  rcases result with fault | out
  · exact absurd fits (ends small.entries).2
  · obtain ⟨there, mirrors, ⟨flat, bottom⟩, flattened, shrunk⟩ := ends
    have size : flat.count = keys.count := flattened.mirrors.count
    have low : ∀ id ∈ flat.toList, id < bottom.positionCount := after.formed _ flattened.mem
    -- There are as many distinct landings as positions just if all positions are landed on.
    have whole : flat.toList.eraseDups.length = bottom.positionCount ↔
        ∀ position < bottom.positionCount, position ∈ flat.toList :=
      ⟨fun all _ room ↦ mem_of_length_eraseDups low all room, length_eraseDups_of_covers low⟩
    refine ⟨out.1, out.2, ledger, data, flat.toList, rfl, ?_, mirrors.count,
      Block.presents_of_datum kept count datum, ?_, flat.length_toList.trans size,
      flattened.lands, ?_⟩
    · exact reachable.of_outcome (.compact keys entries) (by simpa [Call.operands] using held)
        trivial (Session.outcome_bind_of_ok (Session.outcome_query run))
    · exact Block.presents_of_datum (mirrors.loadable kept) (mirrors.count.trans count)
        fun i ↦ mirrors.datum ▸ datum i
    · rw [← flattened.bottom]
      refine ⟨fun all ↦ shrunk.kept (.inl (whole.2 all)), fun some able ↦ ?_,
        fun _ unable ↦ shrunk.kept (.inr unable)⟩
      have part := mt whole.1 some
      obtain ⟨shows, renumbered⟩ := shrunk.gathered part able
      refine ⟨?_, shows, renumbered⟩
      have bottoms := flattened.bottom
      simpa only [← bottoms] using
        compact_gathers sound mem flattened.lands (by rwa [← bottoms]) (by rwa [← bottoms]) run

/-- The dictionary block of the sample is compacted. -/
theorem World.compact_sample : ∃ compacted others ledger,
    (sampleKeys.compact sampleEntries).outcome sample.store.loads sample.store.ledger =
        (.ok (compacted, others), ledger) ∧
      compacted.count = 3 ∧ ∃ data, (Block.dictionary sampleKeys sampleEntries).Presents data ∧
        (Block.dictionary compacted others).Presents data := by
  have small : (Block.dictionary sampleKeys sampleEntries).Small sample.store.loads := by
    intro c part
    rcases part with - | - | part
    · decide
    · cases part
      decide
  have fits : sampleKeys.FitsCompacted sample.store.loads sampleEntries := by
    simp [Keys.FitsCompacted, Block.FitsShrunk, sampleEntries, Block.bottom, Block.face?]
  obtain ⟨compacted, others, ledger, data, -, run, -, count, before, after, -⟩ :=
    Keys.compact_presents reachable_sample List.mem_cons_self trivial small fits
  exact ⟨compacted, others, ledger, run, count, data, before, after⟩

end BatchColumn
