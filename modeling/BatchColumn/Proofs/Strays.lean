import BatchColumn.Proofs.Chains

/-!
# Ids that lead nowhere

Keys can be made of ids that nobody has checked, and keys to such keys. A position of a block
**strays** if, followed through the keys, it comes to an id that is no position of the block that it
points into (`Block.strays`). In a block of the census no position strays.

Layers of unchecked keys over a block of the census are **raw** as long as nothing is remembered of
them (`Block.Raw`). What can be asked of a raw block without the store finds out whether a position
that is meant strays, and finds nothing else wrong: sizing by masks (`Block.Raw.maskSize`,
`Block.Raw.flatMaskSize`), and looking ids up through a chain (`Block.Raw.flattenIds`), each by
induction on the layers.
-/

namespace BatchColumn

variable {K L : Census} {loads : Loads} {ledger after : Ledger}

/-! ### Strays -/

namespace Block

/-- The position strays: it is none of the block, or the key there strays among the entries. -/
def strays : Block → Nat → Bool
  | ints leaf, position => leaf.count ≤ position
  | slices leaf, position => leaf.count ≤ position
  | array lists _, position => lists.count ≤ position
  | dictionary keys entries, position =>
    match keys.toList[position]? with
    | some id => entries.strays id
    | none => true
  | «lazy» promise _, position => promise.count ≤ position

theorem strays_of_le {b : Block} {position : Nat} (outside : b.positionCount ≤ position) :
    b.strays position = true := by
  rcases b with leaf | leaf | ⟨lists, elements⟩ | ⟨keys, entries⟩ | ⟨promise, payload⟩
  case dictionary =>
    have missing : keys.toList[position]? = none :=
      List.getElem?_eq_none (keys.length_toList.trans_le outside)
    rw [strays, missing]
  all_goals exact decide_eq_true outside

theorem strays_dictionary {keys : Keys} {entries : Block} {position id : Nat}
    (found : keys.toList[position]? = some id) :
    (dictionary keys entries).strays position = entries.strays id := by
  rw [strays, found]

/-- A position that the mask selects strays. -/
def Exposed (b : Block) (mask : Mask) : Prop :=
  ∃ position < b.positionCount, mask position = true ∧ b.strays position = true

/-- Some position strays. -/
def Corrupt (b : Block) : Prop :=
  ∃ position < b.positionCount, b.strays position = true

theorem exposed_iff_corrupt {b : Block} {mask : Mask} (all : ∀ p < b.positionCount, mask p = true) :
    b.Exposed mask ↔ b.Corrupt :=
  exists_congr fun position ↦ and_congr_right fun inside ↦ and_iff_right (all position inside)

theorem exposed_of_isWhole {b : Block} {extent : Extent}
    (whole : extent.isWhole b.positionCount = true) :
    b.Exposed (extent.mask b.positionCount) ↔ b.Corrupt := by
  obtain ⟨first, all⟩ : extent.offset = 0 ∧ extent.length b.positionCount = b.positionCount := by
    simpa [Extent.isWhole] using whole
  refine exposed_iff_corrupt fun p inside ↦ Mask.region_eq_true.2 ?_
  omega

theorem exposed_region_one {b : Block} {position : Nat} (inside : position < b.positionCount) :
    b.Exposed (.region position 1) ↔ b.strays position = true := by
  constructor
  · rintro ⟨p, -, meant, strays⟩
    obtain rfl : p = position := by
      rw [Mask.region_eq_true] at meant
      omega
    exact strays
  · exact fun strays ↦ ⟨position, inside, Mask.region_eq_true.2 (by omega), strays⟩

/-- A position of keys strays just if an entry that is referred to does. -/
theorem corrupt_dictionary {keys : Keys} {entries : Block} :
    (dictionary keys entries).Corrupt ↔ ∃ id ∈ keys.toList, entries.strays id = true := by
  constructor
  · rintro ⟨position, inside, strays⟩
    obtain ⟨id, found⟩ := keys.exists_getElem?_toList inside
    exact ⟨id, List.mem_of_getElem? found, strays_dictionary found ▸ strays⟩
  · rintro ⟨id, listed, strays⟩
    obtain ⟨position, found⟩ := List.mem_iff_getElem?.1 listed
    have inside := (List.getElem?_eq_some_iff.1 found).1
    exact ⟨position, inside.trans_eq keys.length_toList, (strays_dictionary found).trans strays⟩

/-- A selected position of keys strays just if an entry that is referred to does. -/
theorem exposed_dictionary {keys : Keys} {entries : Block} {mask : Mask} :
    (dictionary keys entries).Exposed mask ↔
      ∃ id, keys.referred mask id = true ∧ entries.strays id = true := by
  constructor
  · rintro ⟨position, inside, meant, strays⟩
    obtain ⟨id, found⟩ := keys.exists_getElem?_toList inside
    exact ⟨id, Keys.referred_eq_true.2 ⟨position, found, meant⟩,
      strays_dictionary found ▸ strays⟩
  · rintro ⟨id, referred, strays⟩
    obtain ⟨position, found, meant⟩ := Keys.referred_eq_true.1 referred
    have inside := (List.getElem?_eq_some_iff.1 found).1
    exact ⟨position, inside.trans_eq keys.length_toList, meant,
      (strays_dictionary found).trans strays⟩

/-- A selected position of keys whose ids are positions of entries strays just if a position of the
entries does. -/
theorem exposed_dictionary_of_inside {keys : Keys} {entries : Block} {mask : Mask}
    (inside : ∀ id, keys.referred mask id = true → id < entries.positionCount) :
    (dictionary keys entries).Exposed mask ↔ entries.Exposed (keys.referred mask) := by
  rw [exposed_dictionary]
  exact ⟨fun ⟨id, referred, strays⟩ ↦ ⟨id, inside id referred, referred, strays⟩,
    fun ⟨id, _, referred, strays⟩ ↦ ⟨id, referred, strays⟩⟩

/-- Some of the positions of keys stray just if some of the entries that they lead to do. -/
theorem exists_strays_of_bind {keys : Keys} {entries : Block} {positions ids : List Nat}
    (inside : ∀ position ∈ positions, position < keys.count)
    (found : ∀ i : Nat, ids[i]? = positions[i]?.bind (keys.toList[·]?)) :
    (∃ id ∈ ids, entries.strays id = true) ↔
      ∃ position ∈ positions, (dictionary keys entries).strays position = true := by
  have led : ∀ id, id ∈ ids ↔ ∃ position ∈ positions, keys.toList[position]? = some id := by
    simp only [List.mem_iff_getElem?, found, Option.bind_eq_some_iff]
    tauto
  constructor
  · rintro ⟨id, listed, strays⟩
    obtain ⟨position, mem, there⟩ := (led id).1 listed
    exact ⟨position, mem, (strays_dictionary there).trans strays⟩
  · rintro ⟨position, mem, strays⟩
    obtain ⟨id, there⟩ := keys.exists_getElem?_toList (inside position mem)
    exact ⟨id, (led id).2 ⟨position, mem, there⟩, strays_dictionary there ▸ strays⟩

end Block

/-- **In a block of the census no position strays.** -/
theorem Sound.strays_iff (sound : Sound K loads ledger) {b : Block} (mem : b ∈ K)
    {position : Nat} : b.strays position = true ↔ b.positionCount ≤ position := by
  refine ⟨fun strays ↦ ?_, Block.strays_of_le⟩
  induction b generalizing position with
  | dictionary keys entries ih =>
    by_contra inside
    obtain ⟨id, found⟩ := keys.exists_getElem?_toList (Nat.lt_of_not_le inside)
    rw [Block.strays_dictionary found] at strays
    have intact : keys.Intact entries.positionCount := sound.formed _ mem
    exact (intact id (List.mem_of_getElem? found)).not_ge (ih (sound.entries_mem mem) strays)
  | _ => exact of_decide_eq_true strays

theorem Sound.not_exposed (sound : Sound K loads ledger) {b : Block} (mem : b ∈ K) (mask : Mask) :
    ¬ b.Exposed mask := by
  rintro ⟨position, inside, -, strays⟩
  exact inside.not_ge ((sound.strays_iff mem).1 strays)

/-- Looking ids up through a chain of the census finds those that are none of its positions, at its
top if there are keys, and else at its bottom. -/
theorem Sound.ends_flattenIds (sound : Sound K loads ledger) {b : Block} (mem : b ∈ K)
    (handle : Nat) (ids : List Nat) :
    Ends (liftM (b.flattenIds loads handle ids) : Except Fault (Nat × Block × List Nat))
      (fun found ↦ Block.Bottom K loads b found.2.1 ∧
        ((∃ id ∈ found.2.2, found.2.1.positionCount ≤ id) ↔ ∃ id ∈ ids, b.strays id = true))
      (fun fault ↦ fault.Reports (∃ id ∈ ids, b.strays id = true)) := by
  simp only [sound.strays_iff mem]
  by_cases inside : ∀ id ∈ ids, id < b.positionCount
  · obtain ⟨flat, run, -, -, low, -⟩ := sound.flattenIds_eq_ok mem handle inside
    rw [run]
    refine ⟨sound.bottom mem handle, iff_of_false ?_ ?_⟩
    · rintro ⟨id, listed, outside⟩
      exact (low id listed).not_ge outside
    · rintro ⟨id, listed, outside⟩
      exact (inside id listed).not_ge outside
  · simp only [not_forall, Nat.not_lt] at inside
    obtain ⟨id, listed, outside⟩ := inside
    by_cases flat : b.isNested loads = false
    · rw [Block.flattenIds_of_isNested_eq_false flat]
      exact ⟨⟨mem, flat, fun kept ↦ kept, .refl⟩, Iff.rfl⟩
    · simp only [Block.isNested_eq_false_iff, ne_eq, not_forall, not_not] at flat
      obtain ⟨keys, inner, below, shown⟩ := flat
      obtain ⟨-, mirrors⟩ := sound.face mem shown
      obtain ⟨cause, run, internal⟩ :=
        Block.flattenIds_of_outside shown listed (mirrors.count.trans_le outside) handle
      rw [run]
      exact ⟨internal, id, listed, outside⟩

/-! ### Marking -/

/-- Ids are marked, or the first that points past the entries is reported. -/
theorem ends_markUsed {size : Nat} (room : size < 2 ^ 63) (ids : List Nat) :
    Ends (markUsed size ids)
      (fun used ↦ (used = fun id ↦ ids.contains id) ∧ ∀ id ∈ ids, id < size)
      (fun fault ↦ ∃ id ∈ ids, size ≤ id ∧ fault = .error (.missingKey id)) := by
  rcases first : ids.find? (size ≤ ·) with - | id
  · have inside : ∀ id ∈ ids, id < size := by simpa using List.find?_eq_none.1 first
    rw [markUsed_eq_ok room inside]
    exact ⟨rfl, inside⟩
  · rw [markUsed_eq_error_of_find? room first]
    exact ⟨id, List.mem_of_find?_eq_some first, by simpa using List.find?_some first, rfl⟩

/-- Marking the ids that a mask means finds those that point past the entries. If there are none,
what strays among the keys strays among the entries. -/
theorem Keys.ends_mark {keys : Keys} {entries : Block} {mask : Mask} {ids : List Nat}
    (meant : keys.referred mask = fun id ↦ ids.contains id)
    (room : entries.positionCount < 2 ^ 63) :
    Ends (markUsed entries.positionCount ids)
      (fun used ↦ used = keys.referred mask ∧ (∀ id ∈ ids, id < entries.positionCount) ∧
        ((Block.dictionary keys entries).Exposed mask ↔ entries.Exposed (keys.referred mask)))
      (fun fault ↦ fault.Reports ((Block.dictionary keys entries).Exposed mask)) := by
  refine (ends_markUsed room ids).mono (fun used ⟨same, inside⟩ ↦ ?_) ?_
  · refine ⟨same.trans meant.symm, inside,
      Block.exposed_dictionary_of_inside fun id referred ↦ ?_⟩
    rw [meant] at referred
    exact inside id (List.contains_iff_mem.1 referred)
  · rintro _ ⟨id, listed, outside, rfl⟩
    refine ⟨rfl, Block.exposed_dictionary.2 ⟨id, ?_, Block.strays_of_le outside⟩⟩
    rw [meant]
    exact List.contains_iff_mem.2 listed

/-! ### Raw blocks -/

/-- A layer of keys that is told apart from all blocks there are, and of which nothing is known but
that its ids were given out. -/
structure Keys.Unseen (K : Census) (loads : Loads) (ledger : Ledger) (keys : Keys)
    (entries : Block) : Prop where
  /-- Its memory was given out. -/
  spent : keys.memory < ledger.next
  /-- Its memory is that of no other block. -/
  apart : ∀ c, c ∈ K ∨ Block.Part loads c entries → c.identity? ≠ some keys.memory
  /-- The array of its ids was given out. -/
  issued : keys.ids.storage ∈ K.issued
  /-- Nothing is remembered of it. -/
  blank : ledger.memo keys.memory = .blank

/-- A block of the census, or layers of unseen keys over one. -/
inductive Block.Raw (K : Census) (loads : Loads) (ledger : Ledger) : Block → Prop
  | held {b : Block} : b ∈ K → Raw K loads ledger b
  | keys {keys : Keys} {entries : Block} : keys.Unseen K loads ledger entries →
      Raw K loads ledger entries → Raw K loads ledger (.dictionary keys entries)

theorem Keys.Unseen.mono {keys : Keys} {entries : Block}
    (unseen : keys.Unseen K loads ledger entries) (blocks : L.blocks = K.blocks)
    (issued : K.issued ⊆ L.issued) (next : ledger.next ≤ after.next)
    (memo : ∀ n < ledger.next, after.memo n = ledger.memo n) :
    keys.Unseen L loads after entries where
  spent := unseen.spent.trans_le next
  apart c there := unseen.apart c (there.imp_left fun mem ↦ (blocks ▸ mem : c ∈ K.blocks))
  issued := issued unseen.issued
  blank := (memo _ unseen.spent).trans unseen.blank

namespace Block.Raw

variable {b : Block} (raw : b.Raw K loads ledger)

include raw

theorem mono (blocks : L.blocks = K.blocks) (issued : K.issued ⊆ L.issued)
    (next : ledger.next ≤ after.next) (memo : ∀ n < ledger.next, after.memo n = ledger.memo n) :
    b.Raw L loads after := by
  induction raw with
  | held mem => exact .held (show _ ∈ L.blocks from blocks ▸ mem)
  | keys unseen _ ih => exact .keys (unseen.mono blocks issued next memo) ih

variable (sound : Sound K loads ledger)

include sound

/-- The identities of all its parts were given out. -/
theorem part_spent {c : Block} (part : Part loads c b) {n : Nat} (own : c.identity? = some n) :
    n < ledger.next := by
  induction raw with
  | held mem => exact sound.spent c (sound.part_mem part mem) n own
  | keys unseen _ ih =>
    cases part with
    | refl => exact Option.some.inj own ▸ unseen.spent
    | entries part => exact ih part

variable (roomy : b.Roomy loads)

section Masks

include roomy

/-- **Sizing by a mask finds the strays among what is meant, and nothing else.** -/
theorem maskSize (mask : Mask) : Ends (b.maskSize loads mask) (fun _ ↦ ¬ b.Exposed mask)
    (fun fault ↦ fault.Reports (b.Exposed mask)) := by
  induction raw generalizing mask with
  | held mem =>
    rw [sound.maskSize_eq_weight mem roomy]
    exact sound.not_exposed mem mask
  | @keys keys entries unseen _ ih =>
    rw [Block.maskSize, face?]
    refine .bind (Keys.ends_mark rfl roomy.entries.positionCount_lt) ?_
    rintro used ⟨same, -, exposed⟩
    rw [same, exposed]
    exact .bind (ih roomy.entries _) fun _ clean ↦ clean

/-- Nor does it matter if directly nested dictionaries are one. -/
theorem flatMaskSize (mask : Mask) : Ends (b.flatMaskSize loads mask)
    (fun _ ↦ ¬ b.Exposed mask) (fun fault ↦ fault.Reports (b.Exposed mask)) := by
  induction raw generalizing mask with
  | held mem =>
    rw [sound.flatMaskSize_eq_flatWeight mem roomy]
    exact sound.not_exposed mem mask
  | @keys keys entries unseen _ ih =>
    rw [Block.flatMaskSize, face?]
    refine .bind (Keys.ends_mark rfl roomy.entries.positionCount_lt) ?_
    rintro used ⟨same, -, exposed⟩
    rw [same, exposed]
    exact ih roomy.entries _

end Masks

/-- **Ids that are looked up through a chain come to its bottom**, and lie outside it just if one of
them strays, unless a stray is found on the way. -/
theorem flattenIds (handle : Nat) (ids : List Nat) :
    Ends (liftM (b.flattenIds loads handle ids) : Except Fault (Nat × Block × List Nat))
      (fun found ↦ Bottom K loads b found.2.1 ∧
        ((∃ id ∈ found.2.2, found.2.1.positionCount ≤ id) ↔ ∃ id ∈ ids, b.strays id = true))
      (fun fault ↦ fault.Reports (∃ id ∈ ids, b.strays id = true)) := by
  induction raw generalizing handle ids with
  | held mem => exact sound.ends_flattenIds mem handle ids
  | @keys keys entries unseen _ ih =>
    have shown : (dictionary keys entries).face? loads =
      some (.dictionary keys entries (Nat.lt_succ_self _)) := by rw [face?]
    by_cases inside : ∀ id ∈ ids, id < keys.count
    · obtain ⟨next, run, -, -, found⟩ := flattenIds_of_dictionary shown inside handle
      rw [run, ← exists_strays_of_bind inside found]
      refine (ih keys.handle next).mono ?_ fun _ ↦ id
      rintro _ ⟨bottom, outside⟩
      exact ⟨⟨bottom.mem, bottom.flat, bottom.loadable, .entries bottom.part⟩, outside⟩
    · simp only [not_forall, Nat.not_lt] at inside
      obtain ⟨id, listed, outside⟩ := inside
      obtain ⟨cause, run, internal⟩ := flattenIds_of_outside shown listed outside handle
      rw [run]
      exact ⟨internal, id, listed, strays_of_le outside⟩

end Block.Raw

end BatchColumn
