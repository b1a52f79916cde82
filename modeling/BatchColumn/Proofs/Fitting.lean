import BatchColumn.Proofs.Loading

/-!
# Copies panic only for what does not fit

A copy of keys may have to gather entries, and of all that a copy does only a gather lays out values
by adding up their lengths. So a copy of good positions that panics has met values that do not fit
together, among those that are loaded when it ends. This is one induction on depth along the calls
that a copy comes to (`Block.not_fits_of_copy`); a copy of one position comes to a copy of a region
on the way (`Block.not_fits_of_single`).
-/

namespace BatchColumn

variable {K : Census} {store after : Store}

/-- A call that is one of what a block reveals, and fails where the block can be loaded, fails at
what the block comes to from then on. -/
theorem Sound.exists_face_of_error (sound : Sound K store.loads store.ledger) {b : Block}
    (mem : b ∈ K) (kept : b.Loadable) (call : Block → Session Block)
    (through : call b = b.reveal >>= fun face ↦ call face.toBlock)
    (grows : ∀ (L : Census) (c : Block) (before : Store), c ∈ L →
      Sound L before.loads before.ledger →
        before.loads.payloads.Grows ((call c).outcome before).2.loads.payloads)
    {fault : Fault} (run : (call b).outcome store = (.error fault, after)) :
    ∃ (L : Census) (face : Face b.depth) (middle : Store), Sound L middle.loads middle.ledger ∧
      face.toBlock ∈ L ∧ face.toBlock.Mirrors b ∧ face.toBlock.CutFrom b ∧
        b.face? after.loads = some face ∧
          (call face.toBlock).outcome middle = (.error fault, after) := by
  rw [through] at run
  rcases Session.error_of_outcome_bind run with failed | ⟨face, middle, revealed, run⟩
  · exact absurd kept ((Block.reveal_meets mem).of_error sound failed)
  · obtain ⟨L, -, later, ⟨present, mirrors, cut⟩, -⟩ :=
      (Block.reveal_meets (K := K.note store.loads) mem).leaves sound revealed
    have since := grows L _ middle present later
    rw [run] at since
    exact ⟨L, face, middle, later, present, mirrors, cut,
      Block.face?_of_grows since (Block.face?_of_reveal sound mem revealed), run⟩

/-- A query that fails in a session does so as said, and has loaded nothing. -/
theorem Query.Meets.of_error {α : Type} {query : Query α} {post : Census → α → Prop}
    {refuse : Fault → Prop} (meets : query.Meets K store.loads post refuse)
    (sound : Sound K store.loads store.ledger) {fault : Fault}
    (run : (liftM query : Session α).outcome store = (.error fault, after)) :
    after.loads = store.loads ∧ refuse fault := by
  obtain ⟨-, _, _, _, ends⟩ := meets store.ledger sound
  rcases asked : query.outcome store.loads store.ledger with ⟨result, ledger⟩
  rw [Session.outcome_query asked] at run
  rw [asked] at ends
  cases run
  exact ⟨rfl, ends⟩

namespace Block

variable {offset length : Nat}

/-- A copy loads more and more. -/
theorem grows_copy {b : Block} (mem : b ∈ K) (sound : Sound K store.loads store.ledger) :
    store.loads.payloads.Grows ((b.copy offset length).outcome store).2.loads.payloads :=
  have ⟨_, _, _, _, grows⟩ :=
    Session.Meets.leaves (K := K) (copy_meets (K := K.note store.loads) mem offset length) sound rfl
  grows

section Lists

variable {lists : Lists} {elements : Block}

/-- A copy of lists fails with the copy of their elements. -/
theorem error_of_copy_array (sound : Sound K store.loads store.ledger)
    (mem : array lists elements ∈ K) (inside : offset + length ≤ lists.count) {fault : Fault}
    (run : ((array lists elements).copy offset length).outcome store = (.error fault, after)) :
    (elements.copy (lists.start offset)
      (lists.start (offset + length) - lists.start offset)).outcome store =
        (.error fault, after) := by
  rw [copy, reveal, pure_bind, Session.outcome_check_bind (Lists.cut_eq_ok inside)] at run
  refine (Session.error_of_outcome_bind run).resolve_right ?_
  rintro ⟨others, middle, copied, run⟩
  obtain ⟨L, le, later, ends⟩ := copy_meets (sound.elements_mem mem) _ _ store sound
  rw [copied] at later ends
  have stored := ((sound.stored _ mem).mono le.issued).issued
  have answers : (do return array (← lists.copy offset length) others : Session Block).Meets L
      (fun _ _ ↦ True) fun _ ↦ False :=
    .query_bind (fun _ ↦ Lists.copy_meets (sound.formed _ mem) stored ends.mem inside ends.shows)
      fun _ _ _ _ ↦ .pure trivial
  exact answers.of_error later run

end Lists

section Keys

variable {keys : Keys} {entries : Block}

/-- A gather for a copy of keys panics for what does not fit. -/
theorem not_fits_of_gather (sound : Sound K store.loads store.ledger)
    (mem : dictionary keys entries ∈ K)
    (plain : entries.isNested store.loads = true ∨ keys.toList.Nodup)
    (run : (liftM (entries.gather (stretch keys.toList offset length)) : Session Block).outcome
      store = (.error .panic, after)) :
    ¬ (dictionary keys entries).Fits after.loads (List.range' offset length) := by
  have good : ∀ id ∈ stretch keys.toList offset length, id < entries.positionCount :=
    fun id listed ↦ sound.formed _ mem id (mem_of_mem_stretch listed)
  obtain ⟨still, refused⟩ := (gather_meets (sound.entries_mem mem) _).of_error sound run
  rw [still]
  intro fits
  rw [← keys.picked_range'] at good refused
  obtain ⟨⟨⟩, -⟩ | ⟨-, beyond⟩ := refused.unable_or good
  exact beyond ((fits_dictionary.1 fits).1 plain)

/-- Copied ids are compacted, or panic for what does not fit. -/
theorem not_fits_of_compactCopy (sound : Sound K store.loads store.ledger)
    (mem : dictionary keys entries ∈ K) (small : (dictionary keys entries).Small .empty)
    (flat : entries.isNested store.loads = false) (inside : offset + length ≤ keys.count)
    (run : (liftM (compactCopy keys entries offset length) : Session Block).outcome store =
      (.error .panic, after)) :
    ¬ (dictionary keys entries).Fits after.loads (List.range' offset length) := by
  obtain ⟨still, refused⟩ := (compactCopy_meets mem flat inside).of_error sound run
  rw [still]
  intro fits
  rw [← keys.picked_range'] at refused
  exact (refused small).2 fun _ _ ↦ (fits_dictionary.1 fits).2 flat

end Keys

/-- **A copy panics only for what does not fit**, as it is loaded in the end. -/
theorem not_fits_of_copy {b : Block} (mem : b ∈ K) (sound : Sound K store.loads store.ledger)
    (kept : b.Loadable) (small : b.Small .empty) (inside : offset + length ≤ b.positionCount)
    (run : (b.copy offset length).outcome store = (.error .panic, after)) :
    ¬ b.Fits after.loads (List.range' offset length) := by
  induction b using Block.walk generalizing K store offset length with
  | step b ih =>
    obtain ⟨L, face, middle, later, present, mirrors, cut, shown, run⟩ :=
      sound.exists_face_of_error mem kept (Block.copy · offset length)
        (copy_eq_bind b offset length) (fun _ _ _ mem sound ↦ grows_copy mem sound) run
    rw [← fits_of_face shown]
    rw [← mirrors.count] at inside
    have kept := mirrors.loadable kept
    have small := cut.small small
    have formed := later.formed _ present
    have stored := later.stored _ present
    rcases face with leaf | leaf | ⟨lists, elements, below⟩ | ⟨keys, entries, below⟩
    · exact absurd inside ((copy_ints formed stored).of_error later run).2
    · exact absurd inside ((copy_slices formed stored).of_error later run).2
    · have room := Lists.Intact.span_le_size formed inside
      exact fun fits ↦ ih elements below (later.elements_mem present) later kept small.elements room
        (error_of_copy_array later present inside run) (fits.of_lists formed inside)
    · obtain ⟨first, room, ids, same⟩ | ⟨plain, same⟩ | ⟨flat, same⟩ :=
        later.outcome_copy_ways present inside
      · exact fun fits ↦ ih entries below (later.entries_mem present) later kept small.entries room
          (same.symm.trans run) (fits.of_counting ids)
      · exact not_fits_of_gather later present plain (same.symm.trans run)
      · exact not_fits_of_compactCopy later present small flat inside (same.symm.trans run)

/-- What fits is copied without a panic. -/
theorem copy_ne_panic {b : Block} (mem : b ∈ K) (sound : Sound K store.loads store.ledger)
    (kept : b.Loadable) (small : b.Small .empty) (inside : offset + length ≤ b.positionCount)
    (fits : b.Fits ((b.copy offset length).outcome store).2.loads (List.range' offset length)) :
    ((b.copy offset length).outcome store).1 ≠ .error .panic :=
  fun panics ↦ not_fits_of_copy mem sound kept small inside (Prod.ext panics rfl) fits

end Block

end BatchColumn
