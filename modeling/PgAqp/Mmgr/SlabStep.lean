import PgAqp.Mmgr.SlabInvariant

/-!
# The steps of the slab

One lemma for each way in which a step changes the shared variables: an item is cut
off the newest chunk, a chunk is made, an epoch ends, an item is put on a list, a
list goes to the free list.
-/

namespace PgAqp.Mmgr

open Library List

namespace SharedSlab

variable {s : SharedSlab} {free : List ItemPtr} {tid : Tid}

theorem item_of_allocates {call : SlabCall} (allocates : call = .allocate ∨ call = .newChunk) :
    call.item = none := by
  rcases allocates with rfl | rfl <;> rfl

variable (inv : s.SlabInv free)
include inv

theorem SlabInv.not_issued : ¬ s.Issued (s.offsetChunk + s.unallocatedOffset) := by
  rintro ⟨num, i, isItem, within, place⟩
  obtain ⟨newest, isNewest⟩ := inv.chunk.offset.base
  have positive := inv.itemsz
  unfold chunkAllocSize at *
  omega

variable (fits : s.fits s.unallocatedOffset = true)
include fits

theorem SlabInv.nonzero : s.offsetChunk ≠ 0 := by
  intro isZero
  exact Nat.not_le_of_lt (inv.chunk.offset.first isZero) (of_decide_eq_true fits)

theorem SlabInv.issued_cut (item : Nat) :
    ({ s with unallocatedOffset := s.unallocatedOffset + s.itemsz } : SharedSlab).Issued
        item ↔ s.Issued item ∨ item = s.offsetChunk + s.unallocatedOffset := by
  have nonzero := inv.nonzero fits
  obtain ⟨newest, isNewest⟩ := inv.chunk.offset.base
  obtain ⟨pos, isPosition⟩ := inv.chunk.offset.aligned nonzero
  have below := of_decide_eq_true fits
  constructor
  · rintro ⟨num, i, rfl, within, pre | ⟨same, below'⟩⟩
    · exact .inl ⟨num, i, rfl, within, .inl pre⟩
    · by_cases isLast : i = pos
      · right
        rw [same, isLast, isPosition]
      · left
        refine ⟨num, i, rfl, within, .inr ⟨same, ?_⟩⟩
        rw [isPosition, ← Nat.succ_mul] at below'
        rw [isPosition]
        have lower : i < pos.succ := Nat.lt_of_mul_lt_mul_right below'
        exact Nat.mul_lt_mul_of_pos_right (by omega) inv.itemsz
  · rintro (⟨num, i, rfl, within, pre | ⟨same, lower⟩⟩ | rfl)
    · exact ⟨num, i, rfl, within, .inl pre⟩
    · exact ⟨num, i, rfl, within, .inr ⟨same, Nat.lt_add_right _ lower⟩⟩
    · have positive : newest ≠ 0 := by
        rintro rfl
        exact nonzero (isNewest.trans (Nat.zero_mul _))
      have isNumber : newest - 1 + 1 = newest := Nat.sub_add_cancel (Nat.pos_of_ne_zero positive)
      refine ⟨newest - 1, pos, ?_, ?_, .inr ⟨?_, ?_⟩⟩
      · rw [isNumber, ← isNewest, ← isPosition]
      · rw [← isPosition]
        exact below
      · rw [isNumber, ← isNewest]
      · rw [← isPosition]
        exact Nat.lt_add_of_pos_right inv.itemsz

omit fits

theorem SlabInv.cut (atSwap : (s.backends tid).pc = .swapOffset s.unallocatedOffset chunkHead)
    (current : chunkHead = s.offsetChunk) :
    s.Settles free (s.carve tid (chunkHead + s.unallocatedOffset)) lossless := by
  subst current
  have ok := inv.backend tid
  have fits : s.fits s.unallocatedOffset := by
    have pc := ok.pc
    rw [atSwap] at pc
    exact pc
  have isAllocate : (s.backends tid).call = .allocate := by
    have within := ok.within
    rw [atSwap] at within
    exact of_decide_eq_true within
  have unheld : ∀ place, ¬ s.holds free place (s.offsetChunk + s.unallocatedOffset) :=
    fun place held => inv.not_issued (inv.issued held)
  set s' := s.carve tid (s.offsetChunk + s.unallocatedOffset)
  have issued : ∀ item, s'.Issued item ↔
      s.Issued item ∨ item = s.offsetChunk + s.unallocatedOffset := inv.issued_cut fits
  have self : s'.backends tid = { s.backends tid with pc := .idle } := backends_self ..
  have quiet : Quiet s tid s' :=
    ⟨fun other diff => backends_of_ne _ _ diff, by rw [self], by rw [self], rfl, rfl⟩
  have freeing : (s'.backends tid).freeing = (s.backends tid).freeing := by
    rw [self]
    simp [SlabBackend.freeing, isAllocate, SlabCall.item]
  have relocates : Relocates (s.holds free) (s'.holds free)
      (· = s.offsetChunk + s.unallocatedOffset)
      (· = s.offsetChunk + s.unallocatedOffset) .allocated := by
    refine .fresh unheld (fun item => ?_) fun place notAllocated item => ?_
    · change item ∈ _ :: s.allocated ↔ item ∈ s.allocated ∨ _
      rw [mem_cons, or_comm]
    · exact holds_at quiet.others (absurd · notAllocated) (fun _ => rfl)
        (fun _ => by rw [quiet.lists]) (fun _ => freeing)
  refine ⟨free, inv.quiet quiet inv.chain (List.Sublist.refl _) (fun _ _ => rfl)
    (nodup_cons.mpr ⟨unheld .allocated, inv.allocatedNodup⟩) ?_ relocates
    (fun pre => (issued _).mpr (.inl pre)) (fun isKept => (issued _).mpr (.inr isKept))
    ?_ ?_, fun carved => ?_, fun _ covered => covered_of_relocates covered relocates id (issued _).mp⟩
  · intro other _ _
    refine ⟨rfl, rfl, fun isFull => ?_⟩
    rw [fits] at isFull
    exact Bool.noConfusion isFull
  · rw [self]
    exact ⟨trivial, rfl, fun _ isBusy => absurd rfl isBusy, fun present => by
      simp [SlabBackend.freeing] at present, ok.ordered, ok.account⟩
  · refine inv.chunk.frame quiet.others rfl rfl ?_ ?_ ?_
    · refine ⟨inv.chunk.offset.base, fun isZero => absurd isZero (inv.nonzero fits), fun nonzero => ?_⟩
      obtain ⟨i, isIndex⟩ := inv.chunk.offset.aligned nonzero
      refine ⟨i + 1, ?_⟩
      change s.unallocatedOffset + s.itemsz = (i + 1) * s.itemsz
      rw [Nat.succ_mul, ← isIndex]
    · rw [self]
      exact fun marks => Bool.noConfusion marks
    · rw [atSwap]
      exact fun _ _ => SlabPc.noConfusion
  · refine ⟨nodup_cons.mpr ⟨fun mem => ?_, carved.1⟩, fun item mem => ?_⟩
    · exact inv.not_issued (carved.2 _ mem)
    · rcases mem_cons.mp mem with rfl | pre
      · exact (issued _).mpr (.inr rfl)
      · exact (issued _).mpr (.inl (carved.2 item pre))

theorem SlabInv.marked (marks : (s.backends tid).pc.marks) : s.newChunk.marked := by
  have pc := (inv.backend tid).pc
  generalize (s.backends tid).pc = place at pc marks
  cases place with
  | chunkCheck cur => rw [show s.newChunk = ⟨cur, true⟩ from pc]
  | chunkUnmark cur => exact pc.1 ▸ pc.2
  | chunkReset cur => rw [show s.newChunk = ⟨cur, true⟩ from pc.1]
  | chunkPublish cur new => exact pc.1 ▸ pc.2.1
  | _ => exact Bool.noConfusion marks

omit inv

def setChunk (s : SharedSlab) (newChunk : ChunkPtr) (off offsetChunk : Nat) : SharedSlab :=
  { s with
    newChunk := newChunk
    unallocatedOffset := off
    offsetChunk := offsetChunk }

/-- A backend changes the newest chunk or restarts the offset, while no other one has a mark. -/
theorem SlabInv.chunkStep (inv : s.SlabInv free) (newChunk : ChunkPtr)
    (off offsetChunk : Nat) (pc : SlabPc) (busy : (s.backends tid).pc ≠ .idle)
    (alone : ∀ other ≠ tid, (s.backends other).pc.marks = false)
    (allocates : (s.backends tid).call = .allocate ∨ (s.backends tid).call = .newChunk)
    (within : pc.within (s.backends tid).call)
    (ok : (s.setChunk newChunk off offsetChunk).PcOk free (s.backends tid).entry
      (s.backends tid).lists pc)
    (issued : ∀ item, (s.setChunk newChunk off offsetChunk).Issued item ↔ s.Issued item)
    (offsetOk : OffsetOk s.itemsz offsetChunk off)
    (newest : newChunk.addr = offsetChunk ∨ ∃ cur, pc = .chunkPublish cur offsetChunk) :
    s.Settles free ((s.setChunk newChunk off offsetChunk).goTo tid pc) lossless := by
  set shared := s.setChunk newChunk off offsetChunk
  have item := item_of_allocates allocates
  have self : (shared.goTo tid pc).backends tid = { s.backends tid with pc := pc } :=
    backends_self ..
  have quiet : Quiet s tid (shared.goTo tid pc) :=
    ⟨fun other diff => backends_of_ne _ _ diff, by rw [self], by rw [self], rfl, rfl⟩
  have freeing : ((shared.goTo tid pc).backends tid).freeing = (s.backends tid).freeing := by
    rw [self]
    simp [SlabBackend.freeing, item]
  have relocates : Relocates (s.holds free) ((shared.goTo tid pc).holds free) _ _ _ :=
    relocates_none fun _ _ => holds_at quiet.others (fun _ => rfl) (fun _ => rfl)
      (fun _ => by rw [quiet.lists]) (fun _ => freeing)
  refine ⟨free, inv.quiet quiet inv.chain (List.Sublist.refl _) (fun _ _ => rfl)
    inv.allocatedNodup ?_ relocates (fun pre => (issued _).mpr pre) False.elim ?_ ?_,
    fun carved => carved.frame rfl fun pre => (issued _).mpr pre,
    fun _ covered => covered_of_relocates covered relocates False.elim
      fun after => .inl ((issued _).mp after)⟩
  · intro other diff marks
    rw [alone other diff] at marks
    exact Bool.noConfusion marks
  · rw [self]
    refine ⟨?_, within, fun isAllocate _ => (inv.backend tid).entry isAllocate busy, fun present => ?_,
      (inv.backend tid).ordered, (inv.backend tid).account⟩
    · cases pc with
      | popNext head => exact quiet.popping ok
      | popSwap head next => exact ⟨quiet.popping ok.1, ok.2⟩
      | _ => exact ok
    · simp [SlabBackend.freeing, item] at present
  · refine ⟨offsetOk, newest.imp_right ?_, ?_⟩
    · rintro ⟨cur, atPublish⟩
      exact ⟨tid, cur, by rw [self]; exact atPublish⟩
    · have onlySelf : ∀ {other}, ((shared.goTo tid pc).backends other).pc.marks → other = tid := by
        intro other marks
        by_contra diff
        rw [quiet.others other diff, alone other diff] at marks
        exact Bool.noConfusion marks
      intro _ _ first second
      exact (onlySelf first).trans (onlySelf second).symm

theorem SlabInv.alone (inv : s.SlabInv free) (marks : (s.backends tid).pc.marks) :
    ∀ other ≠ tid, (s.backends other).pc.marks = false := by
  intro other diff
  rw [← Bool.not_eq_true]
  exact fun otherMarks => diff (inv.chunk.unique otherMarks marks)

theorem SlabInv.allocates (inv : s.SlabInv free) (atPc : (s.backends tid).pc = pc)
    (chunks : ∀ call, pc.within call = decide (call = .allocate ∨ call = .newChunk)) :
    (s.backends tid).call = .allocate ∨ (s.backends tid).call = .newChunk := by
  have within := (inv.backend tid).within
  rw [atPc, chunks] at within
  exact of_decide_eq_true within

theorem chunks_within {pc : SlabPc} (allocates : call = .allocate ∨ call = .newChunk)
    (chunks : ∀ call, pc.within call = decide (call = .allocate ∨ call = .newChunk)) :
    pc.within call := by
  rw [chunks]
  exact decide_eq_true allocates

variable (inv : s.SlabInv free)
include inv

theorem SlabInv.mark
    (atMark : (s.backends tid).pc = .chunkMark cur) (same : s.newChunk = ⟨cur, false⟩) :
    s.Settles free (({ s with newChunk := ⟨cur, true⟩ } : SharedSlab).goTo tid
      (.chunkCheck cur)) lossless := by
  have allocates := inv.allocates atMark fun _ => rfl
  have unmarked : ∀ other, (s.backends other).pc.marks = false := by
    intro other
    rw [← Bool.not_eq_true]
    intro marks
    have isMarked := inv.marked marks
    rw [same] at isMarked
    exact Bool.noConfusion isMarked
  refine inv.chunkStep ⟨cur, true⟩ s.unallocatedOffset s.offsetChunk (.chunkCheck cur)
    (by simp [atMark]) (fun other _ => unmarked other) allocates
    (chunks_within allocates fun _ => rfl) rfl (fun _ => Iff.rfl) inv.chunk.offset ?_
  rcases inv.chunk.newest with newest | ⟨other, cur', atPublish⟩
  · rw [same] at newest
    exact .inl newest
  · have isUnmarked := unmarked other
    rw [atPublish] at isUnmarked
    exact Bool.noConfusion isUnmarked

/-- The chunk of the offset is the newest one, unless a backend is about to publish it. -/
theorem SlabInv.newest_of_marks (marks : (s.backends tid).pc.marks)
    (publishes : ∀ cur new, (s.backends tid).pc ≠ .chunkPublish cur new) :
    s.newChunk.addr = s.offsetChunk := by
  rcases inv.chunk.newest with newest | ⟨other, cur, atPublish⟩
  · exact newest
  · have isSelf : other = tid := inv.chunk.unique (by simp [atPublish, SlabPc.marks]) marks
    exact absurd (isSelf ▸ atPublish) (publishes _ _)

theorem SlabInv.chunkDone (marks : (s.backends tid).pc.marks)
    (allocates : (s.backends tid).call = .allocate ∨ (s.backends tid).call = .newChunk) :
    s.Settles free (({ s with newChunk := ⟨s.offsetChunk, false⟩ } : SharedSlab).chunkDone
      tid) lossless := by
  have busy : (s.backends tid).pc ≠ .idle := by
    intro isIdle
    rw [isIdle] at marks
    exact Bool.noConfusion marks
  unfold SharedSlab.chunkDone
  rcases allocates with isAllocate | isNewChunk
  · simp only [isAllocate]
    exact inv.chunkStep ⟨s.offsetChunk, false⟩ s.unallocatedOffset s.offsetChunk
      .popHead busy (inv.alone marks) (.inl isAllocate) (by simp [isAllocate, SlabPc.within])
      trivial (fun _ => Iff.rfl) inv.chunk.offset (.inl rfl)
  · simp only [isNewChunk]
    exact inv.chunkStep ⟨s.offsetChunk, false⟩ s.unallocatedOffset s.offsetChunk
      .idle busy (inv.alone marks) (.inr isNewChunk) rfl trivial (fun _ => Iff.rfl)
      inv.chunk.offset (.inl rfl)

/-- When no more item fits, everything that fits into the chunk was issued, and restarting the
offset in the next chunk issues nothing. -/
theorem SlabInv.issued_reset
    (full : s.fits s.unallocatedOffset = false) (newChunk : ChunkPtr) (item : Nat) :
    (s.setChunk newChunk 0 (s.offsetChunk + chunkAllocSize)).Issued item ↔ s.Issued item := by
  have isFull := of_decide_eq_false full
  obtain ⟨newest, isNewest⟩ := inv.chunk.offset.base
  constructor
  · rintro ⟨num, i, rfl, within, pre | ⟨-, nothing⟩⟩
    · change (num + 1) * chunkAllocSize < s.offsetChunk + chunkAllocSize at pre
      refine ⟨num, i, rfl, within, ?_⟩
      by_cases isOlder : (num + 1) * chunkAllocSize < s.offsetChunk
      · exact .inl isOlder
      · have isCurrent : (num + 1) * chunkAllocSize = s.offsetChunk := by
          unfold chunkAllocSize at *
          omega
        refine .inr ⟨isCurrent, ?_⟩
        have nonzero : s.offsetChunk ≠ 0 := by
          unfold chunkAllocSize at *
          omega
        obtain ⟨pos, isPosition⟩ := inv.chunk.offset.aligned nonzero
        rw [isPosition, ← Nat.succ_mul] at isFull
        rw [← Nat.succ_mul] at within
        rw [isPosition]
        have lower : i.succ < pos.succ :=
          Nat.lt_of_mul_lt_mul_right (Nat.lt_of_le_of_lt within (Nat.lt_of_not_le isFull))
        exact Nat.mul_lt_mul_of_pos_right (Nat.lt_of_succ_lt_succ lower) inv.itemsz
    · exact absurd nothing (Nat.not_lt_zero _)
  · rintro ⟨num, i, rfl, within, place⟩
    refine ⟨num, i, rfl, within, .inl ?_⟩
    change (num + 1) * chunkAllocSize < s.offsetChunk + chunkAllocSize
    unfold chunkAllocSize at *
    omega

theorem SlabInv.reset (atReset : (s.backends tid).pc = .chunkReset cur) : s.Settles free
      (({ s with unallocatedOffset := 0, offsetChunk := nextChunk cur } : SharedSlab).goTo tid
        (.chunkPublish ⟨cur, true⟩ (nextChunk cur))) lossless := by
  have pc := (inv.backend tid).pc
  rw [atReset] at pc
  obtain ⟨newChunk, full⟩ := pc
  have allocates := inv.allocates atReset fun _ => rfl
  have marks : (s.backends tid).pc.marks := by simp [atReset, SlabPc.marks]
  have isCurrent : cur = s.offsetChunk := by
    have newest := inv.newest_of_marks marks (by simp [atReset])
    rw [newChunk] at newest
    exact newest
  have next_eq : nextChunk cur = s.offsetChunk + chunkAllocSize := by
    obtain ⟨num, isNumber⟩ := inv.chunk.offset.base
    unfold nextChunk
    rw [isCurrent, isNumber, Nat.mul_div_cancel _ (by decide), Nat.succ_mul]
  rw [next_eq]
  refine inv.chunkStep s.newChunk 0 (s.offsetChunk + chunkAllocSize)
    (.chunkPublish ⟨cur, true⟩ (s.offsetChunk + chunkAllocSize)) (by simp [atReset])
    (inv.alone marks) allocates (chunks_within allocates fun _ => rfl) ⟨newChunk, rfl, rfl⟩
    (inv.issued_reset full s.newChunk) ?_ (.inr ⟨_, rfl⟩)
  refine ⟨?_, ?_, fun _ => ⟨0, (Nat.zero_mul _).symm⟩⟩
  · obtain ⟨num, isNumber⟩ := inv.chunk.offset.base
    exact ⟨num + 1, by rw [isNumber, Nat.succ_mul]⟩
  · intro isZero
    exact absurd (Nat.eq_zero_of_add_eq_zero_left isZero) (by decide)

end SharedSlab

end PgAqp.Mmgr
