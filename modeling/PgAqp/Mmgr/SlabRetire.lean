import PgAqp.Mmgr.SlabStep

/-!
# Retiring items

An item that is freed goes to a local list, the list gets the epoch that its backend
ends, and once the epoch is safe the list goes to the free list.  An allocator that
still looks at one of the items published its entry before the epoch ended, so the
epoch is not safe for it.
-/

namespace PgAqp.Mmgr

open Library

namespace SharedSlab

variable {s s' : SharedSlab} {free : List ItemPtr} {tid : Tid}

structure Retires (s : SharedSlab) (tid : Tid) (s' : SharedSlab) : Prop where
  others : ∀ other ≠ tid, s'.backends other = s.backends other
  entry : (s'.backends tid).entry = (s.backends tid).entry
  itemsz : s'.itemsz = s.itemsz
  published : s'.epochs.published = s.epochs.published
  safe : s'.epochs.safeEpoch = s.epochs.safeEpoch
  later : s.epochs.globalEpoch ≤ s'.epochs.globalEpoch
  newChunk : s'.newChunk = s.newChunk
  offset : s'.unallocatedOffset = s.unallocatedOffset
  offsetChunk : s'.offsetChunk = s.offsetChunk
  lists : ∀ list ∈ (s'.backends tid).lists, ∀ item ∈ list.pointers,
    ∀ epoch, list.epoch = some epoch → s.epochs.globalEpoch ≤ epoch ∨
      ∃ old ∈ (s.backends tid).lists, item ∈ old.pointers ∧ old.epoch = some epoch
  unmarked : (s.backends tid).pc.marks = false ∧ (s'.backends tid).pc.marks = false

theorem Retires.popping (retires : Retires s tid s') (sound : s.epochs.Sound)
    {e : Option Nat} {item : ItemPtr} (popping : s.Popping e item) :
    s'.Popping e item := by
  obtain ⟨slot, epoch, isSlot, isPublished, recent⟩ := popping
  refine ⟨slot, epoch, isSlot, retires.published ▸ isPublished, ?_⟩
  intro other list mem contains closed isClosed
  by_cases same : other = tid
  · subst same
    rcases retires.lists list mem item contains closed isClosed with
      late | ⟨old, oldMember, inOld, wasClosed⟩
    · exact Nat.le_trans (sound.published isPublished).2.2 late
    · exact recent other old oldMember inOld closed wasClosed
  · rw [retires.others other same] at mem
    exact recent other list mem contains closed isClosed

/-- A step that changes lists keeps the invariant if no item comes to the free list that a
backend is about to pop. -/
theorem SlabInv.retire (inv : s.SlabInv free) (retires : Retires s tid s') (sound : s'.epochs.Sound)
    (chain : Chain s'.links (.head ()) free') (freeNodup : free'.Nodup)
    (onFree : ∀ {e item}, s.Popping e item → item ∈ free' →
      item ∈ free ∧ s'.links (.node item) = s.links (.node item))
    (allocatedNodup : s'.allocated.Nodup)
    (waitingNodup : (waiting (s'.backends tid).lists).Nodup)
    (relocates : Relocates (s.holds free) (s'.holds free') moved kept dest)
    (keptIssued : ∀ {item}, kept item → s.Issued item)
    (be : s'.BackendOk free' (s'.backends tid)) : s'.SlabInv free' := by
  have issued : ∀ {item}, s.Issued item → s'.Issued item := by
    unfold Issued
    rw [retires.itemsz, retires.offset, retires.offsetChunk]
    exact id
  have steady : Steady s free tid s' free' := by
    refine ⟨retires.others, retires.itemsz, Nat.le_of_eq retires.safe.symm, retires.later, ?_, ?_⟩
    · exact fun _ _ _ popping => ⟨retires.popping inv.sound popping, onFree popping⟩
    · refine fun _ _ _ => ⟨retires.newChunk, retires.offsetChunk, ?_⟩
      unfold fits
      rw [retires.itemsz, retires.offset]
      exact id
  refine inv.step steady sound chain freeNodup allocatedNodup waitingNodup relocates issued
    (fun isKept => issued (keptIssued isKept)) ?_ be ?_
  · refine inv.entries.frame (fun other => ?_) fun _ => by rw [retires.published]; exact id
    by_cases isSelf : other = tid
    · rw [isSelf, retires.entry]
    · rw [retires.others other isSelf]
  · refine inv.chunk.frame retires.others retires.newChunk retires.offsetChunk ?_ ?_ ?_
    · rw [retires.itemsz, retires.offset, retires.offsetChunk]
      exact inv.chunk.offset
    · rw [retires.unmarked.2]
      exact fun marks => Bool.noConfusion marks
    · intro cur new atPublish
      have unmarked := retires.unmarked.1
      rw [atPublish] at unmarked
      exact Bool.noConfusion unmarked

theorem Retires.issued (retires : Retires s tid s') : s'.Issued item → s.Issued item := by
  unfold Issued
  rw [retires.itemsz, retires.offset, retires.offsetChunk]
  exact id

theorem SlabInv.bump (inv : s.SlabInv free) (atBump : (s.backends tid).pc = .bump) :
    s.Settles free (({ s with epochs := s.epochs.bump } : SharedSlab).setBackend tid
        { s.backends tid with
          pc := .bumpEntry
          lists := closeLast s.epochs.globalEpoch (s.backends tid).lists }) lossless := by
  have ok := inv.backend tid
  set be : SlabBackend :=
    { s.backends tid with
      pc := .bumpEntry
      lists := closeLast s.epochs.globalEpoch (s.backends tid).lists }
  set s' := ({ s with epochs := s.epochs.bump } : SharedSlab).setBackend tid be
  have self : s'.backends tid = be := backends_self ..
  have retires : Retires s tid s' := by
    refine ⟨fun other diff => backends_of_ne _ _ diff, by rw [self], rfl, rfl, rfl,
      Nat.le_succ _, rfl, rfl, rfl, ?_, by simp [atBump, SlabPc.marks], by rw [self]; rfl⟩
    rw [self]
    intro list mem item contains epoch isClosed
    rcases epoch_of_mem_closeLast mem with pre | now
    · exact .inr ⟨list, pre, contains, isClosed⟩
    · rw [now] at isClosed
      exact .inl (Nat.le_of_eq (Option.some.inj isClosed))
  have freeing : be.freeing = (s.backends tid).freeing := by simp [SlabBackend.freeing, be, atBump]
  have isWaiting : waiting be.lists = waiting (s.backends tid).lists := waiting_closeLast ..
  have relocates : Relocates (s.holds free) (s'.holds free) _ _ _ :=
    relocates_none fun _ _ => holds_at retires.others (fun _ => rfl) (fun _ => rfl)
      (fun _ => by rw [self, isWaiting]) (fun _ => by rw [self, freeing])
  refine ⟨free, inv.retire retires inv.sound.bump inv.chain inv.freeNodup
    (fun _ mem => ⟨mem, rfl⟩) inv.allocatedNodup ?_ relocates False.elim ?_,
    id, fun _ covered => covered_of_relocates covered relocates False.elim .inl⟩
  · rw [self, isWaiting]
    exact inv.waitingNodup tid
  · have within := ok.within
    rw [atBump] at within
    rw [self]
    refine ⟨trivial, within, fun isAllocate _ => ok.entry isAllocate (by simp [atBump]), ?_,
      ok.ordered.closeLast, ?_⟩
    · exact fun present => closeLast_ne_nil (ok.lists (freeing ▸ present))
    · rw [isWaiting]
      exact ok.account

theorem Settles.trans (first : s.Settles free s' lossless)
    (second : ∀ {free'}, s'.SlabInv free' → s'.Settles free' s'' lossless) :
    s.Settles free s'' lossless := by
  obtain ⟨free', inv', carves, covers⟩ := first
  obtain ⟨free'', inv'', carves', covers'⟩ := second inv'
  exact ⟨free'', inv'', fun carved => carves' (carves carved),
    fun keeps covered => covers' keeps (covers keeps covered)⟩

theorem SlabInv.enterFree (inv : s.SlabInv free)
    (isIdle : (s.backends tid).pc = .idle) (mem : ptr ∈ s.allocated) :
    s.Settles free (s.enterFree tid ptr) lossless := by
  have ok := inv.backend tid
  set lists := addList (s.backends tid).lists.isEmpty (s.backends tid).lists
  have present : lists ≠ [] := by
    cases isLists : (s.backends tid).lists <;> simp [lists, addList, isLists]
  have isWaiting : waiting lists = waiting (s.backends tid).lists := waiting_addList ..
  set s' := s.enterFree tid ptr
  have self : s'.backends tid =
      { s.backends tid with call := .free ptr, pc := .bump, lists := lists } :=
    backends_self ..
  have retires : Retires s tid s' := by
    refine ⟨fun other diff => backends_of_ne _ _ diff, by rw [self], rfl, rfl, rfl,
      Nat.le.refl, rfl, rfl, rfl, ?_, by simp [isIdle, SlabPc.marks], by rw [self]; rfl⟩
    rw [self]
    intro list mem item contains epoch isClosed
    rcases mem_of_mem_addList mem with old | isNew
    · exact .inr ⟨list, old, contains, isClosed⟩
    · simp [isNew] at isClosed
  have held : s.holds free .allocated ptr := mem
  have relocates : Relocates (s.holds free) (s'.holds free) (· = ptr) (· = ptr) (.freeing tid) := by
    refine .single inv.exclusive held ?_ ?_ ?_ ?_
    · intro item isAllocated
      exact And.comm.mp (inv.allocatedNodup.mem_erase_iff.mp isAllocated)
    · intro item isAllocated diff
      exact inv.allocatedNodup.mem_erase_iff.mpr ⟨diff, isAllocated⟩
    · simp [holds, self, SlabBackend.freeing, SlabCall.item, isIdle, eq_comm]
    · intro place notAllocated notFreeing item
      exact holds_at retires.others (absurd · notAllocated) (fun _ => rfl)
        (fun _ => by rw [self, isWaiting]) (absurd · notFreeing)
  refine ⟨free, inv.retire retires inv.sound inv.chain inv.freeNodup
    (fun _ mem => ⟨mem, rfl⟩) (inv.allocatedNodup.erase _) ?_ relocates ?_ ?_,
    id, fun _ covered => covered_of_relocates covered relocates id .inl⟩
  · rw [self]
    exact isWaiting.symm ▸ inv.waitingNodup tid
  · rintro item rfl
    exact inv.issued held
  · rw [self]
    refine ⟨trivial, rfl, fun isAllocate => SlabCall.noConfusion isAllocate, fun _ => present,
      ok.ordered.addList fun isEmpty => ?_, ?_⟩
    · simp [List.isEmpty_iff.mp isEmpty]
    · exact isWaiting.symm ▸ ok.account

theorem SlabInv.append (inv : s.SlabInv free) (freeing : (s.backends tid).freeing = some ptr)
    (unmarked : (s.backends tid).pc.marks = false)
    (isOpen : lastEpoch (addList newList (s.backends tid).lists) = none)
    (closed : newList → (lastEpoch (s.backends tid).lists).isSome) :
    s.Settles free (s.append tid ptr newList) lossless := by
  have ok := inv.backend tid
  set lists := addToLast ptr (addList newList (s.backends tid).lists)
  have present : addList newList (s.backends tid).lists ≠ [] := by
    have pre := ok.lists (by simp [freeing])
    cases newList <;> simp [addList, pre]
  have isWaiting : waiting lists = waiting (s.backends tid).lists ++ [ptr] := by
    rw [waiting_addToLast ptr present, waiting_addList]
  have held : s.holds free (.freeing tid) ptr := freeing
  have notWaiting : ptr ∉ waiting (s.backends tid).lists := fun mem =>
    Place.noConfusion (inv.exclusive held (show s.holds free (.waiting tid) ptr from mem))
  set s' := s.append tid ptr newList
  have self : s'.backends tid =
      { s.backends tid with
        pc := .idle, lists := lists, freed := (s.backends tid).freed ++ [ptr] } :=
    backends_self ..
  have retires : Retires s tid s' := by
    refine ⟨fun other diff => backends_of_ne _ _ diff, by rw [self], rfl, rfl, rfl,
      Nat.le.refl, rfl, rfl, rfl, ?_, unmarked, by rw [self]; rfl⟩
    rw [self]
    intro list mem item contains epoch isClosed
    right
    rcases epoch_of_mem_addToLast mem with pre | isLast
    · rcases mem_of_mem_addList pre with old | isNew
      · exact ⟨list, old, contains, isClosed⟩
      · simp [isNew] at isClosed
    · rw [isLast, isOpen] at isClosed
      exact absurd isClosed (by simp)
  have relocates : Relocates (s.holds free) (s'.holds free) (· = ptr) (· = ptr) (.waiting tid) := by
    refine .single inv.exclusive held ?_ ?_ ?_ ?_
    · intro item isFreeing
      simp [holds, self, SlabBackend.freeing] at isFreeing
    · intro item isFreeing diff
      exact absurd (Option.some.inj (isFreeing.symm.trans freeing)) diff
    · simp [holds, self, isWaiting]
    · intro place notFreeing notWaiting item
      exact holds_at retires.others (fun _ => rfl) (fun _ => rfl) (absurd · notWaiting)
        (absurd · notFreeing)
  refine ⟨free, inv.retire retires inv.sound inv.chain inv.freeNodup
    (fun _ mem => ⟨mem, rfl⟩) inv.allocatedNodup ?_ relocates ?_ ?_,
    id, fun _ covered => covered_of_relocates covered relocates id .inl⟩
  · rw [self]
    rw [isWaiting]
    refine List.nodup_append.mpr ⟨inv.waitingNodup tid, by simp, ?_⟩
    rintro item mem _ isPtr rfl
    exact notWaiting (List.mem_singleton.mp isPtr ▸ mem)
  · rintro item rfl
    exact inv.issued held
  · rw [self]
    refine ⟨trivial, rfl, fun _ isBusy => absurd rfl isBusy, fun present => by
      simp [SlabBackend.freeing] at present, ?_, ?_⟩
    · exact (ok.ordered.addList fun isNew => ok.ordered.closed (closed isNew)).addToLast ptr
    · rw [isWaiting, ok.account, List.append_assoc]

theorem chain_push (chain : Chain s.links (.head ()) free)
    (same : s.freelistHead = s.links (.node tail)) :
    Chain (s.setLink (.head ()) (some tail)).links (.head ()) (tail :: free) := by
  have links : ∀ item, (s.setLink (.head ()) (some tail)).links (.node item) =
      s.links (.node item) := by
    intro item
    have diff : (Cell.node item : Cell Unit ItemPtr) ≠ .head () := by simp
    exact links_of_ne s (some tail) diff
  unfold Chain
  refine ⟨rfl, Segment.congr (fun item _ => links item) ?_⟩
  rw [links, ← same]
  exact chain

/-- The last item of the first list becomes the head of the free list, and the list is dropped.
Nothing is lost if it is the only item. -/
theorem SlabInv.reclaimed (inv : s.SlabInv free) (tid : Tid)
    (atSwap : (s.backends tid).pc = .pushSwap safe)
    (isFirst : (s.backends tid).lists.head? = some first)
    (isTail : first.pointers.getLast? = some tail) (same : s.freelistHead = s.links (.node tail)) :
    s.Settles free ((s.setLink (.head ()) (some tail)).reclaimed tid safe first)
      (first.pointers.length = 1) := by
  obtain ⟨rest, isLists⟩ : ∃ rest, (s.backends tid).lists = first :: rest :=
    List.head?_eq_some_iff.mp isFirst
  have ok := inv.backend tid
  have pc := ok.pc
  rw [atSwap] at pc
  obtain ⟨below, list, epoch, isList, isEpoch, isSafe⟩ := pc
  cases Option.some.inj (isFirst.symm.trans isList)
  have tailMem : tail ∈ first.pointers := List.mem_of_getLast? isTail
  have split : waiting (s.backends tid).lists = first.pointers ++ waiting rest := by
    simp [isLists, waiting]
  have waitingNodup := inv.waitingNodup tid
  rw [split] at waitingNodup
  have isHeld : ∀ {item}, item ∈ first.pointers → s.holds free (.waiting tid) item := by
    intro item mem
    simp [holds, split, mem]
  have tailFree : tail ∉ free := inv.waiting_notFree (isHeld tailMem)
  set s' := (s.setLink (.head ()) (some tail)).reclaimed tid safe first
  set be : SlabBackend :=
    { s.backends tid with
      pc := .check safe
      lists := dropFirst (s.backends tid).lists
      returned := (s.backends tid).returned ++ first.pointers }
  have self : s'.backends tid = be := backends_self ..
  have isWaiting : waiting be.lists = waiting rest := by
    change waiting (dropFirst (s.backends tid).lists) = waiting rest
    rw [isLists, waiting_dropFirst]
  have freeing : be.freeing = (s.backends tid).freeing := by simp [SlabBackend.freeing, be, atSwap]
  have links : ∀ item, s'.links (.node item) = s.links (.node item) := by
    intro item
    have diff : (Cell.node item : Cell Unit ItemPtr) ≠ .head () := by simp
    exact links_of_ne s (some tail) diff
  have retires : Retires s tid s' := by
    refine ⟨fun other diff => backends_of_ne _ _ diff, by rw [self], rfl, rfl, rfl,
      Nat.le.refl, rfl, rfl, rfl, ?_, by simp [atSwap, SlabPc.marks], by rw [self]; rfl⟩
    rw [self]
    intro list mem item contains closed isClosed
    rcases mem_of_mem_dropFirst mem with old | isNew
    · exact .inr ⟨list, old, contains, isClosed⟩
    · simp [isNew] at isClosed
  have relocates : Relocates (s.holds free) (s'.holds (tail :: free))
      (· ∈ first.pointers) (· = tail) .free := by
    have elsewhere : ∀ (place : Place) {item}, place ≠ .waiting tid →
        s.holds free place item → item ∉ first.pointers :=
      fun _ _ diff held mem => diff (inv.exclusive held (isHeld mem))
    have unchanged (place item) (notFree : place ≠ .free) (notWaiting : place ≠ .waiting tid) :
        s'.holds (tail :: free) place item ↔ s.holds free place item :=
      holds_at retires.others (fun _ => rfl) (absurd · notFree) (absurd · notWaiting)
        (fun _ => by rw [self, freeing])
    refine ⟨fun isTail => isTail ▸ tailMem, fun place item => ?_⟩
    by_cases isFree : place = .free
    · subst isFree
      simp only [holds, List.mem_cons, true_and]
      constructor
      · rintro (isTail | held)
        · exact .inr isTail
        · exact .inl ⟨held, elsewhere .free (by simp) held⟩
      · rintro (⟨held, -⟩ | isTail)
        · exact .inr held
        · exact .inl isTail
    · by_cases isSelf : place = .waiting tid
      · subst isSelf
        simp only [holds, self, isWaiting, split, List.mem_append, isFree, false_and, or_false]
        constructor
        · exact fun later => ⟨.inr later, fun mem =>
            (List.nodup_append.mp waitingNodup).2.2 item mem item later rfl⟩
        · exact fun both => both.1.resolve_left both.2
      · simp only [isFree, false_and, or_false, unchanged place item isFree isSelf]
        exact ⟨fun held => ⟨held, elsewhere place isSelf held⟩, And.left⟩
  refine ⟨tail :: free, inv.retire retires inv.sound (chain_push inv.chain same)
    (List.nodup_cons.mpr ⟨tailFree, inv.freeNodup⟩) ?_ inv.allocatedNodup ?_ relocates ?_ ?_, id,
    fun single covered => ?_⟩
  · intro e item popping mem
    refine ⟨(List.mem_cons.mp mem).resolve_left ?_, links item⟩
    -- The allocator published its entry after the epoch of the list ended.
    rintro rfl
    obtain ⟨slot, published, -, isPublished, recent⟩ := popping
    have late := recent tid first (by simp [isLists]) tailMem epoch isEpoch
    have early := (inv.sound.published isPublished).2.1
    exact Nat.lt_irrefl _ (Nat.lt_of_lt_of_le early (Nat.le_trans late isSafe))
  · rw [self, isWaiting]
    exact (List.nodup_append.mp waitingNodup).2.1
  · rintro item rfl
    exact inv.issued (isHeld tailMem)
  · have within := ok.within
    rw [atSwap] at within
    rw [self]
    refine ⟨below, within, fun isAllocate _ => ok.entry isAllocate (by simp [atSwap]), ?_,
      ok.ordered.dropFirst, ?_⟩
    · exact fun present => dropFirst_ne_nil (ok.lists (freeing ▸ present))
    · rw [isWaiting]
      rw [ok.account, split, List.append_assoc]
  · refine covered_of_relocates covered relocates (fun {item} mem => ?_)
      fun issued => .inl (retires.issued issued)
    obtain ⟨only, isOnly⟩ := List.length_eq_one_iff.mp single
    rw [isOnly] at mem isTail
    simp only [List.getLast?_singleton, Option.some.injEq] at isTail
    exact isTail ▸ List.mem_singleton.mp mem

end SharedSlab

end PgAqp.Mmgr
