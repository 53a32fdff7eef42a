import PgAqp.Mmgr.SlabRetire

/-!
# The steps of the shared slab allocator keep its invariant

An allocator reads the offset and then the newest chunk, and swaps the offset later.
The offset restarts in every chunk, so the swap can succeed with the chunk of an
earlier turn.
-/

namespace PgAqp.Mmgr

open Library Function List Option SlabPc SlabBackend

namespace SharedSlab

variable {s : SharedSlab} {free : List ItemPtr} {tid : Tid} {lossless : Prop}

theorem SlabInv.epochStep (inv : s.SlabInv free) (epochs : Epochs) (be : SlabBackend)
    (sound : epochs.Sound) (safe : s.epochs.safeEpoch ≤ epochs.safeEpoch)
    (later : s.epochs.globalEpoch ≤ epochs.globalEpoch)
    (published : ∀ other ≠ tid, ∀ slot, (s.backends other).entry = some slot →
      epochs.published slot = s.epochs.published slot) (lists : be.lists = (s.backends tid).lists)
    (freeing : be.freeing = (s.backends tid).freeing)
    (inUse : ∀ slot, be.entry = some slot → (epochs.published slot).isSome)
    (own : ∀ slot, be.entry = some slot → ∀ other ≠ tid, (s.backends other).entry ≠ some slot)
    (unmarked : (s.backends tid).pc.marks = false) (rests : be.pc = .idle ∨ be.pc = .readSafe)
    (ok : ({ s with epochs := epochs } : SharedSlab).BackendOk free be) :
    s.Settles free (({ s with epochs := epochs } : SharedSlab).setBackend tid be) lossless := by
  set s' := ({ s with epochs := epochs } : SharedSlab).setBackend tid be
  have self : s'.backends tid = be := backends_self ..
  have others : ∀ other ≠ tid, s'.backends other = s.backends other :=
    fun other diff => backends_of_ne _ _ diff
  have allLists : ∀ other, (s'.backends other).lists = (s.backends other).lists := by
    intro other
    by_cases isSelf : other = tid
    · rw [isSelf, self, lists]
    · rw [others other isSelf]
  have steady : Steady s free tid s' free := by
    refine ⟨others, rfl, safe, later, fun other diff item popping => ?_,
      fun _ _ _ => ⟨rfl, rfl, id⟩⟩
    obtain ⟨slot, epoch, isSlot, isPublished, recent⟩ := popping
    refine ⟨⟨slot, epoch, isSlot, (published other diff slot isSlot).trans isPublished, ?_⟩,
      fun mem => ⟨mem, rfl⟩⟩
    intro tid' list mem
    rw [allLists] at mem
    exact recent tid' list mem
  have relocates : Relocates (s.holds free) (s'.holds free) _ _ _ :=
    relocates_none fun _ _ => holds_at others (fun _ => rfl) (fun _ => rfl)
      (fun _ => by rw [allLists]) (fun _ => by rw [self, freeing])
  refine ⟨free, inv.step steady sound inv.chain inv.freeNodup inv.allocatedNodup ?_ relocates id
    False.elim ?_ ?_ ?_, id, fun _ covered => covered_of_relocates covered relocates False.elim .inl⟩
  · rw [allLists]
    exact inv.waitingNodup tid
  · constructor
    · intro other slot holdsSlot
      by_cases isSelf : other = tid
      · rw [isSelf, self] at holdsSlot
        exact inUse slot holdsSlot
      · rw [others other isSelf] at holdsSlot
        have kept := published other isSelf slot holdsSlot
        change (epochs.published slot).isSome
        rw [kept]
        exact inv.entries.inUse holdsSlot
    · intro first second slot firstHolds secondHolds
      by_cases firstSelf : first = tid
      · by_cases secondSelf : second = tid
        · rw [firstSelf, secondSelf]
        · rw [firstSelf, self] at firstHolds
          rw [others second secondSelf] at secondHolds
          exact absurd secondHolds (own slot firstHolds second secondSelf)
      · rw [others first firstSelf] at firstHolds
        by_cases secondSelf : second = tid
        · rw [secondSelf, self] at secondHolds
          exact absurd firstHolds (own slot secondHolds first firstSelf)
        · rw [others second secondSelf] at secondHolds
          exact inv.entries.unique firstHolds secondHolds
  · rw [self]
    refine ⟨?_, ok.within, ok.entry, ok.lists, ok.ordered, ok.account⟩
    rcases rests with rests | rests <;> rw [rests] <;> trivial
  · refine inv.chunk.frame others rfl rfl inv.chunk.offset ?_ ?_
    · rw [self]
      rcases rests with rests | rests <;> rw [rests] <;> exact fun marks => Bool.noConfusion marks
    · intro cur new atPublish
      rw [atPublish] at unmarked
      exact Bool.noConfusion unmarked

def swapsCurrent (s : SharedSlab) : SlabPc → Bool
  | .swapOffset off chunkHead =>
    decide (s.unallocatedOffset = off → chunkHead = s.offsetChunk)
  | _ => true

/-- `shared_slab_free` puts a pointer on a list without an epoch, as it asserts. -/
def appendsOpen (s : SharedSlab) (tid : Tid) : Bool :=
  (s.backends tid).lists.getLast?.all fun last =>
    decide (last.pointers.length = (s.backends tid).deallocListCapacity) || last.epoch.isNone

def pushesSingle (s : SharedSlab) (tid : Tid) : SlabPc → Bool
  | .pushSwap _ => (s.backends tid).lists.head?.all fun first => decide (first.pointers.length = 1)
  | _ => true

variable (inv : s.SlabInv free)
include inv

theorem SlabInv.tryHead (isAllocate : (s.backends tid).call = .allocate)
    (atPc : (s.backends tid).pc = pre) (plain : pre.plain) :
    s.Settles free (s.tryHead tid) lossless := by
  unfold SharedSlab.tryHead
  cases isHead : s.freelistHead with
  | none => exact inv.proceed .readOffset atPc ⟨plain, rfl⟩ (by simp [within, isAllocate]) trivial
  | some head =>
    refine inv.proceed (.popNext head) atPc ⟨plain, rfl⟩ (by simp [within, isAllocate]) ?_
    obtain ⟨rest, rfl, -⟩ := inv.head_mem isHead
    obtain ⟨slot, isSlot⟩ := isSome_iff_exists.mp ((inv.backend tid).entry isAllocate
      (atPc ▸ (plain_iff.mp plain).1))
    obtain ⟨epoch, isPublished⟩ := isSome_iff_exists.mp (inv.entries.inUse isSlot)
    refine ⟨slot, epoch, isSlot, isPublished, fun other list mem contains => ?_⟩
    -- The head of the free list is on no deallocation list.
    have waits : head ∈ waiting (s.backends other).lists := mem_flatMap.mpr ⟨list, mem, contains⟩
    exact absurd (by simp) (inv.waiting_notFree waits)

theorem SlabInv.tryOffset (isAllocate : (s.backends tid).call = .allocate)
    (atPc : (s.backends tid).pc = pre) (plain : pre.plain) :
    s.Settles free (s.tryOffset tid) lossless := by
  unfold SharedSlab.tryOffset
  split
  next fits =>
    exact inv.proceed (.readChunk _) atPc ⟨plain, rfl⟩ (by simp [within, isAllocate]) fits
  · exact inv.proceed .chunkRead atPc ⟨plain, rfl⟩ (by simp [within, isAllocate]) trivial

variable {e : Nat}

theorem SlabInv.reclaimDone (atCheck : (s.backends tid).pc = .check safe)
    (ends : (s.backends tid).lists.head?.bind (·.epoch) = none ∨
      s.waits tid (s.backends tid).call = false) :
    s.Settles free (s.reclaimDone tid) lossless := by
  have within := (inv.backend tid).within
  rw [atCheck] at within
  unfold SharedSlab.reclaimDone
  generalize isCall : (s.backends tid).call = call at within ends
  cases call with
  | free ptr =>
    refine inv.append (by simp [freeing, SlabCall.item, atCheck, isCall])
      (by simp [atCheck, marks]) ?_ (fun isNew => (Bool.and_eq_true_iff.mp isNew).2)
    cases isLast : lastEpoch (s.backends tid).lists with
    | none => simpa [addList] using isLast
    | some epoch =>
      have isNowait : (s.backends tid).deallocNowait := by
        rcases ends with isFirst | stops
        · exact absurd (isLast.symm.trans
            ((inv.backend tid).ordered.lastEpoch_eq_none isFirst)) (by simp)
        · simpa [waits] using stops
      simp [addList, isNowait, lastEpoch]
  | reclaim wait =>
    exact inv.goTo .idle (by simp [atCheck]) (.inr (by simp [isCall, SlabCall.item]))
      (fun marks => Bool.noConfusion marks)
      (by simp [atCheck]) rfl trivial
  | allocate => simp [SlabPc.within] at within
  | newChunk => simp [SlabPc.within] at within

theorem SlabInv.reclaimNext (atCheck : (s.backends tid).pc = .check safe) :
    s.Settles free (s.reclaimNext tid safe) lossless := by
  have ok := inv.backend tid
  have below : safe ≤ s.epochs.safeEpoch := by
    have pc := ok.pc
    rw [atCheck] at pc
    exact pc
  have within : ∀ pc : SlabPc, (∀ call, pc.within call = within (.check safe) call) →
      pc.within (s.backends tid).call := by
    intro pc same
    rw [same, ← atCheck]
    exact ok.within
  unfold SharedSlab.reclaimNext
  cases isFirst : (s.backends tid).lists.head?.bind (·.epoch) with
  | none => exact inv.reclaimDone atCheck (.inl isFirst)
  | some epoch =>
    obtain ⟨first, isHead, isEpoch⟩ := bind_eq_some_iff.mp isFirst
    simp only
    split
    next isSafe =>
      exact inv.proceed (.link safe 0) atCheck ⟨rfl, rfl⟩ (within _ fun _ => rfl)
        ⟨below, first, epoch, isHead, isEpoch, Nat.le_trans isSafe below⟩
    · split
      · exact inv.proceed (.await safe) atCheck ⟨rfl, rfl⟩ (within _ fun _ => rfl) below
      next stops => exact inv.reclaimDone atCheck (.inr (by simpa using stops))

theorem SlabInv.chunkReturn (atWait : (s.backends tid).pc = .chunkWait) :
    s.Settles free (s.chunkDone tid) lossless := by
  unfold SharedSlab.chunkDone
  rcases inv.allocates atWait fun _ => rfl with isAllocate | isNewChunk
  · simp only [isAllocate]
    exact inv.proceed .popHead atWait ⟨rfl, rfl⟩ (by simp [within, isAllocate]) trivial
  · simp only [isNewChunk]
    exact inv.goTo .idle (by simp [atWait]) (.inr (by simp [isNewChunk, SlabCall.item]))
        (fun marks => Bool.noConfusion marks)
      (by simp [atWait]) rfl trivial

omit inv

theorem mem_waiting_of_first {lists : List DeallocList}
    (isFirst : lists.head? = some first) (mem : item ∈ first.pointers) : item ∈ waiting lists :=
  mem_flatMap.mpr ⟨first, mem_of_head? isFirst, mem⟩

theorem mem_of_writable (writable : s.writable tid item) :
    item ∈ waiting (s.backends tid).lists := by
  unfold SharedSlab.writable at writable
  split at writable
  · have inTail := of_decide_eq_true writable
    obtain ⟨list, mem, contains⟩ := mem_flatMap.mp inTail
    exact mem_flatMap.mpr ⟨list, mem_of_mem_tail mem, contains⟩
  · exact of_decide_eq_true writable

variable (inv : s.SlabInv free)
include inv

theorem SlabInv.slot_ne (isEntry : (s.backends tid).entry = some e) (diff : other ≠ tid)
    (holdsSlot : (s.backends other).entry = some slot) : slot ≠ e := by
  rintro rfl
  exact diff (inv.entries.unique holdsSlot isEntry)

theorem SlabInv.republish {be : SlabBackend} (isEntry : (s.backends tid).entry = some e)
    (same : be.entry = (s.backends tid).entry) (lists : be.lists = (s.backends tid).lists)
    (freeing : be.freeing = (s.backends tid).freeing) (unmarked : (s.backends tid).pc.marks = false)
    (rests : be.pc = .idle ∨ be.pc = .readSafe)
    (ok : ({ s with epochs := s.epochs.publish e } : SharedSlab).BackendOk free be) :
    s.Settles free (({ s with epochs := s.epochs.publish e } : SharedSlab).setBackend tid be)
      lossless := by
  obtain ⟨epoch, isPublished⟩ := isSome_iff_exists.mp (inv.entries.inUse isEntry)
  refine inv.epochStep (s.epochs.publish e) be
    (inv.sound.publish (inv.sound.published isPublished).1) Nat.le.refl Nat.le.refl ?_ lists
    freeing ?_ ?_ unmarked rests ok
  · intro other diff slot holdsSlot
    exact update_of_ne (inv.slot_ne isEntry diff holdsSlot) ..
  · intro slot isSlot
    cases some.inj (isEntry.symm.trans (same ▸ isSlot))
    simp [Epochs.publish]
  · intro slot isSlot other diff holdsSlot
    cases some.inj (isEntry.symm.trans (same ▸ isSlot))
    exact inv.slot_ne isEntry diff holdsSlot rfl

theorem SlabInv.bumpEntry (atEntry : (s.backends tid).pc = .bumpEntry)
    (isEntry : (s.backends tid).entry = some e) :
    s.Settles free (({ s with epochs := s.epochs.publish e } : SharedSlab).goTo tid .readSafe)
      lossless := by
  have ok := inv.backend tid
  have within := ok.within
  rw [atEntry] at within
  have freeing : ({ s.backends tid with pc := .readSafe } : SlabBackend).freeing =
      (s.backends tid).freeing := by simp [freeing, atEntry]
  exact inv.republish isEntry rfl rfl freeing (by simp [atEntry, marks]) (.inr rfl)
    ⟨trivial, within, fun isAllocate _ => ok.entry isAllocate (by simp [atEntry]),
      fun present => ok.lists (freeing ▸ present), ok.ordered, ok.account⟩

/-- An access that swaps for the current chunk settles, and loses nothing if it pushes single
items. -/
theorem SlabInv.access (tid : Tid) (current : s.swapsCurrent (s.backends tid).pc)
    (stepped : s.access tid = some s') :
    s.Settles free s' (s.pushesSingle tid (s.backends tid).pc) := by
  have ok := inv.backend tid
  have within := ok.within
  have pcOk := ok.pc
  unfold SharedSlab.access at stepped
  generalize isPc : (s.backends tid).pc = pc at within pcOk current stepped
  cases pc with
  | idle => simp at stepped
  | popHead =>
    cases stepped
    exact inv.tryHead (of_decide_eq_true within) isPc rfl
  | popNext head =>
    cases stepped
    exact inv.proceed (.popSwap head _) isPc ⟨rfl, rfl⟩ within ⟨pcOk, fun _ => rfl⟩
  | popSwap head next =>
    cases stepped
    split
    · exact inv.pop isPc ‹_›
    · exact inv.tryHead (of_decide_eq_true within) isPc rfl
  | readOffset =>
    cases stepped
    exact inv.tryOffset (of_decide_eq_true within) isPc rfl
  | readChunk off =>
    cases stepped
    split
    · exact inv.proceed .readOffset isPc ⟨rfl, rfl⟩ within trivial
    · exact inv.proceed (.swapOffset off _) isPc ⟨rfl, rfl⟩ within pcOk
  | swapOffset off chunkHead =>
    cases stepped
    split
    next same =>
      subst same
      exact inv.cut isPc (of_decide_eq_true current rfl)
    · exact inv.tryOffset (of_decide_eq_true within) isPc rfl
  | chunkRead =>
    cases stepped
    split
    · exact inv.proceed .chunkWait isPc ⟨rfl, rfl⟩ within trivial
    · exact inv.proceed (.chunkMark _) isPc ⟨rfl, rfl⟩ within trivial
  | chunkWait =>
    cases stepped
    split
    · exact inv.chunkReturn isPc
    · exact inv.proceed .chunkRead isPc ⟨rfl, rfl⟩ within trivial
  | chunkMark cur =>
    cases stepped
    split
    · exact inv.mark isPc ‹_›
    · exact inv.proceed .chunkWait isPc ⟨rfl, rfl⟩ within trivial
  | chunkCheck cur =>
    cases stepped
    split
    · exact inv.goTo (.chunkUnmark ⟨cur, true⟩) (by simp [isPc]) (.inl (by simp))
        (by simp [isPc, marks]) (by simp [isPc]) within ⟨pcOk, rfl⟩
    next full =>
      exact inv.goTo (.chunkReset cur) (by simp [isPc]) (.inl (by simp))
        (by simp [isPc, marks]) (by simp [isPc]) within
        ⟨pcOk, by simpa using full⟩
  | chunkUnmark cur =>
    have marks : (s.backends tid).pc.marks := by simp [isPc, marks]
    have newest := inv.newest_of_marks marks (by simp [isPc])
    cases stepped
    rw [if_pos pcOk.1, ← pcOk.1, newest]
    exact inv.chunkDone marks (inv.allocates isPc fun _ => rfl)
  | chunkReset cur =>
    cases stepped
    exact inv.reset isPc
  | chunkPublish cur new =>
    have marks : (s.backends tid).pc.marks := by simp [isPc, marks]
    cases stepped
    rw [if_pos pcOk.1, pcOk.2.2]
    exact inv.chunkDone marks (inv.allocates isPc fun _ => rfl)
  | bump =>
    cases stepped
    exact inv.bump isPc
  | bumpEntry =>
    cases isEntry : (s.backends tid).entry with
    | none =>
      simp only [isEntry] at stepped
      cases stepped
      exact inv.proceed .readSafe isPc ⟨rfl, rfl⟩ within trivial
    | some e =>
      simp only [isEntry] at stepped
      cases stepped
      exact inv.bumpEntry isPc isEntry
  | readSafe =>
    cases stepped
    exact inv.proceed (.check _) isPc ⟨rfl, rfl⟩ within Nat.le.refl
  | check safe =>
    cases stepped
    exact inv.reclaimNext isPc
  | await safe =>
    obtain ⟨epoch, isFirst, stepped⟩ := bind_eq_some_iff.mp stepped
    obtain ⟨first, isHead, isEpoch⟩ := bind_eq_some_iff.mp isFirst
    obtain ⟨isSafe, stepped⟩ := ite_none_right_eq_some.mp stepped
    cases stepped
    exact inv.proceed (.link safe 0) isPc ⟨rfl, rfl⟩ within
      ⟨pcOk, first, epoch, isHead, isEpoch, isSafe⟩
  | link safe i =>
    obtain ⟨first, isFirst, rfl⟩ := map_eq_some_iff.mp stepped
    cases isPtr : first.pointers[i]? with
    | none => exact inv.proceed (.pushRead safe) isPc ⟨rfl, rfl⟩ within pcOk
    | some ptr =>
      cases isNext : first.pointers[i + 1]? with
      | none => exact inv.proceed (.pushRead safe) isPc ⟨rfl, rfl⟩ within pcOk
      | some next =>
        exact inv.linkStep (mem_waiting_of_first isFirst (mem_of_getElem? isPtr))
          (some next) (.link safe (i + 1)) (by simp [isPc, SlabPc.links]) rfl within pcOk
  | pushRead safe =>
    obtain ⟨tail, isTail, rfl⟩ := map_eq_some_iff.mp stepped
    obtain ⟨first, isFirst, isLast⟩ := bind_eq_some_iff.mp isTail
    exact inv.linkStep (mem_waiting_of_first isFirst (mem_of_getLast? isLast)) _
      (.pushSwap safe) (by simp [isPc, SlabPc.links]) rfl within pcOk
  | pushSwap safe =>
    obtain ⟨first, isFirst, stepped⟩ := bind_eq_some_iff.mp stepped
    obtain ⟨tail, isTail, rfl⟩ := map_eq_some_iff.mp stepped
    have settles := inv.reclaimed tid isPc isFirst isTail
    split
    next same =>
      have isSingle : s.pushesSingle tid (.pushSwap safe) →
          first.pointers.length = 1 := by simp [pushesSingle, isFirst]
      obtain ⟨free', inv', carves, covers⟩ := settles same
      exact ⟨free', inv', carves, fun single => covers (isSingle single)⟩
    · have notFree := inv.waiting_notFree (mem_waiting_of_first isFirst (mem_of_getLast? isTail))
      exact ⟨free, inv.setLink notFree _, id, fun _ covered => covered⟩

theorem SlabInv.advance (forward : s.epochs.safeEpoch ≤ epoch) (ended : s.epochs.ended epoch) :
    ({ s with epochs := s.epochs.advance epoch } : SharedSlab).SlabInv free :=
  { inv with
    sound := inv.sound.advance ended
    entries := ⟨inv.entries.inUse, inv.entries.unique⟩
    backend tid := by
      -- No backend takes the step, so any other one may stand for the one that does.
      have steady : Steady s free (tid + 1)
          { s with epochs := s.epochs.advance epoch } free :=
        ⟨fun _ _ => rfl, rfl, forward, Nat.le.refl, fun _ _ _ popping =>
          ⟨popping.congr rfl fun _ => rfl, fun mem => ⟨mem, rfl⟩⟩, fun _ _ _ => ⟨rfl, rfl, id⟩⟩
      exact steady.backendOk (Nat.ne_of_lt (Nat.lt_succ_self tid)) (inv.backend tid)
    chunk := ⟨inv.chunk.offset, inv.chunk.newest, inv.chunk.unique⟩ }

theorem SlabInv.enter (call : SlabCall) (pc : SlabPc) (isIdle : (s.backends tid).pc = .idle)
    (item : call.item = none) (marks : pc.marks = false) (within : pc.within call)
    (e : call = .allocate → (s.backends tid).entry.isSome)
    (ok : s.PcOk free (s.backends tid).entry (s.backends tid).lists pc) :
    s.Settles free (s.enter tid call pc) lossless := by
  have pre := inv.backend tid
  refine inv.setBackend { s.backends tid with call := call, pc := pc } rfl rfl ?_ ?_
    (by simp [isIdle]) ?_
  · simp [freeing, isIdle, item]
  · rw [marks]
    exact fun isMarking => Bool.noConfusion isMarking
  · refine ⟨ok, within, fun isAllocate _ => e isAllocate, fun present => ?_, pre.ordered,
      pre.account⟩
    simp [freeing, item] at present

variable (isIdle : (s.backends tid).pc = .idle)
include isIdle

theorem SlabInv.acquire (below : e < s.epochs.entries) (isFree : s.epochs.published e = none) :
    s.Settles free (({ s with epochs := s.epochs.publish e } : SharedSlab).setBackend tid
        { s.backends tid with entry := some e }) lossless := by
  have ok := inv.backend tid
  have notHeld : ∀ {other slot}, (s.backends other).entry = some slot → slot ≠ e := by
    rintro other slot holdsSlot rfl
    have inUse := inv.entries.inUse holdsSlot
    rw [isFree] at inUse
    exact Bool.noConfusion inUse
  refine inv.epochStep (s.epochs.publish e) { s.backends tid with entry := some e }
    (inv.sound.publish below) Nat.le.refl Nat.le.refl ?_ rfl rfl ?_ ?_
    (by simp [isIdle, marks]) (.inl isIdle) ?_
  · exact fun other _ slot holdsSlot => update_of_ne (notHeld holdsSlot) ..
  · intro slot isSlot
    cases isSlot
    simp [Epochs.publish]
  · intro slot isSlot other _ holdsSlot
    cases isSlot
    exact notHeld holdsSlot rfl
  · refine ⟨?_, ok.within, fun _ isBusy => absurd isIdle isBusy, ok.lists, ok.ordered, ok.account⟩
    rw [isIdle]
    trivial

theorem SlabInv.release (isEntry : (s.backends tid).entry = some e) : s.Settles free
      (({ s with epochs := s.epochs.release e } : SharedSlab).setBackend tid
        { s.backends tid with entry := none }) lossless := by
  have ok := inv.backend tid
  refine inv.epochStep (s.epochs.release e) { s.backends tid with entry := none }
    (inv.sound.release e) Nat.le.refl Nat.le.refl ?_ rfl rfl
    (fun _ isSlot => absurd isSlot (by simp)) (fun _ isSlot => absurd isSlot (by simp))
    (by simp [isIdle, marks]) (.inl isIdle) ?_
  · exact fun other diff slot holdsSlot => update_of_ne (inv.slot_ne isEntry diff holdsSlot) ..
  · refine ⟨?_, ok.within, fun _ isBusy => absurd isIdle isBusy, ok.lists, ok.ordered, ok.account⟩
    rw [isIdle]
    trivial

theorem SlabInv.refresh (isEntry : (s.backends tid).entry = some e) :
    s.Settles free { s with epochs := s.epochs.publish e } lossless := by
  have ok := inv.backend tid
  have unchanged : ({ s with epochs := s.epochs.publish e } : SharedSlab).setBackend tid
      (s.backends tid) = { s with epochs := s.epochs.publish e } := by
    simp [SharedSlab.setBackend]
  rw [← unchanged]
  refine inv.republish isEntry rfl rfl rfl (by simp [isIdle, marks]) (.inl isIdle)
    ⟨?_, ok.within, ok.entry, ok.lists, ok.ordered, ok.account⟩
  rw [isIdle]
  trivial

theorem SlabInv.startFree (mem : ptr ∈ s.allocated) (appends : s.appendsOpen tid) :
    s.Settles free (s.startFree tid ptr) lossless := by
  have entered : s.Settles free (s.enterFree tid ptr) lossless := inv.enterFree isIdle mem
  have self : (s.enterFree tid ptr).backends tid =
      { s.backends tid with
        call := .free ptr
        pc := .bump
        lists := addList (s.backends tid).lists.isEmpty (s.backends tid).lists } :=
    backends_self ..
  have appended : lastEpoch (addList (s.backends tid).lists.isEmpty (s.backends tid).lists) = none →
      s.Settles free ((s.enterFree tid ptr).append tid ptr false) lossless := by
    refine fun isOpen => entered.trans fun inv' => inv'.append ?_ ?_ ?_ ?_
    · rw [self]
      rfl
    · rw [self]
      rfl
    · rw [self]
      exact isOpen
    · exact fun isNew => Bool.noConfusion isNew
  unfold SharedSlab.startFree
  cases isLast : (s.backends tid).lists.getLast? with
  | none =>
    rw [getLast?_eq_none_iff.mp isLast] at appended
    exact appended rfl
  | some last =>
    simp only
    split
    · exact entered
    next notFull =>
      refine appended ?_
      have present : (s.backends tid).lists.isEmpty = false := by
        rw [isEmpty_eq_false_iff]
        rintro isEmpty
        simp [isEmpty] at isLast
      have isOpen : last.epoch = none := by simpa [appendsOpen, isLast, notFull] using appends
      simp [present, addList, lastEpoch, isLast, isOpen]

omit isIdle

theorem SlabInv.startReclaim (wait : Bool) (isIdle : (s.backends tid).pc = .idle) :
    s.Settles free (s.startReclaim tid wait) lossless := by
  have unchanged : s.Settles free s lossless := ⟨free, inv, id, fun _ => id⟩
  unfold SharedSlab.startReclaim
  split
  · split
    · exact unchanged
    · split
      · exact inv.enter (.reclaim wait) .bump isIdle rfl rfl rfl
          (fun isAllocate => SlabCall.noConfusion isAllocate) trivial
      · exact inv.enter (.reclaim wait) .readSafe isIdle rfl rfl rfl
          (fun isAllocate => SlabCall.noConfusion isAllocate) trivial
  · exact unchanged

end SharedSlab

def SlabLabel.accesses : SlabLabel → Option Tid
  | .step tid => some tid
  | _ => none

/-- The backend that calls `shared_slab_free`. -/
def SlabLabel.frees : SlabLabel → Option Tid
  | .free tid _ => some tid
  | _ => none

/-- A step in which no offset is swapped for an earlier chunk, and no pointer is put on a list
that has an epoch. -/
def Current (s : SharedSlab) (label : SlabLabel) : Prop :=
  label.accesses.all (fun tid => s.swapsCurrent (s.backends tid).pc) = true ∧
    label.frees.all (fun tid => s.appendsOpen tid) = true
  deriving Decidable

def Single (s : SharedSlab) (label : SlabLabel) : Prop :=
  label.accesses.all (fun tid => s.pushesSingle tid (s.backends tid).pc) = true
  deriving Decidable

theorem slabNext_settles (inv : s.SlabInv free) (current : Current s label)
    (stepped : slabNext s label = some s') :
    s.Settles free s' (Single s label) := by
  cases label with
  | acquire tid e =>
    obtain ⟨⟨isIdle, -, below, isFree⟩, stepped⟩ := ite_none_right_eq_some.mp stepped
    cases stepped
    exact inv.acquire isIdle below isFree
  | release tid =>
    obtain ⟨isIdle, stepped⟩ := ite_none_right_eq_some.mp stepped
    obtain ⟨e, isEntry, rfl⟩ := map_eq_some_iff.mp stepped
    exact inv.release isIdle isEntry
  | refresh tid =>
    obtain ⟨isIdle, stepped⟩ := ite_none_right_eq_some.mp stepped
    obtain ⟨e, isEntry, rfl⟩ := map_eq_some_iff.mp stepped
    exact inv.refresh isIdle isEntry
  | advance epoch =>
    obtain ⟨⟨forward, ended⟩, stepped⟩ := ite_none_right_eq_some.mp stepped
    cases stepped
    exact ⟨free, inv.advance forward ended, id, fun _ covered => covered⟩
  | allocate tid =>
    obtain ⟨⟨isIdle, isEntry⟩, stepped⟩ := ite_none_right_eq_some.mp stepped
    cases stepped
    exact inv.enter .allocate .popHead isIdle rfl rfl rfl (fun _ => isEntry) trivial
  | newChunk tid =>
    obtain ⟨isIdle, stepped⟩ := ite_none_right_eq_some.mp stepped
    cases stepped
    exact inv.enter .newChunk .chunkRead isIdle rfl rfl rfl
      (fun isAllocate => SlabCall.noConfusion isAllocate) trivial
  | free tid ptr =>
    obtain ⟨⟨isIdle, mem⟩, stepped⟩ := ite_none_right_eq_some.mp stepped
    cases stepped
    exact inv.startFree isIdle mem current.2
  | reclaim tid wait =>
    obtain ⟨isIdle, stepped⟩ := ite_none_right_eq_some.mp stepped
    cases stepped
    exact inv.startReclaim wait isIdle
  | write ptr value =>
    obtain ⟨mem, stepped⟩ := ite_none_right_eq_some.mp stepped
    cases stepped
    have notFree : ptr ∉ free := fun isFree => Place.noConfusion
      (inv.exclusive (show s.holds free .allocated ptr from mem)
        (show s.holds free .free ptr from isFree))
    exact ⟨free, inv.setLink notFree value, id, fun _ covered => covered⟩
  | writeFreed tid ptr value =>
    obtain ⟨writable, stepped⟩ := ite_none_right_eq_some.mp stepped
    cases stepped
    exact ⟨free, inv.setLink (inv.waiting_notFree (SharedSlab.mem_of_writable writable)) value,
      id, fun _ covered => covered⟩
  | step tid => exact inv.access tid current.1 stepped

end PgAqp.Mmgr
