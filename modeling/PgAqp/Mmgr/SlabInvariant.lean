import PgAqp.Library.Ledger
import PgAqp.Mmgr.SharedSlab

/-!
# Where the items of the slab are

An allocator that has read an item as the head of the free list may be overtaken:
the item is handed out, freed and put on a list.  But the list gets its epoch after
the allocator published its entry, so the item does not come back to the free list
before the allocator is done.
-/

namespace PgAqp.Mmgr

open Library SlabPc

/-- The item that a running `shared_slab_free` has not put on a list yet. -/
def SlabCall.item : SlabCall → Option ItemPtr
  | .free ptr => some ptr
  | _ => none

def SlabBackend.freeing (be : SlabBackend) : Option ItemPtr :=
  if be.pc = .idle then none else be.call.item

inductive Place where
  | allocated
  | free
  | waiting (tid : Tid)
  | freeing (tid : Tid)
  deriving DecidableEq

def SlabPc.within : SlabPc → SlabCall → Bool
  | .idle, _ => true
  | .popHead, call | .popNext _, call | .popSwap _ _, call | .readOffset, call
  | .readChunk _, call | .swapOffset _ _, call => decide (call = .allocate)
  | .chunkRead, call | .chunkWait, call | .chunkMark _, call | .chunkCheck _, call
  | .chunkUnmark _, call | .chunkReset _, call | .chunkPublish _ _, call =>
    decide (call = .allocate ∨ call = .newChunk)
  | _, call => decide (call ≠ .allocate ∧ call ≠ .newChunk)

def SlabPc.marks : SlabPc → Bool
  | .chunkCheck _ => true
  | .chunkUnmark _ => true
  | .chunkReset _ => true
  | .chunkPublish _ _ => true
  | _ => false

def SlabPc.plain : SlabPc → Bool
  | .idle => false
  | pc => !pc.marks

theorem SlabPc.plain_iff {pc : SlabPc} : pc.plain ↔ pc ≠ .idle ∧ pc.marks = false := by
  cases pc <;> simp [plain, marks]

namespace SharedSlab

variable (s : SharedSlab) (free : List ItemPtr)

def holds : Place → ItemPtr → Prop
  | .allocated, item => item ∈ s.allocated
  | .free, item => item ∈ free
  | .waiting tid, item => item ∈ waiting (s.backends tid).lists
  | .freeing tid, item => (s.backends tid).freeing = some item

def Issued (item : Nat) : Prop :=
  ∃ chunk i : Nat, item = (chunk + 1) * chunkAllocSize + i * s.itemsz ∧
    i * s.itemsz + s.itemsz ≤ chunkAllocSize ∧
    ((chunk + 1) * chunkAllocSize < s.offsetChunk ∨
      (chunk + 1) * chunkAllocSize = s.offsetChunk ∧
        i * s.itemsz < s.unallocatedOffset)

def Recent (published : Epoch) (item : ItemPtr) : Prop :=
  ∀ tid, ∀ list ∈ (s.backends tid).lists, item ∈ list.pointers →
    ∀ epoch, list.epoch = some epoch → published ≤ epoch

/-- A backend that has read the item as the head of the free list holds an entry that was
published before the item could be retired again. -/
def Popping (e : Option Nat) (item : ItemPtr) : Prop :=
  ∃ slot published, e = some slot ∧ s.epochs.published slot = some published ∧
    s.Recent published item

def FirstSafe (lists : List DeallocList) : Prop :=
  ∃ first epoch, lists.head? = some first ∧ first.epoch = some epoch ∧
    epoch ≤ s.epochs.safeEpoch

/-- What the local variables of a backend say about the shared ones. -/
def PcOk (e : Option Nat) (lists : List DeallocList) : SlabPc → Prop
  | .popNext head => s.Popping e head
  | .popSwap head next =>
    s.Popping e head ∧ (head ∈ free → next = s.links (.node head))
  | .readChunk off => s.fits off = true
  | .swapOffset off _ => s.fits off = true
  | .chunkCheck cur => s.newChunk = ⟨cur, true⟩
  | .chunkUnmark cur => s.newChunk = cur ∧ cur.marked = true
  | .chunkReset cur => s.newChunk = ⟨cur, true⟩ ∧ s.fits s.unallocatedOffset = false
  | .chunkPublish cur new => s.newChunk = cur ∧ cur.marked = true ∧ new = s.offsetChunk
  | .check safe => safe ≤ s.epochs.safeEpoch
  | .await safe => safe ≤ s.epochs.safeEpoch
  | .link safe _ => safe ≤ s.epochs.safeEpoch ∧ s.FirstSafe lists
  | .pushRead safe => safe ≤ s.epochs.safeEpoch ∧ s.FirstSafe lists
  | .pushSwap safe => safe ≤ s.epochs.safeEpoch ∧ s.FirstSafe lists
  | _ => True

structure BackendOk (be : SlabBackend) : Prop where
  pc : s.PcOk free be.entry be.lists be.pc
  within : be.pc.within be.call = true
  entry : be.call = .allocate → be.pc ≠ .idle → be.entry.isSome = true
  lists : be.freeing.isSome = true → be.lists ≠ []
  ordered : ListsOk s.epochs.globalEpoch be.lists
  account : be.freed = be.returned ++ waiting be.lists

structure OffsetOk (itemsz offsetChunk off : Nat) : Prop where
  base : ∃ num, offsetChunk = num * chunkAllocSize
  /-- Before the first chunk is made no item fits. -/
  first : offsetChunk = 0 → chunkAllocSize < off + itemsz
  aligned : offsetChunk ≠ 0 → ∃ i, off = i * itemsz

structure ChunkOk : Prop where
  offset : OffsetOk s.itemsz s.offsetChunk s.unallocatedOffset
  newest : s.newChunk.addr = s.offsetChunk ∨
    ∃ tid cur, (s.backends tid).pc = .chunkPublish cur s.offsetChunk
  unique : ∀ {tid tid'}, (s.backends tid).pc.marks = true →
    (s.backends tid').pc.marks = true → tid = tid'

structure EntriesOk : Prop where
  inUse : ∀ {tid slot}, (s.backends tid).entry = some slot →
    (s.epochs.published slot).isSome = true
  unique : ∀ {tid tid' slot}, (s.backends tid).entry = some slot →
    (s.backends tid').entry = some slot → tid = tid'

structure SlabInv : Prop where
  itemsz : 0 < s.itemsz
  sound : s.epochs.Sound
  chain : Chain s.links (.head ()) free
  freeNodup : free.Nodup
  allocatedNodup : s.allocated.Nodup
  waitingNodup : ∀ tid, (waiting (s.backends tid).lists).Nodup
  exclusive : Exclusive (s.holds free)
  issued : ∀ {place item}, s.holds free place item → s.Issued item
  entries : s.EntriesOk
  backend : ∀ tid, s.BackendOk free (s.backends tid)
  chunk : s.ChunkOk

def Covered : Prop := ∀ item, s.Issued item → ∃ place, s.holds free place item

end SharedSlab

namespace SharedSlab

variable {s s' : SharedSlab} {free free' : List ItemPtr} {tid : Tid} {lossless : Prop}

theorem backends_self (s : SharedSlab) (tid : Tid) (be : SlabBackend) :
    (s.setBackend tid be).backends tid = be :=
  Function.update_self ..

theorem backends_of_ne (s : SharedSlab) (be : SlabBackend) (diff : other ≠ tid) :
    (s.setBackend tid be).backends other = s.backends other :=
  Function.update_of_ne diff ..

theorem links_self (s : SharedSlab) (cell : Cell Unit ItemPtr) (value : Option ItemPtr) :
    (s.setLink cell value).links cell = value :=
  Function.update_self ..

theorem links_of_ne (s : SharedSlab) (value : Option ItemPtr)
    (diff : other ≠ cell) : (s.setLink cell value).links other = s.links other :=
  Function.update_of_ne diff ..

structure Steady (s : SharedSlab) (free : List ItemPtr) (tid : Tid) (s' : SharedSlab)
    (free' : List ItemPtr) : Prop where
  others : ∀ other ≠ tid, s'.backends other = s.backends other
  itemsz : s'.itemsz = s.itemsz
  safe : s.epochs.safeEpoch ≤ s'.epochs.safeEpoch
  later : s.epochs.globalEpoch ≤ s'.epochs.globalEpoch
  popping : ∀ other ≠ tid, ∀ {item}, s.Popping (s.backends other).entry item →
    s'.Popping (s.backends other).entry item ∧
      (item ∈ free' → item ∈ free ∧ s'.links (.node item) = s.links (.node item))
  marked : ∀ other ≠ tid, (s.backends other).pc.marks = true →
    s'.newChunk = s.newChunk ∧ s'.offsetChunk = s.offsetChunk ∧
      (s.fits s.unallocatedOffset = false → s'.fits s'.unallocatedOffset = false)

variable (steady : Steady s free tid s' free')
include steady

theorem Steady.fits (off : Nat) : s'.fits off = s.fits off := by
  simp [SharedSlab.fits, steady.itemsz]

theorem Steady.firstSafe (first : s.FirstSafe lists) : s'.FirstSafe lists := by
  obtain ⟨list, epoch, isFirst, isEpoch, safe⟩ := first
  exact ⟨list, epoch, isFirst, isEpoch, Nat.le_trans safe steady.safe⟩

variable {other : Tid} {item head : ItemPtr}

theorem Steady.pcOk (diff : other ≠ tid)
    (ok : s.PcOk free (s.backends other).entry (s.backends other).lists (s.backends other).pc) :
    s'.PcOk free' (s.backends other).entry (s.backends other).lists (s.backends other).pc := by
  have marked := steady.marked other diff
  generalize (s.backends other).pc = pc at ok marked
  cases pc with
  | popNext head => exact (steady.popping other diff ok).1
  | popSwap head next =>
    obtain ⟨popping, same⟩ := steady.popping other diff ok.1
    refine ⟨popping, fun isFree => ?_⟩
    obtain ⟨wasFree, kept⟩ := same isFree
    rw [kept]
    exact ok.2 wasFree
  | readChunk off => exact (steady.fits off).trans ok
  | swapOffset off chunkHead => exact (steady.fits off).trans ok
  | chunkCheck cur => exact (marked rfl).1.trans ok
  | chunkUnmark cur => exact ⟨(marked rfl).1.trans ok.1, ok.2⟩
  | chunkReset cur => exact ⟨(marked rfl).1.trans ok.1, (marked rfl).2.2 ok.2⟩
  | chunkPublish cur new =>
    exact ⟨(marked rfl).1.trans ok.1, ok.2.1, ok.2.2.trans (marked rfl).2.1.symm⟩
  | check safe => exact Nat.le_trans ok steady.safe
  | await safe => exact Nat.le_trans ok steady.safe
  | link safe i => exact ⟨Nat.le_trans ok.1 steady.safe, steady.firstSafe ok.2⟩
  | pushRead safe => exact ⟨Nat.le_trans ok.1 steady.safe, steady.firstSafe ok.2⟩
  | pushSwap safe => exact ⟨Nat.le_trans ok.1 steady.safe, steady.firstSafe ok.2⟩
  | idle => trivial
  | popHead => trivial
  | readOffset => trivial
  | chunkRead => trivial
  | chunkWait => trivial
  | chunkMark cur => trivial
  | bump => trivial
  | bumpEntry => trivial
  | readSafe => trivial

theorem Steady.backendOk (diff : other ≠ tid) (ok : s.BackendOk free (s.backends other)) :
    s'.BackendOk free' (s'.backends other) := by
  rw [steady.others other diff]
  exact ⟨steady.pcOk diff ok.pc, ok.within, ok.entry, ok.lists, ok.ordered.mono steady.later,
    ok.account⟩

omit steady

theorem ChunkOk.frame (ok : s.ChunkOk)
    (others : ∀ other ≠ tid, s'.backends other = s.backends other)
    (newChunk : s'.newChunk = s.newChunk) (offsetChunk : s'.offsetChunk = s.offsetChunk)
    (off : OffsetOk s'.itemsz s'.offsetChunk s'.unallocatedOffset)
    (marks : (s'.backends tid).pc.marks → (s.backends tid).pc.marks)
    (publishes : ∀ cur new, (s.backends tid).pc ≠ .chunkPublish cur new) :
    s'.ChunkOk := by
  have marksBefore : ∀ {other}, (s'.backends other).pc.marks → (s.backends other).pc.marks := by
    intro other isMarking
    by_cases same : other = tid
    · subst same
      exact marks isMarking
    · rw [others other same] at isMarking
      exact isMarking
  refine ⟨off, ?_, fun first second => ok.unique (marksBefore first) (marksBefore second)⟩
  rw [newChunk, offsetChunk]
  refine ok.newest.imp_right ?_
  rintro ⟨other, cur, atPublish⟩
  refine ⟨other, cur, ?_⟩
  rw [others other (fun same => publishes cur _ (same ▸ atPublish))]
  exact atPublish

theorem EntriesOk.frame (ok : s.EntriesOk)
    (same : ∀ other, (s'.backends other).entry = (s.backends other).entry)
    (inUse : ∀ slot, (s.epochs.published slot).isSome → (s'.epochs.published slot).isSome) :
    s'.EntriesOk where
  inUse held := inUse _ (ok.inUse (same _ ▸ held))
  unique first second := ok.unique (same _ ▸ first) (same _ ▸ second)

/-- A step of one backend keeps the invariant if it moves items to one place and leaves the other
backends what they know. -/
theorem SlabInv.step (inv : s.SlabInv free) (steady : Steady s free tid s' free')
    (sound : s'.epochs.Sound) (chain : Chain s'.links (.head ()) free') (freeNodup : free'.Nodup)
    (allocatedNodup : s'.allocated.Nodup) (waitingNodup : (waiting (s'.backends tid).lists).Nodup)
    (relocates : Relocates (s.holds free) (s'.holds free') moved kept dest)
    (issued : ∀ {item}, s.Issued item → s'.Issued item)
    (keptIssued : ∀ {item}, kept item → s'.Issued item) (es : s'.EntriesOk)
    (be : s'.BackendOk free' (s'.backends tid)) (chunk : s'.ChunkOk) :
    s'.SlabInv free' where
  itemsz := steady.itemsz ▸ inv.itemsz
  sound := sound
  chain := chain
  freeNodup := freeNodup
  allocatedNodup := allocatedNodup
  waitingNodup other := by
    by_cases same : other = tid
    · exact same ▸ waitingNodup
    · rw [steady.others other same]
      exact inv.waitingNodup other
  exclusive := relocates.exclusive inv.exclusive
  issued {place item} held := by
    rcases (relocates.after _ _).mp held with ⟨pre, -⟩ | ⟨-, isKept⟩
    · exact issued (inv.issued pre)
    · exact keptIssued isKept
  entries := es
  backend other := by
    by_cases same : other = tid
    · exact same ▸ be
    · exact steady.backendOk same (inv.backend other)
  chunk := chunk

theorem holds_at (others : ∀ other ≠ tid, s'.backends other = s.backends other)
    (allocated : place = .allocated → s'.allocated = s.allocated)
    (sameFree : place = .free → free' = free)
    (lists : place = .waiting tid →
      waiting (s'.backends tid).lists = waiting (s.backends tid).lists)
    (freeing : place = .freeing tid → (s'.backends tid).freeing = (s.backends tid).freeing) :
    s'.holds free' place item ↔ s.holds free place item := by
  cases place with
  | allocated => simp [holds, allocated rfl]
  | free => simp [holds, sameFree rfl]
  | waiting other =>
    by_cases same : other = tid
    · subst same
      simp [holds, lists rfl]
    · simp [holds, others other same]
  | freeing other =>
    by_cases same : other = tid
    · subst same
      simp [holds, freeing rfl]
    · simp [holds, others other same]

theorem relocates_none {holds holds' : Place → ItemPtr → Prop}
    (same : ∀ place item, holds' place item ↔ holds place item) :
    Relocates holds holds' (fun _ => False) (fun _ => False) .free :=
  ⟨False.elim, fun place item => by simp [same]⟩

theorem Popping.congr (popping : s.Popping e item)
    (published : s'.epochs.published = s.epochs.published)
    (lists : ∀ other, (s'.backends other).lists = (s.backends other).lists) :
    s'.Popping e item := by
  obtain ⟨slot, epoch, isSlot, isPublished, recent⟩ := popping
  refine ⟨slot, epoch, isSlot, published ▸ isPublished, fun other list mem => ?_⟩
  rw [lists] at mem
  exact recent other list mem

def Carved (s : SharedSlab) : Prop :=
  s.carved.Nodup ∧ ∀ item ∈ s.carved, s.Issued item

theorem Carved.frame (carved : s.Carved) (same : s'.carved = s.carved)
    (issued : ∀ {item}, s.Issued item → s'.Issued item) : s'.Carved := by
  unfold Carved
  rw [same]
  exact ⟨carved.1, fun item mem => issued (carved.2 item mem)⟩

/-- A step reaches a state with the invariant, cuts off no item twice, and unless it loses items
it loses none. -/
def Settles (s : SharedSlab) (free : List ItemPtr) (s' : SharedSlab) (lossless : Prop) :
    Prop :=
  ∃ free', s'.SlabInv free' ∧ (s.Carved → s'.Carved) ∧
    (lossless → s.Covered free → s'.Covered free')

theorem covered_of_relocates (covered : s.Covered free)
    (relocates : Relocates (s.holds free) (s'.holds free') moved kept dest)
    (notLost : ∀ {item}, moved item → kept item)
    (issued : ∀ {item}, s'.Issued item → s.Issued item ∨ kept item) :
    s'.Covered free' := by
  intro item isIssued
  rcases issued isIssued with pre | isKept
  · exact relocates.held (covered item pre) notLost
  · exact ⟨dest, (relocates.after _ _).mpr (.inr ⟨rfl, isKept⟩)⟩

structure Quiet (s : SharedSlab) (tid : Tid) (s' : SharedSlab) : Prop where
  others : ∀ other ≠ tid, s'.backends other = s.backends other
  entry : (s'.backends tid).entry = (s.backends tid).entry
  lists : (s'.backends tid).lists = (s.backends tid).lists
  epochs : s'.epochs = s.epochs
  itemsz : s'.itemsz = s.itemsz

section

variable (quiet : Quiet s tid s')
include quiet

theorem Quiet.allLists (other : Tid) : (s'.backends other).lists = (s.backends other).lists := by
  by_cases same : other = tid
  · rw [same, quiet.lists]
  · rw [quiet.others other same]

theorem Quiet.allEntries (other : Tid) : (s'.backends other).entry = (s.backends other).entry := by
  by_cases same : other = tid
  · rw [same, quiet.entry]
  · rw [quiet.others other same]

theorem Quiet.popping {e : Option Nat} {item : ItemPtr}
    (popping : s.Popping e item) : s'.Popping e item :=
  popping.congr (by rw [quiet.epochs]) quiet.allLists

end

variable (inv : s.SlabInv free)
include inv

theorem SlabInv.quiet (quiet : Quiet s tid s') (chain : Chain s'.links (.head ()) free')
    (shorter : free'.Sublist free)
    (links : ∀ item ∈ free', s'.links (.node item) = s.links (.node item))
    (allocatedNodup : s'.allocated.Nodup)
    (marked : ∀ other ≠ tid, (s.backends other).pc.marks →
      s'.newChunk = s.newChunk ∧ s'.offsetChunk = s.offsetChunk ∧
        (s.fits s.unallocatedOffset = false → s'.fits s'.unallocatedOffset = false))
    (relocates : Relocates (s.holds free) (s'.holds free') moved kept dest)
    (issued : ∀ {item}, s.Issued item → s'.Issued item)
    (keptIssued : ∀ {item}, kept item → s'.Issued item)
    (be : s'.BackendOk free' (s'.backends tid)) (chunk : s'.ChunkOk) : s'.SlabInv free' := by
  have steady : Steady s free tid s' free' :=
    ⟨quiet.others, quiet.itemsz, Nat.le_of_eq (by rw [quiet.epochs]),
      Nat.le_of_eq (by rw [quiet.epochs]), fun _ _ _ popping =>
        ⟨quiet.popping popping, fun mem => ⟨shorter.subset mem, links _ mem⟩⟩, marked⟩
  refine inv.step steady ?_ chain (inv.freeNodup.sublist shorter) allocatedNodup ?_ relocates issued
    keptIssued ?_ be chunk
  · rw [quiet.epochs]
    exact inv.sound
  · rw [quiet.lists]
    exact inv.waitingNodup tid
  · exact inv.entries.frame quiet.allEntries fun _ => by rw [quiet.epochs]; exact id

theorem SlabInv.setBackend (be : SlabBackend) (e : be.entry = (s.backends tid).entry)
    (lists : be.lists = (s.backends tid).lists)
    (freeing : be.freeing = (s.backends tid).freeing)
    (marks : be.pc.marks → (s.backends tid).pc.marks)
    (publishes : ∀ cur new, (s.backends tid).pc ≠ .chunkPublish cur new)
    (ok : s.BackendOk free be) :
    s.Settles free (s.setBackend tid be) lossless := by
  have self := backends_self s tid be
  have quiet : Quiet s tid (s.setBackend tid be) :=
    ⟨fun other diff => backends_of_ne s be diff, by rw [self, e], by rw [self, lists], rfl, rfl⟩
  have relocates : Relocates (s.holds free) ((s.setBackend tid be).holds free) _ _ _ :=
    relocates_none fun _ _ => holds_at quiet.others (fun _ => rfl) (fun _ => rfl)
      (fun _ => by rw [quiet.lists]) (fun _ => by rw [self, freeing])
  refine ⟨free, inv.quiet quiet inv.chain (List.Sublist.refl _) (fun _ _ => rfl)
    inv.allocatedNodup (fun _ _ _ => ⟨rfl, rfl, id⟩) relocates id False.elim ?_ ?_,
    id, fun _ covered => covered_of_relocates covered relocates False.elim .inl⟩
  · rw [self]
    refine ⟨?_, ok.within, ok.entry, ok.lists, ok.ordered, ok.account⟩
    have pc := ok.pc
    generalize be.pc = place at pc
    cases place with
    | popNext head => exact quiet.popping pc
    | popSwap head next => exact ⟨quiet.popping pc.1, pc.2⟩
    | _ => exact pc
  · refine inv.chunk.frame quiet.others rfl rfl inv.chunk.offset ?_ publishes
    rw [self]
    exact marks

theorem SlabInv.goTo (pc : SlabPc) (busy : (s.backends tid).pc ≠ .idle)
    (target : pc ≠ .idle ∨ (s.backends tid).call.item = none)
    (marks : pc.marks → (s.backends tid).pc.marks)
    (publishes : ∀ cur new, (s.backends tid).pc ≠ .chunkPublish cur new)
    (within : pc.within (s.backends tid).call)
    (ok : s.PcOk free (s.backends tid).entry (s.backends tid).lists pc) :
    s.Settles free (s.goTo tid pc) lossless := by
  have freeing : ({ s.backends tid with pc := pc } : SlabBackend).freeing =
      (s.backends tid).freeing := by
    rcases target with moves | nothing
    · simp [SlabBackend.freeing, moves, busy]
    · simp [SlabBackend.freeing, nothing]
  refine inv.setBackend { s.backends tid with pc := pc } rfl rfl freeing marks publishes ?_
  have pre := inv.backend tid
  exact ⟨ok, within, fun isAllocate _ => pre.entry isAllocate busy, fun present =>
    pre.lists (freeing ▸ present), pre.ordered, pre.account⟩

theorem SlabInv.proceed (pc : SlabPc) (atPc : (s.backends tid).pc = pre)
    (plain : pre.plain ∧ pc.plain) (within : pc.within (s.backends tid).call)
    (ok : s.PcOk free (s.backends tid).entry (s.backends tid).lists pc) :
    s.Settles free (s.goTo tid pc) lossless := by
  obtain ⟨busy, wasUnmarked⟩ := plain_iff.mp plain.1
  obtain ⟨target, isUnmarked⟩ := plain_iff.mp plain.2
  refine inv.goTo pc (atPc ▸ busy) (.inl target) ?_ ?_ within ok
  · rw [isUnmarked]
    exact fun marks => Bool.noConfusion marks
  · intro cur new isPublish
    rw [← atPc, isPublish] at wasUnmarked
    exact Bool.noConfusion wasUnmarked

theorem SlabInv.setLink (notFree : item ∉ free)
    (value : Option ItemPtr) : (s.setLink (.node item) value).SlabInv free :=
  { inv with
    chain := by
      refine inv.chain.update_off (by simp) fun other mem same => ?_
      cases same
      exact notFree mem
    entries := ⟨inv.entries.inUse, inv.entries.unique⟩
    backend tid := by
      have ok := inv.backend tid
      refine ⟨?_, ok.within, ok.entry, ok.lists, ok.ordered, ok.account⟩
      have pc := ok.pc
      change (s.setLink (.node item) value).PcOk free (s.backends tid).entry
        (s.backends tid).lists (s.backends tid).pc
      generalize (s.backends tid).pc = place at pc
      cases place with
      | popSwap head next =>
        refine ⟨pc.1, fun isFree => ?_⟩
        have diff : (Cell.node head : Cell Unit ItemPtr) ≠ .node item := by
          intro same
          cases same
          exact notFree isFree
        rw [links_of_ne s value diff]
        exact pc.2 isFree
      | _ => exact pc
    chunk := ⟨inv.chunk.offset, inv.chunk.newest, inv.chunk.unique⟩ }

theorem SlabInv.waiting_notFree (mem : item ∈ waiting (s.backends tid).lists) : item ∉ free := by
  intro isFree
  have waits : s.holds free (.waiting tid) item := mem
  have onFree : s.holds free .free item := isFree
  exact Place.noConfusion (inv.exclusive waits onFree)

theorem SlabInv.linkStep (mem : item ∈ waiting (s.backends tid).lists)
    (value : Option ItemPtr) (pc : SlabPc) (busy : (s.backends tid).pc.links)
    (target : pc.links) (within : pc.within (s.backends tid).call)
    (ok : s.PcOk free (s.backends tid).entry (s.backends tid).lists pc) :
    s.Settles free ((s.setLink (.node item) value).goTo tid pc) lossless := by
  have written := inv.setLink (inv.waiting_notFree mem) value
  refine written.goTo pc ?_ ?_ ?_ ?_ within ?_
  · intro isIdle
    rw [show (s.backends tid).pc = .idle from isIdle] at busy
    exact Bool.noConfusion busy
  · left
    rintro rfl
    exact Bool.noConfusion target
  · intro marks
    cases pc <;> first | exact Bool.noConfusion target | exact Bool.noConfusion marks
  · intro cur new isPublish
    rw [show (s.backends tid).pc = .chunkPublish cur new from isPublish] at busy
    exact Bool.noConfusion busy
  · cases pc <;> first | exact Bool.noConfusion target | exact ok

theorem SlabInv.head_mem (isHead : s.freelistHead = some head) :
    ∃ rest, free = head :: rest ∧ Segment s.links (s.links (.node head)) rest none := by
  have chain := inv.chain
  unfold Chain at chain
  cases free with
  | nil => exact absurd (isHead.symm.trans chain) (by simp)
  | cons first rest =>
    obtain ⟨isFirst, behind⟩ := Segment.cons_iff.mp chain
    cases isHead.symm.trans isFirst
    exact ⟨rest, rfl, behind⟩

theorem SlabInv.pop (atSwap : (s.backends tid).pc = .popSwap head next)
    (isHead : s.freelistHead = some head) :
    s.Settles free ((s.setLink (.head ()) next).handOut tid head) lossless := by
  obtain ⟨rest, rfl, behind⟩ := inv.head_mem isHead
  have ok := inv.backend tid
  have next_eq : next = s.links (.node head) := by
    have pc := ok.pc
    rw [atSwap] at pc
    exact pc.2 (by simp)
  have isAllocate : (s.backends tid).call = .allocate := by
    have within := ok.within
    rw [atSwap] at within
    exact of_decide_eq_true within
  have headFree : s.holds (head :: rest) .free head := List.mem_cons_self
  have notRest : head ∉ rest := (List.nodup_cons.mp inv.freeNodup).1
  have notAllocated : head ∉ s.allocated := fun mem =>
    Place.noConfusion (inv.exclusive (show s.holds _ .allocated head from mem) headFree)
  set s' := (s.setLink (.head ()) next).handOut tid head
  have self : s'.backends tid = { s.backends tid with pc := .idle } := backends_self ..
  have quiet : Quiet s tid s' :=
    ⟨fun other diff => backends_of_ne _ _ diff, by rw [self], by rw [self], rfl, rfl⟩
  have headLink : s'.links (.head ()) = next := links_self s (.head ()) next
  have links : ∀ item, s'.links (.node item) = s.links (.node item) := by
    intro item
    have diff : (Cell.node item : Cell Unit ItemPtr) ≠ .head () := by simp
    exact links_of_ne s next diff
  have freeing : (s'.backends tid).freeing = (s.backends tid).freeing := by
    rw [self]
    simp [SlabBackend.freeing, isAllocate, SlabCall.item]
  have relocates : Relocates (s.holds (head :: rest)) (s'.holds rest) (· = head) (· = head)
      .allocated := by
    refine .single inv.exclusive headFree ?_ ?_ ?_ ?_
    · rintro item (mem : item ∈ rest)
      exact ⟨List.mem_cons_of_mem _ mem, fun same => notRest (same ▸ mem)⟩
    · rintro item (mem : item ∈ head :: rest) diff
      exact List.mem_of_ne_of_mem diff mem
    · intro item
      change item ∈ head :: s.allocated ↔ item ∈ s.allocated ∨ item = head
      rw [List.mem_cons, or_comm]
    · intro place notFree notAllocated item
      exact holds_at quiet.others (absurd · notAllocated) (absurd · notFree)
        (fun _ => by rw [quiet.lists]) (fun _ => freeing)
  refine ⟨rest, inv.quiet quiet ?_ (List.sublist_cons_self ..) (fun item _ => links item)
    (List.nodup_cons.mpr ⟨notAllocated, inv.allocatedNodup⟩) (fun _ _ _ => ⟨rfl, rfl, id⟩) relocates
    id ?_ ?_ ?_, id, fun _ covered => covered_of_relocates covered relocates id .inl⟩
  · unfold Chain
    rw [headLink, next_eq]
    exact Segment.congr (fun item _ => links item) behind
  · rintro item rfl
    exact inv.issued headFree
  · rw [self]
    exact ⟨trivial, rfl, fun _ isBusy => absurd rfl isBusy, fun present => by
      simp [SlabBackend.freeing] at present, ok.ordered, ok.account⟩
  · refine inv.chunk.frame quiet.others rfl rfl inv.chunk.offset ?_ ?_
    · rw [self]
      exact fun marks => Bool.noConfusion marks
    · rw [atSwap]
      exact fun _ _ => SlabPc.noConfusion

end SharedSlab

end PgAqp.Mmgr
