import PgAqp.Mmgr.EpochSpec

/-!
# The shared slab allocator

Items are taken from a free list or cut off the newest chunk, and a freed item
waits on a local deallocation list until the epoch of the list is safe.  Every
access to a shared variable is one step.  The writes that a reclaimer makes to the
first words of the items on its list are steps as well, since an allocator that has
read a free list head may look at any item.

An item that was handed out stays in `allocated` until it is freed.  That list, the
list `carved` of all items that were cut off a chunk, and `offsetChunk`, the chunk
that the offset counts in, are not in the code.
-/

namespace PgAqp.Mmgr

open Library (Cell)
open Function List Option

/-- The address of an item, `shared_slab_pointer`; the null pointer is `none`. -/
abbrev ItemPtr := Nat

/-- `SHARED_SLAB_DEFAULT_CHUNK_SIZE`. -/
def chunkAllocSize : Nat := 1073741824

/-- `new_chunk`: the address of a chunk, and the mark of a backend that makes the next one. -/
structure ChunkPtr where
  addr : Nat
  marked : Bool
  deriving DecidableEq, Repr

/-- `shared_slab_dealloc_list`; its size is the length of `pointers`. -/
structure DeallocList where
  /-- The epoch, or nothing for `InvalidEpoch`. -/
  epoch : Option Epoch
  pointers : List ItemPtr
  deriving DecidableEq, Repr

inductive SlabCall where
  | allocate
  | newChunk
  | free (ptr : ItemPtr)
  | reclaim (wait : Bool)
  deriving DecidableEq, Repr

inductive SlabPc where
  | idle
  /-- `shared_slab_try_allocate_from_freelist` reads the head. -/
  | popHead
  /-- It reads the first word of the head. -/
  | popNext (head : ItemPtr)
  /-- It swaps the next item in. -/
  | popSwap (head : ItemPtr) (next : Option ItemPtr)
  /-- `shared_slab_allocate_extended` reads the offset. -/
  | readOffset
  /-- It reads the newest chunk, after the offset. -/
  | readChunk (off : Nat)
  /-- It swaps the end of its item in. -/
  | swapOffset (off chunkHead : Nat)
  /-- `shared_slab_allocate_new_chunk` reads the newest chunk. -/
  | chunkRead
  /-- It reads the offset, to see if another backend has made a chunk. -/
  | chunkWait
  /-- It marks the newest chunk. -/
  | chunkMark (cur : Nat)
  /-- It reads the offset again. -/
  | chunkCheck (cur : Nat)
  /-- It takes its mark off. -/
  | chunkUnmark (cur : ChunkPtr)
  /-- It has made a chunk and restarts the offset. -/
  | chunkReset (cur : Nat)
  /-- It publishes the chunk. -/
  | chunkPublish (cur : ChunkPtr) (newChunk : Nat)
  /-- `epoch_bump` ends the epoch of the last list. -/
  | bump
  /-- `epoch_bump` writes the entry of the backend. -/
  | bumpEntry
  /-- `shared_slab_reclaim_internal` gets the safe epoch. -/
  | readSafe
  /-- It looks at the first list. -/
  | check (safe : Epoch)
  /-- It waits until the epoch of the first list is safe. -/
  | await (safe : Epoch)
  /-- `shared_slab_reclaim_first_dealloc_list` writes the first word of an item. -/
  | link (safe : Epoch) (i : Nat)
  /-- It lets the last item point to the head of the free list. -/
  | pushRead (safe : Epoch)
  /-- It swaps the last item in. -/
  | pushSwap (safe : Epoch)
  deriving DecidableEq, Repr

def SlabPc.links : SlabPc → Bool
  | .link _ _ => true
  | .pushRead _ => true
  | .pushSwap _ => true
  | _ => false

structure SlabBackend where
  /-- The entry of the epoch manager that the backend holds. -/
  entry : Option Nat
  call : SlabCall
  pc : SlabPc
  /-- From `dealloc_list` to `last_dealloc_list`. -/
  lists : List DeallocList
  /-- What the backend has passed to `shared_slab_init` or `shared_slab_create`. -/
  deallocListCapacity : Nat
  deallocNowait : Bool
  /-- The items that the backend has freed, and those whose lists it has reclaimed. -/
  freed : List ItemPtr
  returned : List ItemPtr
  deriving DecidableEq, Repr

/-- `shared_slab_shared_header`, the first words of the items, and the backends. -/
structure SharedSlab where
  itemsz : Nat
  /-- `freelist_head`, and the first word of each item. -/
  links : Cell Unit ItemPtr → Option ItemPtr
  newChunk : ChunkPtr
  unallocatedOffset : Nat
  epochs : Epochs
  backends : Tid → SlabBackend
  allocated : List ItemPtr
  carved : List ItemPtr
  offsetChunk : Nat

inductive SlabLabel where
  /-- A backend takes an entry of the epoch manager. -/
  | acquire (tid : Tid) (e : Nat)
  | release (tid : Tid)
  | refresh (tid : Tid)
  /-- The safe epoch moves on. -/
  | advance (epoch : Epoch)
  | allocate (tid : Tid)
  | newChunk (tid : Tid)
  | free (tid : Tid) (ptr : ItemPtr)
  | reclaim (tid : Tid) (wait : Bool)
  /-- A user writes the first word of an item that is allocated. -/
  | write (ptr : ItemPtr) (value : Option ItemPtr)
  /-- A user writes the first word of an item that a backend has freed. -/
  | writeFreed (tid : Tid) (ptr : ItemPtr) (value : Option ItemPtr)
  /-- A backend makes its next access. -/
  | step (tid : Tid)
  deriving DecidableEq, Repr

def waiting (lists : List DeallocList) : List ItemPtr := lists.flatMap (·.pointers)

def lastEpoch (lists : List DeallocList) : Option Epoch := lists.getLast?.bind (·.epoch)

def closeLast (epoch : Epoch) : List DeallocList → List DeallocList
  | [] => []
  | [last] => [{ last with epoch := some epoch }]
  | first :: rest => first :: closeLast epoch rest

def addList (newList : Bool) (lists : List DeallocList) : List DeallocList :=
  if newList then lists ++ [⟨none, []⟩] else lists

def addToLast (ptr : ItemPtr) : List DeallocList → List DeallocList
  | [] => []
  | [last] => [{ last with pointers := last.pointers ++ [ptr] }]
  | first :: rest => first :: addToLast ptr rest

/-- The lists after the first one was reclaimed; the last one stays. -/
def dropFirst : List DeallocList → List DeallocList
  | [] => []
  | [_] => [⟨none, []⟩]
  | _ :: rest => rest

structure ListsOk (globalEpoch : Epoch) (lists : List DeallocList) : Prop where
  ordered : lists.Pairwise fun first second => ∃ epoch, first.epoch = some epoch ∧
    ∀ later, second.epoch = some later → epoch ≤ later
  ended : ∀ list ∈ lists, ∀ epoch, list.epoch = some epoch → epoch < globalEpoch

variable {globalEpoch : Epoch} {lists : List DeallocList} {epoch : Epoch} {list : DeallocList}

theorem ListsOk.mono (ok : ListsOk globalEpoch lists) (later : globalEpoch ≤ globalEpoch') :
    ListsOk globalEpoch' lists :=
  ⟨ok.ordered, fun list mem epoch isEpoch =>
    Nat.lt_of_lt_of_le (ok.ended list mem epoch isEpoch) later⟩

theorem closeLast_concat (epoch : Epoch) (init : List DeallocList) (last : DeallocList) :
    closeLast epoch (init ++ [last]) = init ++ [{ last with epoch := some epoch }] := by
  induction init with
  | nil => rfl
  | cons first rest ih => cases rest <;> simp_all [closeLast]

theorem addToLast_concat (ptr : ItemPtr) (init : List DeallocList) (last : DeallocList) :
    addToLast ptr (init ++ [last]) = init ++ [{ last with pointers := last.pointers ++ [ptr] }] := by
  induction init with
  | nil => rfl
  | cons first rest ih => cases rest <;> simp_all [addToLast]

theorem waiting_closeLast (epoch : Epoch) (lists : List DeallocList) :
    waiting (closeLast epoch lists) = waiting lists := by
  rcases eq_nil_or_concat' lists with rfl | ⟨init, last, rfl⟩
  · rfl
  · simp [waiting, closeLast_concat]

theorem closeLast_ne_nil (present : lists ≠ []) : closeLast epoch lists ≠ [] := by
  obtain ⟨init, last, rfl⟩ := (eq_nil_or_concat' lists).resolve_left present
  simp [closeLast_concat]

theorem epoch_of_mem_closeLast
    (mem : list ∈ closeLast epoch lists) : list ∈ lists ∨ list.epoch = some epoch := by
  rcases eq_nil_or_concat' lists with rfl | ⟨init, last, rfl⟩
  · exact absurd mem not_mem_nil
  · rw [closeLast_concat] at mem
    rcases mem_append.mp mem with old | isLast
    · exact .inl (mem_append_left _ old)
    · exact .inr (by rw [mem_singleton.mp isLast])

theorem waiting_addToLast (ptr : ItemPtr) (present : lists ≠ []) :
    waiting (addToLast ptr lists) = waiting lists ++ [ptr] := by
  obtain ⟨init, last, rfl⟩ := (eq_nil_or_concat' lists).resolve_left present
  simp [waiting, addToLast_concat]

theorem epoch_of_mem_addToLast
    (mem : list ∈ addToLast ptr lists) : list ∈ lists ∨ list.epoch = lastEpoch lists := by
  rcases eq_nil_or_concat' lists with rfl | ⟨init, last, rfl⟩
  · exact absurd mem not_mem_nil
  · rw [addToLast_concat] at mem
    rcases mem_append.mp mem with old | isLast
    · exact .inl (mem_append_left _ old)
    · exact .inr (by simp [mem_singleton.mp isLast, lastEpoch])

theorem waiting_addList (newList : Bool) (lists : List DeallocList) :
    waiting (addList newList lists) = waiting lists := by
  cases newList <;> simp [addList, waiting]

theorem mem_of_mem_addList
    (mem : list ∈ addList newList lists) : list ∈ lists ∨ list.epoch = none := by
  cases newList with
  | false => exact .inl mem
  | true =>
    rcases mem_append.mp mem with pre | isNew
    · exact .inl pre
    · rw [mem_singleton.mp isNew]
      exact .inr rfl

theorem waiting_dropFirst (first : DeallocList) (rest : List DeallocList) :
    waiting (dropFirst (first :: rest)) = waiting rest := by
  cases rest <;> rfl

theorem mem_of_mem_dropFirst (mem : list ∈ dropFirst lists) : list ∈ lists ∨ list.epoch = none := by
  cases lists with
  | nil => simp [dropFirst] at mem
  | cons first rest =>
    cases rest with
    | nil =>
      simp only [dropFirst, mem_singleton] at mem
      exact .inr (by rw [mem])
    | cons second rest => exact .inl (mem_cons_of_mem _ mem)

theorem dropFirst_ne_nil (present : lists ≠ []) : dropFirst lists ≠ [] := by
  cases lists with
  | nil => exact absurd rfl present
  | cons first rest => cases rest <;> simp [dropFirst]

theorem ListsOk.setLast {init : List DeallocList} {last last' : DeallocList}
    (ok : ListsOk globalEpoch (init ++ [last])) (later : globalEpoch ≤ globalEpoch')
    (ends : ∀ epoch, last'.epoch = some epoch →
      epoch < globalEpoch' ∧ (last.epoch = some epoch ∨ globalEpoch ≤ epoch)) :
    ListsOk globalEpoch' (init ++ [last']) := by
  obtain ⟨ordered, -, pre⟩ := pairwise_append.mp ok.ordered
  constructor
  · refine pairwise_append.mpr ⟨ordered, pairwise_singleton .., fun list mem other isOther => ?_⟩
    cases mem_singleton.mp isOther
    obtain ⟨epoch, isEpoch, order⟩ := pre list mem last mem_cons_self
    refine ⟨epoch, isEpoch, fun other isOther => ?_⟩
    rcases (ends other isOther).2 with same | above
    · exact order other same
    · exact Nat.le_of_lt
        (Nat.lt_of_lt_of_le (ok.ended list (mem_append_left _ mem) epoch isEpoch) above)
  · intro list mem epoch isEpoch
    rcases mem_append.mp mem with old | isLast
    · exact Nat.lt_of_lt_of_le (ok.ended list (mem_append_left _ old) epoch isEpoch) later
    · cases mem_singleton.mp isLast
      exact (ends epoch isEpoch).1

variable (ok : ListsOk globalEpoch lists)
include ok

theorem ListsOk.closeLast : ListsOk (globalEpoch + 1) (closeLast globalEpoch lists) := by
  rcases eq_nil_or_concat' lists with rfl | ⟨init, last, rfl⟩
  · exact ⟨List.Pairwise.nil, nofun⟩
  · rw [closeLast_concat]
    refine ok.setLast (Nat.le_succ _) fun epoch isEpoch => ?_
    cases isEpoch
    exact ⟨Nat.lt_succ_self _, .inr (Nat.le_refl _)⟩

theorem ListsOk.addToLast (ptr : ItemPtr) : ListsOk globalEpoch (addToLast ptr lists) := by
  rcases eq_nil_or_concat' lists with rfl | ⟨init, last, rfl⟩
  · exact ok
  · rw [addToLast_concat]
    exact ok.setLast (Nat.le_refl _)
      fun epoch isEpoch => ⟨ok.ended last (by simp) epoch isEpoch, .inl isEpoch⟩

theorem ListsOk.dropFirst : ListsOk globalEpoch (dropFirst lists) := by
  cases lists with
  | nil => exact ok
  | cons first rest =>
    cases rest with
    | nil =>
      refine ⟨pairwise_singleton .., fun list mem epoch isEpoch => ?_⟩
      rw [mem_singleton.mp mem] at isEpoch
      exact absurd isEpoch (by simp)
    | cons second rest =>
      exact ⟨(pairwise_cons.mp ok.ordered).2, fun list mem => ok.ended list (mem_cons_of_mem _ mem)⟩

theorem ListsOk.addList (closed : newList = true → ∀ list ∈ lists, list.epoch.isSome) :
    ListsOk globalEpoch (addList newList lists) := by
  cases newList with
  | false => exact ok
  | true =>
    refine ⟨pairwise_append.mpr ⟨ok.ordered, pairwise_singleton .., ?_⟩, ?_⟩
    · intro first mem second isNew
      obtain ⟨epoch, isEpoch⟩ := isSome_iff_exists.mp (closed rfl first mem)
      rw [mem_singleton.mp isNew]
      exact ⟨epoch, isEpoch, nofun⟩
    · intro list mem epoch isEpoch
      rcases mem_append.mp mem with old | isNew
      · exact ok.ended list old epoch isEpoch
      · rw [mem_singleton.mp isNew] at isEpoch
        exact absurd isEpoch (by simp)

theorem ListsOk.closed (isLast : (lastEpoch lists).isSome) : ∀ list ∈ lists, list.epoch.isSome := by
  intro list mem
  rcases eq_nil_or_concat' lists with rfl | ⟨init, last, rfl⟩
  · exact absurd mem not_mem_nil
  · rcases mem_append.mp mem with old | isEnd
    · obtain ⟨epoch, isEpoch, -⟩ :=
        (pairwise_append.mp ok.ordered).2.2 list old last mem_cons_self
      simp [isEpoch]
    · rw [mem_singleton.mp isEnd]
      simpa [lastEpoch] using isLast

theorem ListsOk.lastEpoch_eq_none (isFirst : lists.head?.bind (·.epoch) = none) :
    lastEpoch lists = none := by
  by_contra isClosed
  have closed := ok.closed (isSome_iff_ne_none.mpr isClosed)
  cases lists with
  | nil => exact isClosed rfl
  | cons first rest =>
    have isSome := closed first (by simp)
    rw [show first.epoch = none from isFirst] at isSome
    exact Bool.noConfusion isSome

namespace SharedSlab

variable (s : SharedSlab) (tid : Tid) (ptr : ItemPtr)

def setBackend (be : SlabBackend) : SharedSlab :=
  { s with backends := update s.backends tid be }

def goTo (pc : SlabPc) : SharedSlab :=
  s.setBackend tid { s.backends tid with pc := pc }

def freelistHead : Option ItemPtr := s.links (.head ())

def setLink (cell : Cell Unit ItemPtr) (value : Option ItemPtr) : SharedSlab :=
  { s with links := update s.links cell value }

def fits (off : Nat) : Bool := decide (off + s.itemsz ≤ chunkAllocSize)

def nextChunk (cur : Nat) : Nat := (cur / chunkAllocSize + 1) * chunkAllocSize

def handOut : SharedSlab :=
  { s with allocated := ptr :: s.allocated }.goTo tid .idle

def carve : SharedSlab :=
  { s with
    unallocatedOffset := s.unallocatedOffset + s.itemsz
    carved := ptr :: s.carved }.handOut tid ptr

/-- The free list was read: go on with its head, or with the newest chunk. -/
def tryHead : SharedSlab :=
  match s.freelistHead with
  | some head => s.goTo tid (.popNext head)
  | none => s.goTo tid .readOffset

/-- The loop of `shared_slab_allocate_extended` looks at the offset that was just read. -/
def tryOffset : SharedSlab :=
  if s.fits s.unallocatedOffset then s.goTo tid (.readChunk s.unallocatedOffset)
  else s.goTo tid .chunkRead

/-- `shared_slab_allocate_new_chunk` returns. -/
def chunkDone : SharedSlab :=
  match (s.backends tid).call with
  | .allocate => s.goTo tid .popHead
  | _ => s.goTo tid .idle

/-- The end of `shared_slab_free`: a new list if one is needed, and the pointer at its end. -/
def append (newList : Bool) : SharedSlab :=
  s.setBackend tid
    { s.backends tid with
      pc := .idle
      lists := addToLast ptr (addList newList (s.backends tid).lists)
      freed := (s.backends tid).freed ++ [ptr] }

/-- `shared_slab_reclaim_internal` returns to its caller. -/
def reclaimDone : SharedSlab :=
  match (s.backends tid).call with
  | .free ptr =>
    s.append tid ptr
      ((s.backends tid).deallocNowait && (lastEpoch (s.backends tid).lists).isSome)
  | _ => s.goTo tid .idle

def waits (call : SlabCall) : Bool :=
  match call with
  | .reclaim wait => wait
  | _ => !(s.backends tid).deallocNowait

/-- The loop of `shared_slab_reclaim_internal` looks at the first list. -/
def reclaimNext (safe : Epoch) : SharedSlab :=
  match (s.backends tid).lists.head?.bind (·.epoch) with
  | none => s.reclaimDone tid
  | some epoch =>
    if epoch ≤ safe then s.goTo tid (.link safe 0)
    else if s.waits tid (s.backends tid).call then s.goTo tid (.await safe)
    else s.reclaimDone tid

def reclaimed (safe : Epoch) (first : DeallocList) : SharedSlab :=
  s.setBackend tid
    { s.backends tid with
      pc := .check safe
      lists := dropFirst (s.backends tid).lists
      returned := (s.backends tid).returned ++ first.pointers }

def access : Option SharedSlab :=
  match (s.backends tid).pc with
  | .idle => none
  | .popHead => some (s.tryHead tid)
  | .popNext head => some (s.goTo tid (.popSwap head (s.links (.node head))))
  | .popSwap head next =>
    some (if s.freelistHead = some head then (s.setLink (.head ()) next).handOut tid head
    else s.tryHead tid)
  | .readOffset => some (s.tryOffset tid)
  | .readChunk off =>
    some (if s.newChunk.marked then s.goTo tid .readOffset
    else s.goTo tid (.swapOffset off s.newChunk.addr))
  | .swapOffset off chunkHead =>
    some (if s.unallocatedOffset = off then s.carve tid (chunkHead + off)
    else s.tryOffset tid)
  | .chunkRead =>
    some (if s.newChunk.marked then s.goTo tid .chunkWait
    else s.goTo tid (.chunkMark s.newChunk.addr))
  | .chunkWait =>
    some (if s.fits s.unallocatedOffset then s.chunkDone tid
    else s.goTo tid .chunkRead)
  | .chunkMark cur =>
    some (if s.newChunk = ⟨cur, false⟩ then
      { s with newChunk := ⟨cur, true⟩ }.goTo tid (.chunkCheck cur)
    else s.goTo tid .chunkWait)
  | .chunkCheck cur =>
    some (if s.fits s.unallocatedOffset then s.goTo tid (.chunkUnmark ⟨cur, true⟩)
    else s.goTo tid (.chunkReset cur))
  | .chunkUnmark cur =>
    some (if s.newChunk = cur then
      { s with newChunk := ⟨cur.addr, false⟩ }.chunkDone tid
    else s.goTo tid (.chunkUnmark s.newChunk))
  | .chunkReset cur =>
    some ({ s with unallocatedOffset := 0, offsetChunk := nextChunk cur }.goTo tid
      (.chunkPublish ⟨cur, true⟩ (nextChunk cur)))
  | .chunkPublish cur newChunk =>
    some (if s.newChunk = cur then
      { s with newChunk := ⟨newChunk, false⟩ }.chunkDone tid
    else s.goTo tid (.chunkPublish s.newChunk newChunk))
  | .bump =>
    some ({ s with epochs := s.epochs.bump }.setBackend tid
      { s.backends tid with
        pc := .bumpEntry, lists := closeLast s.epochs.globalEpoch (s.backends tid).lists })
  | .bumpEntry =>
    -- Without an entry the write goes in front of the array of entries.
    match (s.backends tid).entry with
    | none => some (s.goTo tid .readSafe)
    | some e =>
      some ({ s with epochs := s.epochs.publish e }.goTo tid .readSafe)
  | .readSafe => some (s.goTo tid (.check s.epochs.safeEpoch))
  | .check safe => some (s.reclaimNext tid safe)
  | .await safe =>
    ((s.backends tid).lists.head?.bind (·.epoch)).bind fun epoch =>
      if epoch ≤ s.epochs.safeEpoch then some (s.goTo tid (.link safe 0)) else none
  | .link safe i =>
    (s.backends tid).lists.head?.map fun first =>
      match first.pointers[i]?, first.pointers[i + 1]? with
      | some ptr, some next =>
        (s.setLink (.node ptr) (some next)).goTo tid (.link safe (i + 1))
      | _, _ => s.goTo tid (.pushRead safe)
  | .pushRead safe =>
    ((s.backends tid).lists.head?.bind (·.pointers.getLast?)).map fun tail =>
      (s.setLink (.node tail) s.freelistHead).goTo tid (.pushSwap safe)
  | .pushSwap safe =>
    (s.backends tid).lists.head?.bind fun first =>
      first.pointers.getLast?.map fun tail =>
        if s.freelistHead = s.links (.node tail) then
          (s.setLink (.head ()) (some tail)).reclaimed tid safe first
        else s.setLink (.node tail) s.freelistHead

def enter (call : SlabCall) (pc : SlabPc) : SharedSlab :=
  s.setBackend tid { s.backends tid with call := call, pc := pc }

/-- `shared_slab_free` begins, with a list to put the pointer on if there is none. -/
def enterFree : SharedSlab :=
  { s with allocated := s.allocated.erase ptr }.setBackend tid
    { s.backends tid with
      call := .free ptr
      pc := .bump
      lists := addList (s.backends tid).lists.isEmpty (s.backends tid).lists }

/-- `shared_slab_free` up to its first access, or to its end if it makes none. -/
def startFree : SharedSlab :=
  match (s.backends tid).lists.getLast? with
  | none => (s.enterFree tid ptr).append tid ptr false
  | some last =>
    if last.pointers.length = (s.backends tid).deallocListCapacity then
      s.enterFree tid ptr
    else (s.enterFree tid ptr).append tid ptr false

/-- `shared_slab_reclaim` up to its first access. -/
def startReclaim (wait : Bool) : SharedSlab :=
  match (s.backends tid).lists.head?, (s.backends tid).lists.getLast? with
  | some first, some last =>
    if first.pointers = [] then s
    else if last.pointers ≠ [] ∧ last.epoch = none then s.enter tid (.reclaim wait) .bump
    else s.enter tid (.reclaim wait) .readSafe
  | _, _ => s

/-- The freed items that a user may still write: the backend is not linking them. -/
def writable : Bool :=
  if (s.backends tid).pc.links then decide (ptr ∈ waiting (s.backends tid).lists.tail)
  else decide (ptr ∈ waiting (s.backends tid).lists)

end SharedSlab

/-- One step of the system; a label that is not enabled has no result. -/
def slabNext (s : SharedSlab) : SlabLabel → Option SharedSlab
  | .acquire tid e =>
    if (s.backends tid).pc = .idle ∧ (s.backends tid).entry = none ∧
        e < s.epochs.entries ∧ s.epochs.published e = none then
      some ({ s with epochs := s.epochs.publish e }.setBackend tid
        { s.backends tid with entry := some e })
    else none
  | .release tid =>
    if (s.backends tid).pc = .idle then
      (s.backends tid).entry.map fun e =>
        { s with epochs := s.epochs.release e }.setBackend tid
          { s.backends tid with entry := none }
    else none
  | .refresh tid =>
    if (s.backends tid).pc = .idle then
      (s.backends tid).entry.map fun e =>
        { s with epochs := s.epochs.publish e }
    else none
  | .advance epoch =>
    if s.epochs.safeEpoch ≤ epoch ∧ s.epochs.ended epoch = true then
      some { s with epochs := s.epochs.advance epoch }
    else none
  | .allocate tid =>
    if (s.backends tid).pc = .idle ∧ (s.backends tid).entry.isSome = true then
      some (s.enter tid .allocate .popHead)
    else none
  | .newChunk tid =>
    if (s.backends tid).pc = .idle then some (s.enter tid .newChunk .chunkRead) else none
  | .free tid ptr =>
    if (s.backends tid).pc = .idle ∧ ptr ∈ s.allocated then some (s.startFree tid ptr)
    else none
  | .reclaim tid wait =>
    if (s.backends tid).pc = .idle then some (s.startReclaim tid wait) else none
  | .write ptr value =>
    if ptr ∈ s.allocated then some (s.setLink (.node ptr) value) else none
  | .writeFreed tid ptr value =>
    if s.writable tid ptr = true then some (s.setLink (.node ptr) value) else none
  | .step tid => s.access tid

/-- `shared_slab_init`, with an epoch manager that has the given number of entries. -/
def sharedSlabInit (itemsz : Nat) (deallocListCapacity : Tid → Nat) (deallocNowait : Tid → Bool)
    (maxBackends : Nat) : SharedSlab where
  itemsz := (itemsz + 7) / 8 * 8
  links _ := none
  newChunk := ⟨0, false⟩
  unallocatedOffset := chunkAllocSize
  epochs := (epochShmemInit maxBackends).epochs
  backends tid :=
    ⟨none, .allocate, .idle, [], deallocListCapacity tid, deallocNowait tid, [], []⟩
  allocated := []
  carved := []
  offsetChunk := 0

end PgAqp.Mmgr
