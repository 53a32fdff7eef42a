import PgAqp.Library.Serial
import PgAqp.Hash.LockfreeHtab

/-!
# The version store of one key

A model of `abtversionstore.c` for one key, that is for one downlink.  Every step makes one
shared access and then computes on local variables.  Operations on the hash table are single
steps.  Transaction ids are kept with their epoch, of which the code sees the last 32 bits.
An insertion or a reader that follows a marked pointer reads the node two bytes off, and
stops where it would use the link or the value so read; the collector and a replacement stop
at once, as everybody does at a null pointer.
-/

namespace PgAqp.VersionStore

open Hash (Ptr Addr Tid rawptr)
open Library Function List

/-- A transaction id with its epoch. -/
abbrev Xid := Nat

abbrev EntryId := Nat

/-- The 32 bits that a `TransactionId` holds. -/
def xid32 (xid : Xid) : BitVec 32 := .ofNat 32 xid

/-- `NormalTransactionIdPrecedes`. -/
def normalTransactionIdPrecedes (first second : Xid) : Bool :=
  Serial.precedes (xid32 first) (xid32 second)

/-- `ABTVSNode`. -/
structure Version where
  xmin : Xid
  next : Ptr
  deltaVal : Nat
  deriving DecidableEq, Repr

/-- `abtvs_deleted_chain_head`: the null pointer with the mark. -/
def deletedChainHead : Ptr := ⟨none, true⟩

structure Store where
  /-- The value words of the hash table entries that the key has had. -/
  heads : EntryId → Ptr
  nodes : Addr → Version
  /-- The entry of the key in the hash table. -/
  entry : Option EntryId
  freshEntry : EntryId
  freshNode : Addr
  /-- The nodes passed to `abtvs_free`, the latest one first. -/
  freed : List Addr

abbrev Link := Cell EntryId Addr

namespace Store

variable (st : Store) (a : Addr)

/-- `abtvs_ptr_atomic_read`. -/
def read : Link → Ptr
  | .head e => st.heads e
  | .node a => (st.nodes a).next

/-- `abtvs_ptr_atomic_write`. -/
def write (link : Link) (ptr : Ptr) : Store :=
  match link with
  | .head e => { st with heads := update st.heads e ptr }
  | .node a =>
    { st with
      nodes := update st.nodes a { st.nodes a with next := ptr } }

def xminOf : Xid := (st.nodes a).xmin

/-- The `xmin` that is read through a marked pointer, two bytes off: the upper half of the id,
and then padding, which `abtvs_alloc0` has cleared. -/
def misreadXmin : Xid := st.xminOf a % 4294967296 / 65536

/-- `lockfree_htab_find_u64` with `HASH_ENTER`: the entry of the key, which may be new. -/
def hashEnter : EntryId × Store :=
  match st.entry with
  | some e => (e, st)
  | none =>
    (st.freshEntry,
      { st with
        heads := update st.heads st.freshEntry Ptr.null
        entry := some st.freshEntry
        freshEntry := st.freshEntry + 1 })

/-- `lockfree_htab_find_u64` with `HASH_REMOVE`. -/
def hashRemove : Store := { st with entry := none }

/-- `abtvs_free`. -/
def free : Store := { st with freed := a :: st.freed }

/-- `abtvs_alloc_version_node` with its `xmin` and `delta_val`. -/
def alloc (version : Version) : Store :=
  { st with
    nodes := update st.nodes st.freshNode version
    freshNode := st.freshNode + 1 }

/-- `new_node_->xmin = xmin`. -/
def setXmin (xmin : Xid) : Store :=
  { st with
    nodes := update st.nodes a { st.nodes a with xmin := xmin } }

/-- `pg_atomic_fetch_add` on the `delta_val` of a node, a word with the given range. -/
def addDelta (value range : Nat) : Store :=
  { st with
    nodes := update st.nodes a
      { st.nodes a with deltaVal := ((st.nodes a).deltaVal + value) % range } }

/-- The chain of new nodes that a replacement installs, newest version first. -/
def allocChain (st : Store) : List (Xid × Nat) → Store × Ptr
  | [] => (st, Ptr.null)
  | (xmin, deltaVal) :: rest =>
    let (st', next) := st.allocChain rest
    (st'.alloc ⟨xmin, next, deltaVal⟩, .ofNode st'.freshNode)

end Store

/-- The next shared access of `_abtvs_find_or_create_node`. -/
inductive InsertPc where
  /-- `restart_from_head`: find the entry of the key. -/
  | enterHash
  /-- Read the chain head of the entry. -/
  | readHead
  /-- Look at the current node. -/
  | visit
  /-- Link the new node in front of the current one. -/
  | swap
  deriving DecidableEq, Repr

/-- The local variables of `_abtvs_find_or_create_node`. -/
structure InsertFrame where
  xmin : Xid
  pc : InsertPc
  headPtr : EntryId
  oldHead : Ptr
  curPtr : Link
  cur : Ptr
  deriving DecidableEq, Repr

/-- The next shared access of `_abtvs_replace_chain_head`. -/
inductive ReplacePc where
  /-- `retry_find_the_head`. -/
  | findHead
  /-- Read the chain head. -/
  | readHead
  /-- Install the new chain. -/
  | swap
  /-- `_abtvs_delete_chain` of the old chain. -/
  | deleteChain
  deriving DecidableEq, Repr

/-- The local variables of `_abtvs_replace_chain_head`. -/
structure ReplaceFrame where
  newHead : Ptr
  /-- The nodes of the new chain. -/
  newNodes : List Addr
  pc : ReplacePc
  headPtr : EntryId
  head : Ptr
  deriving DecidableEq, Repr

inductive Thread where
  | idle
  | inserting (f : InsertFrame)
  | replacing (f : ReplaceFrame)
  | returned (a : Addr)
  | crashed
  deriving DecidableEq, Repr

/-- The next shared access of the garbage collector. -/
inductive GcPc where
  /-- Between two entries, or between two passes. -/
  | idle
  /-- Read the chain head of the entry. -/
  | readHead
  /-- Mark the chain head. -/
  | markHead
  /-- Walk to the first old node. -/
  | walk
  /-- Unlink the old nodes. -/
  | unlink
  /-- Find the first old node again after a failed swap. -/
  | refind
  /-- Read the chain head before it is unmarked. -/
  | rereadHead
  /-- Unmark the chain head. -/
  | unmarkHead
  /-- `_abtvs_delete_chain` of the old nodes. -/
  | deleteChain
  /-- `_abtvs_try_delete_maybe_deletable`: read the next chain head. -/
  | tryRead
  /-- Mark an empty chain as deleted. -/
  | tryMark
  /-- Remove the entry from the hash table. -/
  | tryRemove
  | crashed
  deriving DecidableEq, Repr

/-- The variables of `_abtvs_scan_and_recycle_old_versions`. -/
structure Collector where
  pc : GcPc
  oldestXmin : Xid
  headPtr : EntryId
  head : Ptr
  curPtr : Link
  cur : Ptr
  deletable : Ptr
  maybeDeletable : List EntryId
  deriving DecidableEq, Repr

/-- Where a step of an insertion leaves the backend; `insertedNew` tells that the new node
was linked, which empties `abtvs_cached_new_node`. -/
structure InsertEffect where
  thread : Thread
  insertedNew : Bool
  deriving DecidableEq, Repr

namespace InsertFrame

/-- The value that the swap of an insertion expects: a marked head is kept as it was read. -/
def expected (f : InsertFrame) : Ptr :=
  if f.curPtr = .head f.headPtr ∧ f.oldHead.marked = true then f.oldHead
  else f.cur

def stored (f : InsertFrame) (newNode : Addr) : Ptr :=
  if f.curPtr = .head f.headPtr ∧ f.oldHead.marked = true then
    (Ptr.ofNode newNode).mark
  else .ofNode newNode

/-- `search_for_new_insertion_point`: the test of the loop. -/
def search (f : InsertFrame) : InsertEffect :=
  if f.cur = Ptr.null then ⟨.inserting { f with pc := .swap }, false⟩
  else ⟨.inserting { f with pc := .visit }, false⟩

end InsertFrame

/-- One shared access of `_abtvs_find_or_create_node`. -/
def insertStep (st : Store) (newNode : Addr) (f : InsertFrame) : Store × InsertEffect :=
  match f.pc with
  | .enterHash =>
    let (e, st') := st.hashEnter
    (st', ⟨.inserting { f with headPtr := e, pc := .readHead }, false⟩)
  | .readHead =>
    let head := st.heads f.headPtr
    if head = deletedChainHead then
      (st, ⟨.inserting { f with pc := .enterHash }, false⟩)
    else
      (st, InsertFrame.search
        { f with
          oldHead := head, curPtr := .head f.headPtr, cur := head.getUnmarked })
  | .visit =>
    match f.cur with
    | ⟨none, _⟩ => (st, ⟨.crashed, false⟩)
    | ⟨some a, true⟩ =>
      if normalTransactionIdPrecedes (st.misreadXmin a) f.xmin then
        (st, ⟨.inserting { f with pc := .swap }, false⟩)
      else (st, ⟨.crashed, false⟩)
    | ⟨some a, false⟩ =>
      if xid32 (st.xminOf a) = xid32 f.xmin then (st, ⟨.returned a, false⟩)
      else if normalTransactionIdPrecedes (st.xminOf a) f.xmin then
        (st, ⟨.inserting { f with pc := .swap }, false⟩)
      else
        (st, InsertFrame.search
          { f with curPtr := .node a, cur := st.read (.node a) })
  | .swap =>
    let prepared := st.write (.node newNode) f.cur
    let found := prepared.read f.curPtr
    if found = f.expected then
      (prepared.write f.curPtr (f.stored newNode), ⟨.returned newNode, true⟩)
    else if found = deletedChainHead then
      (prepared, ⟨.inserting { f with pc := .enterHash }, false⟩)
    else (prepared, InsertFrame.search { f with cur := found })

namespace ReplaceFrame

/-- The loop of `_abtvs_replace_chain_head` looks at the head that was just read. -/
def look (f : ReplaceFrame) : Thread :=
  if f.head = deletedChainHead then
    if f.newHead = Ptr.null then .idle
    else .replacing { f with pc := .findHead }
  else if f.head.marked then .replacing { f with pc := .readHead }
  else .replacing { f with pc := .swap }

end ReplaceFrame

/-- One shared access of `_abtvs_replace_chain_head`. -/
def replaceStep (st : Store) (f : ReplaceFrame) : Store × Thread :=
  match f.pc with
  | .findHead =>
    if f.newHead = Ptr.null then
      match st.entry with
      | none => (st, .idle)
      | some e => (st, .replacing { f with headPtr := e, pc := .readHead })
    else
      let (e, st') := st.hashEnter
      (st', .replacing { f with headPtr := e, pc := .readHead })
  | .readHead => (st, ReplaceFrame.look { f with head := st.heads f.headPtr })
  | .swap =>
    if st.heads f.headPtr = f.head then
      let installed := st.write (.head f.headPtr) f.newHead
      if f.head = Ptr.null then (installed, .idle)
      else (installed, .replacing { f with newNodes := [], pc := .deleteChain })
    else (st, ReplaceFrame.look { f with head := st.heads f.headPtr })
  | .deleteChain =>
    match rawptr f.head with
    | none => (st, .crashed)
    | some a =>
      let next := st.read (.node a)
      if next = Ptr.null then (st.free a, .idle)
      else (st.free a, .replacing { f with head := next })

namespace Collector

def lookAtHead (gc : Collector) : Collector :=
  if gc.head = Ptr.null then
    { gc with maybeDeletable := gc.maybeDeletable ++ [gc.headPtr], pc := .idle }
  else { gc with pc := .markHead }

def expected (gc : Collector) : Ptr :=
  if gc.curPtr = .head gc.headPtr then gc.deletable.mark else gc.cur

/-- `while (cur != deletable)`. -/
def lookForDeletable (gc : Collector) : Collector :=
  if gc.cur = gc.deletable then { gc with pc := .unlink } else { gc with pc := .refind }

/-- The entry of `_abtvs_delete_chain`. -/
def startDelete (gc : Collector) : Collector :=
  if gc.deletable = Ptr.null ∨ gc.deletable = deletedChainHead then { gc with pc := .idle }
  else { gc with head := gc.deletable, pc := .deleteChain }

/-- The next element of `abtvs_maybe_deletable`. -/
def nextMaybe (gc : Collector) : Collector :=
  { gc with maybeDeletable := gc.maybeDeletable.tail, pc := .tryRead }

end Collector

def gcStep (st : Store) (gc : Collector) : Store × Collector :=
  match gc.pc with
  | .idle => (st, gc)
  | .readHead => (st, Collector.lookAtHead { gc with head := st.heads gc.headPtr })
  | .markHead =>
    if st.heads gc.headPtr = gc.head then
      (st.write (.head gc.headPtr) gc.head.mark,
        { gc with curPtr := .head gc.headPtr, cur := gc.head, pc := .walk })
    else (st, Collector.lookAtHead { gc with head := st.heads gc.headPtr })
  | .walk =>
    match rawptr gc.cur with
    | none => (st, { gc with pc := .crashed })
    | some a =>
      if normalTransactionIdPrecedes (st.xminOf a) gc.oldestXmin then
        (st, { gc with deletable := gc.cur, pc := .unlink })
      else
        let next := st.read (.node a)
        if next = Ptr.null then
          (st, { gc with
            curPtr := .node a, cur := next, deletable := Ptr.null, pc := .rereadHead })
        else (st, { gc with curPtr := .node a, cur := next })
  | .unlink =>
    let found := st.read gc.curPtr
    if found = gc.expected then
      (st.write gc.curPtr Ptr.null,
        { gc with
          maybeDeletable :=
            if gc.curPtr = .head gc.headPtr then gc.maybeDeletable ++ [gc.headPtr]
            else gc.maybeDeletable
          pc := .rereadHead })
    else
      (st, Collector.lookForDeletable
        { gc with cur := if gc.curPtr = .head gc.headPtr then found.unmark else found })
  | .refind =>
    match rawptr gc.cur with
    | none => (st, { gc with pc := .crashed })
    | some a =>
      (st, Collector.lookForDeletable
        { gc with curPtr := .node a, cur := st.read (.node a) })
  | .rereadHead =>
    let head := st.heads gc.headPtr
    if head.marked then (st, { gc with head := head, pc := .unmarkHead })
    else (st, Collector.startDelete { gc with head := head })
  | .unmarkHead =>
    if st.heads gc.headPtr = gc.head then
      (st.write (.head gc.headPtr) gc.head.unmark, gc.startDelete)
    else (st, { gc with head := st.heads gc.headPtr })
  | .deleteChain =>
    match rawptr gc.head with
    | none => (st, { gc with pc := .crashed })
    | some a =>
      let next := st.read (.node a)
      if next = Ptr.null then (st.free a, { gc with head := next, pc := .idle })
      else (st.free a, { gc with head := next })
  | .tryRead =>
    match gc.maybeDeletable with
    | [] => (st, { gc with pc := .idle })
    | e :: _ =>
      let head := st.heads e
      if head = Ptr.null then (st, { gc with head := head, pc := .tryMark })
      else (st, Collector.nextMaybe { gc with head := head })
  | .tryMark =>
    match gc.maybeDeletable with
    | [] => (st, { gc with pc := .idle })
    | e :: _ =>
      let head := st.heads e
      if head = Ptr.null then
        (st.write (.head e) deletedChainHead, { gc with pc := .tryRemove })
      else (st, Collector.nextMaybe { gc with head := head })
  | .tryRemove => (st.hashRemove, gc.nextMaybe)
  | .crashed => (st, gc)

structure State where
  store : Store
  threads : Tid → Thread
  /-- `abtvs_cached_new_node` of each backend. -/
  cached : Tid → Option Addr
  /-- The backends that hold the page lock in share mode. -/
  sharers : List Tid
  /-- The backend that holds the page lock in exclusive mode. -/
  writer : Option Tid
  collector : Collector

/-- The choices of the scheduler, the callers and the collector's main loop. -/
inductive Label where
  /-- A backend with a read lock starts `_abtvs_find_or_create_node`. -/
  | insert (tid : Tid) (xmin : Xid)
  /-- A backend with a write lock starts `_abtvs_replace_chain_head` with a new chain. -/
  | replace (tid : Tid) (versions : List (Xid × Nat))
  /-- A backend makes its next shared access. -/
  | step (tid : Tid)
  /-- A pass starts with a new `oldestXmin`. -/
  | pass (oldestXmin : Xid)
  /-- The iteration over the hash table reaches the entry of the key. -/
  | visit
  /-- `_abtvs_try_delete_maybe_deletable` is called. -/
  | tryDelete
  /-- The collector makes its next shared access. -/
  | gc
  deriving DecidableEq, Repr

def Thread.ready : Thread → Bool
  | .idle => true
  | .returned _ => true
  | _ => false

/-- The transaction id that a backend is inserting for. -/
def Thread.xmin : Thread → Option Xid
  | .inserting f => some f.xmin
  | _ => none

def Thread.busy : Thread → Bool
  | .inserting _ => true
  | .replacing _ => true
  | .crashed => true
  | _ => false

def descending : List (Xid × Nat) → Bool
  | first :: second :: rest => decide (second.1 < first.1) && descending (second :: rest)
  | _ => true

namespace State

variable (s : State) (tid : Tid)

/-- The node that a new call of a backend puts into `abtvs_cached_new_node`. -/
def prepareNode (xmin : Xid) : Store × Addr :=
  match s.cached tid with
  | some a => (s.store.setXmin a xmin, a)
  | none => (s.store.alloc ⟨xmin, Ptr.null, 0⟩, s.store.freshNode)

/-- The start of `_abtvs_find_or_create_node`. -/
def beginInsert (xmin : Xid) : State :=
  let (st, newNode) := s.prepareNode tid xmin
  { s with
    store := st
    threads := update s.threads tid
      (.inserting ⟨xmin, .enterHash, 0, Ptr.null, .head 0, Ptr.null⟩)
    cached := update s.cached tid (some newNode)
    sharers := tid :: s.sharers }

/-- The start of `_abtvs_replace_chain_head`. -/
def beginReplace (versions : List (Xid × Nat)) : State :=
  let (st, newHead) := s.store.allocChain versions
  { s with
    store := st
    threads := update s.threads tid
      (.replacing ⟨newHead, (range' s.store.freshNode versions.length).reverse,
        .findHead, 0, Ptr.null⟩)
    writer := some tid }

def installInsert (st : Store) (effect : InsertEffect) : State :=
  { s with
    store := st
    threads := update s.threads tid effect.thread
    cached := if effect.insertedNew then update s.cached tid none else s.cached
    sharers := if effect.thread.busy then s.sharers else s.sharers.erase tid }

def installReplace (st : Store) (thread : Thread) : State :=
  { s with
    store := st
    threads := update s.threads tid thread
    writer := if thread.busy then s.writer else none }

/-- No backend that holds the lock inserts for an id before the given one. -/
def coversRunning (oldestXmin : Xid) : Bool :=
  s.sharers.all fun tid => (s.threads tid).xmin.all fun xmin => decide (oldestXmin ≤ xmin)

end State

/-- One step of the system; a label that is not enabled has no result.  `GetOldestXmin` never
goes back, and no transaction that is running or starts later has an id before it. -/
def next (s : State) : Label → Option State
  | .insert tid xmin =>
    if (s.threads tid).ready = true ∧ s.writer = none ∧
        s.collector.oldestXmin ≤ xmin then
      some (s.beginInsert tid xmin)
    else none
  | .replace tid versions =>
    if (s.threads tid).ready = true ∧ s.writer = none ∧ s.sharers = [] ∧
        descending versions = true then
      some (s.beginReplace tid versions)
    else none
  | .step tid =>
    match s.threads tid with
    | .inserting f =>
      match s.cached tid with
      | none => none
      | some newNode =>
        let (st, effect) := insertStep s.store newNode f
        some (s.installInsert tid st effect)
    | .replacing f =>
      let (st, thread) := replaceStep s.store f
      some (s.installReplace tid st thread)
    | _ => none
  | .pass oldestXmin =>
    if s.collector.pc = .idle ∧ s.collector.oldestXmin ≤ oldestXmin ∧
        s.coversRunning oldestXmin = true then
      some { s with collector := { s.collector with oldestXmin := oldestXmin } }
    else none
  | .visit =>
    match s.store.entry with
    | none => none
    | some e =>
      if s.collector.pc = .idle then
        some { s with
          collector := { s.collector with headPtr := e, pc := .readHead } }
      else none
  | .tryDelete =>
    if s.collector.pc = .idle then
      some { s with collector := { s.collector with pc := .tryRead } }
    else none
  | .gc =>
    if s.collector.pc = .idle then none
    else
      let (st, collector) := gcStep s.store s.collector
      some { s with store := st, collector := collector }

/-- A version store in which the key has no entry. -/
def initial : State where
  store := ⟨fun _ => Ptr.null, fun _ => ⟨0, Ptr.null, 0⟩, none, 0, 0, []⟩
  threads _ := .idle
  cached _ := none
  sharers := []
  writer := none
  collector := ⟨.idle, 0, 0, Ptr.null, .head 0, Ptr.null, Ptr.null, []⟩

end PgAqp.VersionStore
