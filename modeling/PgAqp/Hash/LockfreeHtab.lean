import PgAqp.Library.Run
import PgAqp.Library.Segment

/-!
# The lock-free hash table

`lockfree_htab.c`: every bucket is a linked list whose links carry a mark in their low
bit.  One label of the system is one access to shared memory by one backend together
with the local computation that follows it.  Following a marked or null pointer as a
node ends the call in `crashed`.
-/

namespace PgAqp.Hash

open Library Function List

abbrev Key := Nat
abbrev Addr := Nat
abbrev Tid := Nat

/-- `lfhtab_ptr`: a slab address, or null, with the mark kept in the low bit. -/
structure Ptr where
  node : Option Addr
  marked : Bool
  deriving DecidableEq, Repr

namespace Ptr

/-- `LFHTAB_NULL`. -/
def null : Ptr := ⟨none, false⟩

def ofNode (a : Addr) : Ptr := ⟨some a, false⟩

/-- `lfhtab_ptr_mark`: flip the low bit. -/
def mark (ptr : Ptr) : Ptr := { ptr with marked := !ptr.marked }

/-- `lfhtab_ptr_unmark`: flip the low bit as well. -/
def unmark (ptr : Ptr) : Ptr := { ptr with marked := !ptr.marked }

/-- `lfhtab_ptr_get_unmarked`: clear the low bit. -/
def getUnmarked (ptr : Ptr) : Ptr := { ptr with marked := false }

end Ptr

/-- `lfhtab_elem`. -/
structure Elem where
  key : Key
  value : Nat
  next : Ptr
  deriving DecidableEq, Repr

/-- `lfhtab_header` with the hash function that the callers apply to the key. -/
structure Table where
  hashval : Key → Nat
  hashvalMask : Nat
  hasSentinelValue : Bool
  sentinelValue : Nat

variable (t : Table)

/-- `hashval & lfhtab->header->hashval_mask`. -/
def Table.bucketOf (key : Key) : Nat :=
  t.hashval key &&& t.hashvalMask

structure Memory where
  buckets : Nat → Ptr
  elems : Addr → Elem
  /-- The next address that the slab has never handed out. -/
  fresh : Addr
  /-- The pointers passed to `shared_slab_free`, the latest one first. -/
  freed : List Ptr

abbrev Link := Cell Nat Addr

namespace Memory

def read (m : Memory) : Link → Ptr
  | .head bucket => m.buckets bucket
  | .node a => (m.elems a).next

def write (m : Memory) (link : Link) (ptr : Ptr) : Memory :=
  match link with
  | .head bucket => { m with buckets := update m.buckets bucket ptr }
  | .node a =>
    { m with
      elems := update m.elems a { m.elems a with next := ptr } }

def keyOf (m : Memory) (a : Addr) : Key := (m.elems a).key

/-- `lockfree_htab_free_node`: hand one pointer to the slab. -/
def free (m : Memory) (ptr : Ptr) : Memory :=
  { m with freed := ptr :: m.freed }

end Memory

/-- `HASHACTION`, without the actions that the table rejects. -/
inductive HashAction where
  | find
  | enter
  | remove
  deriving DecidableEq, Repr

/-- The pointer that `lockfree_htab_find` returns, with `*old_val` of a removal. -/
inductive Outcome where
  | null
  | entry (a : Addr)
  | removed (oldVal : Nat)
  deriving DecidableEq, Repr

/-- What a removal does once `lockfree_htab_free_nodes` is through. -/
inductive AfterFree where
  | returnRemoved
  | returnNull
  | retry
  | finish
  deriving DecidableEq, Repr

inductive Pc where
  /-- `try_again`: read the bucket head. -/
  | readBucket
  /-- `try_again_fastpath`: read the next link of the current node. -/
  | readNext
  /-- Read the left link again while waiting for a deletion. -/
  | reread
  /-- Read the next link of the node found by `reread`. -/
  | rereadNext
  /-- Swing the left link to the new node. -/
  | casInsert
  /-- Unlink the marked nodes between the left link and the current node. -/
  | casUnlinkRun
  /-- Compare the value of the current node with the sentinel. -/
  | readValue
  /-- Read the next link of the node to be marked. -/
  | readNextForMark
  /-- Mark the next link of the current node. -/
  | casMark
  /-- Unlink the node that was marked. -/
  | casUnlink
  /-- Save the removed value, free the node and return. -/
  | saveOldVal
  /-- Save the removed value and search again. -/
  | saveOldValRetry
  /-- The loop of `lockfree_htab_free_nodes`. -/
  | freeNodes (begin : Ptr) (after : AfterFree)
  deriving DecidableEq, Repr

/-- The local variables of `lockfree_htab_find`. -/
structure Frame where
  action : HashAction
  key : Key
  pc : Pc
  left : Link
  leftNext : Ptr
  cur : Ptr
  next : Ptr
  newNode : Addr
  removedBegin : Ptr
  removedEnd : Ptr
  removeSucceeded : Bool
  oldVal : Nat
  deriving DecidableEq, Repr

inductive Thread where
  | idle
  | running (f : Frame)
  | returned (out : Outcome)
  | crashed
  | detached
  deriving DecidableEq, Repr

def Thread.frame : Thread → Option Frame
  | .running f => some f
  | _ => none

variable (m : Memory) (f : Frame)

/-- Where a local computation leaves the backend, and what it puts into
`cached_new_node`. -/
structure Effect where
  thread : Thread
  cache : Option Addr
  deriving DecidableEq, Repr

namespace Effect

def running (f : Frame) : Effect := ⟨.running f, none⟩

def returned (out : Outcome) : Effect := ⟨.returned out, none⟩

def crashed : Effect := ⟨.crashed, none⟩

end Effect

/-- The sentinel test of `HASH_FIND` and `HASH_ENTER`; the source reads the `key` field. -/
def Table.passesSentinel (a : Addr) : Bool :=
  !t.hasSentinelValue || (m.elems a).key != t.sentinelValue

/-- The continuation behind a call of `lockfree_htab_free_nodes`. -/
def continueAfter : AfterFree → Effect
  | .returnRemoved => .returned (.removed f.oldVal)
  | .returnNull => .returned .null
  | .retry => .running { f with pc := .saveOldValRetry }
  | .finish => .running { f with pc := .saveOldVal }

/-- The entry of `lockfree_htab_free_nodes`, which flips the low bit of its first argument. -/
def freeNodes (f : Frame) (after : AfterFree) : Effect :=
  if f.removedBegin = Ptr.null then continueAfter f after
  else .running { f with pc := .freeNodes f.removedBegin.unmark after }

/-- The `HASH_FIND` case of the switch. -/
def findCase : Effect :=
  match f.cur.node with
  | none => .returned .null
  | some a =>
    if m.keyOf a = f.key ∧ f.next.marked = false ∧
        t.passesSentinel m a = true then
      .returned (.entry a)
    else .returned .null

/-- The loop test and the first branch of the `HASH_ENTER` case. -/
def enterLoop : Effect :=
  match f.cur.node with
  | none => .running { f with pc := .casInsert }
  | some a =>
    if m.keyOf a = f.key then
      if f.next.marked = false ∧ t.passesSentinel m a = true then
        ⟨.returned (.entry a), some f.newNode⟩
      else .running { f with pc := .reread }
    else .running { f with pc := .casInsert }

/-- The part of the `HASH_REMOVE` case where the left link leads to the current node. -/
def removeAdjacent : Effect :=
  if f.removeSucceeded then freeNodes f .returnRemoved
  else
    match f.cur.node with
    | none => freeNodes f .returnNull
    | some a =>
      if m.keyOf a = f.key then
        if t.hasSentinelValue then .running { f with pc := .readValue }
        else .running { f with pc := .readNextForMark }
      else freeNodes f .returnNull

/-- The start of the `HASH_REMOVE` case. -/
def removeCase : Effect :=
  if f.leftNext = f.cur then
    removeAdjacent t m { f with removedBegin := Ptr.null }
  else .running { f with pc := .casUnlinkRun }

def exitLoop : Effect :=
  match f.action with
  | .find => findCase t m f
  | .enter => enterLoop t m f
  | .remove => removeCase t m f

/-- `try_again_fastpath`: leave the loop at the end of the list, else look at the node. -/
def fastpath : Effect :=
  match f.cur.node with
  | none => exitLoop t m f
  | some _ => .running { f with pc := .readNext }

def loopTop (link : Link) (next : Ptr) : Effect :=
  if next.marked then fastpath t m { f with cur := next.unmark, next := next }
  else fastpath t m
    { f with left := link, leftNext := next, cur := next, next := next }

/-- A node's next link has been read: leave the search loop or go around it. -/
def visit (a : Addr) (next : Ptr) : Effect :=
  if f.key ≤ m.keyOf a ∧ (f.action = .remove → next.marked = false) then
    exitLoop t m { f with next := next }
  else loopTop t m f (.node a) next

/-- The end of the function: a failed swap left the current left link in `leftNext`. -/
def restart : Effect :=
  if f.leftNext.marked then .running { f with pc := .readBucket }
  else fastpath t m { f with next := f.leftNext, cur := f.leftNext }

/-- The current node carries a mark: go on to unlink it. -/
def afterMark (next : Ptr) : Effect :=
  .running { f with removeSucceeded := true, next := next.getUnmarked, pc := .casUnlink }

/-- The node that a pointer denotes when it is followed; marked and null pointers denote none. -/
def rawptr (ptr : Ptr) : Option Addr :=
  if ptr.marked then none else ptr.node

def stepFrame : Memory × Effect :=
  match f.pc with
  | .readBucket =>
    let bucket : Link := .head (t.bucketOf f.key)
    (m, loopTop t m f bucket (m.read bucket))
  | .readNext =>
    match rawptr f.cur with
    | none => (m, .crashed)
    | some a => (m, visit t m f a (m.read (.node a)))
  | .reread =>
    let cur := m.read f.left
    if cur.marked then (m, .running { f with cur := cur, pc := .readBucket })
    else (m, .running { f with leftNext := cur, cur := cur, pc := .rereadNext })
  | .rereadNext =>
    match rawptr f.cur with
    | none => (m, .crashed)
    | some a =>
      (m, enterLoop t m { f with next := m.read (.node a) })
  | .casInsert =>
    let prepared := m.write (.node f.newNode) f.cur
    if prepared.read f.left = f.leftNext then
      (prepared.write f.left (.ofNode f.newNode), .returned (.entry f.newNode))
    else
      (prepared, restart t prepared { f with leftNext := prepared.read f.left })
  | .casUnlinkRun =>
    if m.read f.left = f.leftNext then
      let unlinked := m.write f.left f.cur
      (unlinked, removeAdjacent t unlinked
        { f with
          removedBegin := f.leftNext, removedEnd := f.cur, leftNext := f.cur })
    else
      (m, restart t m
        { f with
          removedBegin := f.leftNext, removedEnd := f.cur
          leftNext := m.read f.left })
  | .readValue =>
    match rawptr f.cur with
    | none => (m, .crashed)
    | some a =>
      if (m.elems a).value = t.sentinelValue then
        (m, .running { f with pc := .readNextForMark })
      else (m, freeNodes f .returnNull)
  | .readNextForMark =>
    match rawptr f.cur with
    | none => (m, .crashed)
    | some a =>
      let next := m.read (.node a)
      if next.marked then (m, afterMark f next)
      else (m, .running { f with next := next, pc := .casMark })
  | .casMark =>
    match rawptr f.cur with
    | none => (m, .crashed)
    | some a =>
      let next := m.read (.node a)
      if next = f.next then
        (m.write (.node a) f.next.mark, afterMark f f.next)
      else if next.marked then (m, afterMark f next)
      else (m, .running { f with next := next })
  | .casUnlink =>
    if m.read f.left = f.leftNext then
      (m.write f.left f.next, freeNodes f .finish)
    else (m, freeNodes { f with leftNext := m.read f.left } .retry)
  | .saveOldVal =>
    match rawptr f.cur with
    | none => (m, .crashed)
    | some a =>
      (m.free f.cur, .returned (.removed (m.elems a).value))
  | .saveOldValRetry =>
    match rawptr f.cur with
    | none => (m, .crashed)
    | some a =>
      (m, restart t m { f with oldVal := (m.elems a).value })
  | .freeNodes begin after =>
    if begin = f.removedEnd then (m, continueAfter f after)
    else
      match rawptr begin with
      | none => (m.free begin, .crashed)
      | some a =>
        (m.free begin,
          .running { f with pc := .freeNodes (m.read (.node a)).unmark after })

/-- All backends with the memory they share; `cached` is each backend's `cached_new_node`. -/
structure State where
  memory : Memory
  threads : Tid → Thread
  cached : Tid → Option Addr

/-- The choices of a scheduler and of the callers. -/
inductive Label where
  /-- A backend without a call starts one. -/
  | invoke (tid : Tid) (action : HashAction) (key : Key)
  /-- A running call makes its next shared access. -/
  | step (tid : Tid)
  /-- A caller stores through a value pointer that it was given. -/
  | store (a : Addr) (value : Nat)
  /-- `lockfree_htab_destroy` by a backend without a call. -/
  | destroy (tid : Tid)
  deriving DecidableEq, Repr

/-- The variables of a call before its first shared access. -/
def Frame.start (action : HashAction) (key : Key) (newNode : Addr) : Frame where
  action := action
  key := key
  pc := .readBucket
  left := .head (t.bucketOf key)
  leftNext := Ptr.null
  cur := Ptr.null
  next := Ptr.null
  newNode := newNode
  removedBegin := Ptr.null
  removedEnd := Ptr.null
  removeSucceeded := false
  oldVal := 0

def Thread.ready : Thread → Bool
  | .idle => true
  | .returned _ => true
  | _ => false

namespace State

def install (s : State) (tid : Tid) (m : Memory) (effect : Effect) : State where
  memory := m
  threads := update s.threads tid effect.thread
  cached :=
    match effect.cache with
    | none => s.cached
    | some a => update s.cached tid (some a)

/-- The entry of `lockfree_htab_find`: an insertion sets up a cached or a new node. -/
def invoke (t : Table) (s : State) (tid : Tid) (action : HashAction) (key : Key) : State :=
  match action with
  | .enter =>
    match s.cached tid with
    | some a =>
      { memory :=
          { s.memory with
            elems := update s.memory.elems a
              { s.memory.elems a with key := key } }
        threads := update s.threads tid
          (.running (Frame.start t .enter key a))
        cached := update s.cached tid none }
    | none =>
      { memory :=
          { s.memory with
            elems := update s.memory.elems s.memory.fresh
              ⟨key, 0, Ptr.null⟩
            fresh := s.memory.fresh + 1 }
        threads := update s.threads tid
          (.running (Frame.start t .enter key s.memory.fresh))
        cached := s.cached }
  | action =>
    { s with
      threads := update s.threads tid
        (.running (Frame.start t action key s.memory.fresh)) }

def store (s : State) (a : Addr) (value : Nat) : State :=
  { s with
    memory :=
      { s.memory with
        elems := update s.memory.elems a
          { s.memory.elems a with value := value } } }

/-- `lockfree_htab_destroy` hands the cached node back to the slab. -/
def destroy (s : State) (tid : Tid) : State where
  memory :=
    match s.cached tid with
    | none => s.memory
    | some a => s.memory.free (.ofNode a)
  threads := update s.threads tid .detached
  cached := update s.cached tid none

end State

def Table.isSentinel (value : Nat) : Bool :=
  t.hasSentinelValue && value == t.sentinelValue

/-- The system.  A sentinel value, once set, is not cleared until the entry is removed. -/
def next (s : State) : Label → Option State
  | .invoke tid action key =>
    if (s.threads tid).ready then some (s.invoke t tid action key) else none
  | .step tid =>
    match s.threads tid with
    | .running f =>
      let res := stepFrame t s.memory f
      some (s.install tid res.1 res.2)
    | _ => none
  | .store a value =>
    if t.isSentinel (s.memory.elems a).value ∧ t.isSentinel value = false then none
    else some (s.store a value)
  | .destroy tid =>
    if (s.threads tid).ready then some (s.destroy tid) else none

/-- `lockfree_htab_init`: every bucket is empty and no backend is in a call. -/
def initial : State where
  memory := ⟨fun _ => Ptr.null, fun _ => ⟨0, 0, Ptr.null⟩, 0, []⟩
  threads := fun _ => .idle
  cached := fun _ => none

/-- A table with one bucket and no sentinel value. -/
def plainTable : Table := ⟨fun _ => 0, 0, false, 0⟩

def solo (tid : Tid) (count : Nat) : List Label := replicate count (.step tid)

end PgAqp.Hash
