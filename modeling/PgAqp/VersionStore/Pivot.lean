import Mathlib.Algebra.BigOperators.Group.Finset.Basic
import PgAqp.VersionStore.ChainSafety
import PgAqp.VersionStore.Snapshot

/-!
# A pivot, its version chain, and the transactions

An insertion adds its value to the aggregate of the pivot and then to the version of its
transaction.  Vacuum takes dead entries off the leaf pages and then subtracts their values; an
insertion takes entries off that are marked as dead, and subtracts nothing.  A split of the leaf
page computes the aggregate anew and replaces the chain.  A reader with a snapshot reads the
aggregate and then walks the version chain.  The leaf entries below the pivot, with the node that
their value was added to, are not in the code; one that moves to the right page keeps its number
and loses its value.
-/

namespace PgAqp.VersionStore

open Hash (Ptr Addr Tid)
open Library Function List

/-- `TransactionIdAdvance`: the next id, without the special ones. -/
def transactionIdAdvance (xid : Nat) : Nat :=
  if (xid + 1) % 4294967296 < 3 then xid + 1 - (xid + 1) % 4294967296 + 3 else xid + 1

structure Entry where
  xmin : Xid
  value : Nat
  /-- The version node that has the value. -/
  node : Option Addr
  /-- Whether the entry is still on its leaf page. -/
  present : Bool
  deriving DecidableEq, Repr

/-- A snapshot in use, and the transaction that took it, which sees its own rows. -/
structure LiveSnapshot where
  snapshot : AbtSnapshot
  own : Option Xid
  deriving DecidableEq, Repr

/-- The next shared access of `_abt_read_agg` after the aggregate was read. -/
inductive ReaderPc where
  /-- `_abtvs_find_chain_head`: find the entry of the key. -/
  | findHead
  /-- Read the chain head. -/
  | readHead (e : EntryId)
  /-- Read `delta_val` of the current node. -/
  | readDelta (a : Addr)
  /-- Read the link of the current node. -/
  | readNext (a : Addr)
  | done
  | crashed
  deriving DecidableEq, Repr

/-- The local variables of `_abt_read_agg` and `_abtvs_exclude_agg_in_snapshot`. -/
structure Reader where
  live : LiveSnapshot
  /-- `xip` from index `i` on. -/
  xip : List Xid
  agg : Nat
  pc : ReaderPc
  /-- The number of entries whose value was in the aggregate when it was read. -/
  seen : Nat
  deriving DecidableEq, Repr

/-- The pivot with everything that reads and changes its aggregate. -/
structure Pivot where
  versions : State
  agg : Nat
  entries : Nat → Entry
  count : Nat
  /-- The backends that are inserting, each with its entry. -/
  writers : List (Tid × Nat)
  /-- What a vacuum has taken off the leaf pages and not yet subtracted. -/
  vacuum : Option Nat
  nextXid : Xid
  latestCompletedXid : Xid
  running : List Xid
  aborted : List Xid
  live : List LiveSnapshot
  reader : Option Reader

inductive PivotLabel where
  /-- A transaction gets its id. -/
  | start
  | finish (xid : Xid) (aborts : Bool)
  /-- `GetSnapshotData` and `_abt_prepare_snapshot_for_sampling`. -/
  | snapshot (own : Option Xid)
  | release (live : LiveSnapshot)
  /-- Add the value to the aggregate and call `_abtvs_find_or_create_node`. -/
  | add (tid : Tid) (xmin : Xid) (value : Nat)
  /-- Add the value to the version that was found. -/
  | addDelta (tid : Tid)
  /-- A step inside the version store. -/
  | store (label : Label)
  /-- Vacuum takes an entry off its leaf page. -/
  | remove (i : Nat)
  /-- `_abt_decrement_aggs_for_vacuum` at the pivot. -/
  | decrement
  /-- `_abt_delitems_delete` takes an entry with an `LP_DEAD` mark off its leaf page. -/
  | removeDead (i : Nat)
  /-- The leaf page is split: some entries move to the right page, and
  `_abtvs_replace_chain_head` makes its accesses. -/
  | split (tid : Tid) (moved : List Nat) (recentGlobalDataXmin : Xid) (accesses : Nat)
  /-- `_abt_read_agg` reads the aggregate. -/
  | read (live : LiveSnapshot)
  /-- The reader makes its next shared access. -/
  | readStep
  /-- `_abt_read_agg` returns. -/
  | endRead
  deriving DecidableEq, Repr

/-- The range of the word that `pg_atomic_fetch_add` works on. -/
def AggType.wordRange : AggType → Nat
  | .int8 => 18446744073709551616
  | _ => 4294967296

namespace Reader

/-- The loop of `_abtvs_exclude_agg_in_snapshot` looks at the pointer that was just read. -/
def look (reader : Reader) (st : Store) (cur : Ptr) : Reader :=
  match cur with
  | ⟨none, false⟩ => { reader with pc := .done }
  | ⟨none, true⟩ => { reader with pc := .crashed }
  | ⟨some a, true⟩ =>
    if normalTransactionIdPrecedes (st.misreadXmin a) reader.live.snapshot.xmin then
      { reader with pc := .done }
    else { reader with pc := .crashed }
  | ⟨some a, false⟩ =>
    match verdict reader.live.snapshot reader.xip (st.xminOf a) with
    | .stop => { reader with pc := .done }
    | .keep rest => { reader with xip := rest, pc := .readNext a }
    | .subtract rest => { reader with xip := rest, pc := .readDelta a }

def step (typ : AggType) (st : Store) (reader : Reader) : Reader :=
  match reader.pc with
  | .findHead =>
    match st.entry with
    | none => { reader with pc := .done }
    | some e => { reader with pc := .readHead e }
  | .readHead e => reader.look st (st.heads e).getUnmarked
  | .readDelta a =>
    { reader with
      agg := sub64 reader.agg (typ.read (st.nodes a).deltaVal), pc := .readNext a }
  | .readNext a => reader.look st (st.read (.node a))
  | .done => reader
  | .crashed => reader

end Reader

namespace Pivot

variable (s : Pivot)

/-- `GetSnapshotData`: every running id below the next one to complete, but not the own one. -/
def getSnapshotData (own : Option Xid) : SnapshotData where
  isMvcc := true
  xmin := s.running.foldl min (transactionIdAdvance s.latestCompletedXid)
  xmax := transactionIdAdvance s.latestCompletedXid
  xip := s.running.filter fun xid =>
    decide (xid < transactionIdAdvance s.latestCompletedXid ∧ some xid ≠ own)
  subxip := []
  takenDuringRecovery := false

/-- `GetOldestXmin` may return the id: no running transaction and no snapshot in use needs a
version before it. -/
def oldest (xid : Xid) : Bool :=
  decide (xid ≤ transactionIdAdvance s.latestCompletedXid) &&
    s.running.all (fun other => decide (xid ≤ other)) &&
    s.live.all fun live => decide (xid ≤ live.snapshot.xmin)

/-- Vacuum removes the entries of aborted transactions, and those of rows that no snapshot in
use can see. -/
def removable (i : Nat) : Bool :=
  decide (i < s.count) && (s.entries i).present &&
    decide ((s.entries i).xmin ∉ s.running) &&
    (decide ((s.entries i).xmin ∈ s.aborted) ||
      s.live.all fun live => decide ((s.entries i).xmin < live.snapshot.xmin))

def insertsFor (xid : Xid) : Bool :=
  s.writers.any fun writer => decide ((s.entries writer.2).xmin = xid)

def readsFor (xid : Xid) : Bool :=
  s.reader.any fun reader => decide (reader.live.own = some xid)

/-- The steps of the version store that belong to running insertions and to the collector. -/
def internal : Label → Bool
  | .insert _ _ => false
  | .replace _ _ => false
  | .pass xid => s.oldest xid
  | _ => true

def addEntry (typ : AggType) (s : Pivot) (tid : Tid) (xmin : Xid) (value : Nat)
    (versions : State) : Pivot :=
  { s with
    versions := versions
    agg := (s.agg + value) % typ.wordRange
    entries := update s.entries s.count ⟨xmin, value, none, true⟩
    count := s.count + 1
    writers := (tid, s.count) :: s.writers }

def addToVersion (typ : AggType) (s : Pivot) (tid : Tid) (i : Nat) (a : Addr) : Pivot :=
  { s with
    versions := { s.versions with
      store := s.versions.store.addDelta a (s.entries i).value typ.wordRange }
    entries := update s.entries i { s.entries i with node := some a }
    writers := s.writers.filter fun writer => writer.1 ≠ tid }

def removeEntry (i : Nat) : Pivot :=
  { s with
    entries := update s.entries i { s.entries i with present := false }
    vacuum := some (s.vacuum.getD 0 + (s.entries i).value) }

variable (moved : List Nat)

def stays (i : Nat) : Bool := (s.entries i).present && !moved.contains i

/-- The chain that `_abt_compute_page_aggregate_and_version_chain` makes for the left page: the
ids of its entries but the old ones, in descending order, each with the sum of their values. -/
def leftVersions (recentGlobalDataXmin : Xid) : List (Xid × Nat) :=
  let xids := ((range s.count).filter (s.stays moved)).map fun i => (s.entries i).xmin
  ((xids.filter fun xid => !transactionIdPrecedes xid recentGlobalDataXmin).dedup.insertionSort
    (· ≥ ·)).map fun xid => (xid, ∑ i ∈ Finset.range s.count,
      if s.stays moved i = true ∧ (s.entries i).xmin = xid then (s.entries i).value else 0)

/-- The pivot of the left page, with the nodes of its new chain. -/
def splitLeft (versions : State) (nodes : List Addr) : Pivot :=
  { s with
    versions := versions
    agg := ∑ i ∈ Finset.range s.count, if s.stays moved i then (s.entries i).value else 0
    entries := fun i =>
      if s.stays moved i then
        { s.entries i with
          node := nodes.find? fun a => versions.store.xminOf a = (s.entries i).xmin }
      else { s.entries i with value := 0, node := none, present := false } }

end Pivot

/-- One step around the pivot; a label that is not enabled has no result. -/
def pivotNext (typ : AggType) (s : Pivot) : PivotLabel → Option Pivot
  | .start =>
    some { s with
      nextXid := transactionIdAdvance s.nextXid, running := s.nextXid :: s.running }
  | .finish xid aborts =>
    if xid ∈ s.running ∧ s.insertsFor xid = false then
      some { s with
        latestCompletedXid := max s.latestCompletedXid xid
        running := s.running.filter fun other => other ≠ xid
        aborted := if aborts then xid :: s.aborted else s.aborted }
    else none
  | .snapshot own =>
    (prepareSnapshotForSampling (some (s.getSnapshotData own))).map fun snapshot =>
      { s with live := ⟨snapshot, own⟩ :: s.live }
  | .release live =>
    if s.reader.all (fun reader => decide (reader.live ≠ live)) = true then
      some { s with live := s.live.filter fun other => other ≠ live }
    else none
  | .add tid xmin value =>
    if xmin ∈ s.running ∧ s.writers.lookup tid = none ∧ s.readsFor xmin = false then
      (next s.versions (.insert tid xmin)).map (s.addEntry typ tid xmin value)
    else none
  | .addDelta tid =>
    match s.writers.lookup tid, s.versions.threads tid with
    | some i, .returned a => some (s.addToVersion typ tid i a)
    | _, _ => none
  | .store label =>
    if s.internal label = true then
      (next s.versions label).map fun versions => { s with versions := versions }
    else none
  | .remove i =>
    if s.removable i = true then some (s.removeEntry i) else none
  | .decrement =>
    s.vacuum.map fun sum =>
      { s with
        agg := (s.agg + typ.wordRange - sum % typ.wordRange) % typ.wordRange, vacuum := none }
  | .removeDead i =>
    if s.removable i = true then
      some { s with entries := update s.entries i { s.entries i with present := false } }
    else none
  | .split tid moved recentGlobalDataXmin accesses =>
    -- the locks on the leaf page and on the page of the pivot keep the others out
    if s.writers = [] ∧ s.vacuum = none ∧ s.reader = none ∧
        s.oldest recentGlobalDataXmin = true then
      let versions := s.leftVersions moved recentGlobalDataXmin
      (Run.run next s.versions (.replace tid versions :: replicate accesses (.step tid))).bind
        fun replaced =>
          if replaced.threads tid = .idle then
            some (s.splitLeft moved replaced (newAddrs s.versions.store versions))
          else none
    else none
  | .read live =>
    if s.reader = none ∧ live ∈ s.live ∧ live.own.all (fun xid => !s.insertsFor xid) = true then
      some { s with
        reader := some ⟨live, live.snapshot.xip, typ.read s.agg, .findHead, s.count⟩ }
    else none
  | .readStep =>
    s.reader.map fun reader =>
      { s with reader := some (reader.step typ s.versions.store) }
  | .endRead => some { s with reader := none }

def emptyPivot : Pivot where
  versions := initial
  agg := 0
  entries _ := ⟨0, 0, none, false⟩
  count := 0
  writers := []
  vacuum := none
  nextXid := 3
  latestCompletedXid := 2
  running := []
  aborted := []
  live := []
  reader := none

end PgAqp.VersionStore
