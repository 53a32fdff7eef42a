import PgAqp.Abtree.Dedup
import PgAqp.Wal.Vacuum

/-!
# Deduplication of a leaf page, and its replay

`_abt_dedup_one_page` decides item by item what to merge.  Its record has only the
intervals of items that were merged, and `abtree_xlog_dedup` merges the same intervals
again, with the routines of the primary but with arrays of its own.
-/

namespace PgAqp.Wal

open Library Abtree

/-- What `_abt_dedup_one_page` is called with besides the page. -/
structure DedupRequest where
  /-- `_abt_keep_natts_fast(rel, ...) > nkeyatts`. -/
  sameKey : IndexTuple → IndexTuple → Bool
  newitem : IndexTuple
  newitemsz : Nat
  checkingunique : Bool
  /-- The items whose line pointer is marked dead. -/
  deletable : List Nat

/-- `xl_abtree_dedup` with the data of its block. -/
structure DedupRecord where
  nintervals : Nat
  aggInfo : Bytes
  leafHasAgg : Bool
  block : Bytes
  deriving DecidableEq, Repr

structure DedupPass where
  state : DedupState
  newpage : Page
  singlevalstrat : Bool
  deriving DecidableEq, Repr

/-- The page at the time of the first merge, and what follows if something is merged. -/
structure Deduplicated where
  prior : Page
  merged : Option (Page × DedupRecord)
  deriving DecidableEq, Repr

/-- `ABTDedupMaxNumberOfTIDs`, in an assignment. -/
def maxNumberOfTids (maxpostingsize : Int) : Int := maxpostingsize / 6 + 1

variable (info : AggInfo) (ivs : List DedupInterval) (request : DedupRequest) (page : Page)

/-- The state before the loop of `_abt_dedup_one_page`. -/
def dedupState : DedupState :=
  let maxpostingsize := min (maxItemSizeNoAgg / 2) 8191
  { deduplicate := true
    saveExtra := true
    nmaxitems := 0
    maxpostingsize := maxpostingsize
    sizes :=
      { htids := maxpostingsize
        aggs := if info.leafHasAgg then maxNumberOfTids maxpostingsize * info.aggStride.toInt else 0
        xmins := maxNumberOfTids maxpostingsize * 4 }
    pending := none
    intervals := [] }

/-- `_abt_do_singleval`. -/
def doSingleval (minoff : Nat) : Option Bool := do
  let first ← page.item minoff
  let last ← page.item page.maxOffset
  return request.sameKey request.newitem first && request.sameKey request.newitem last

/-- The single value strategy is not considered if uniqueness is checked. -/
def useSingleval (minoff : Nat) : Option Bool :=
  if request.checkingunique then some false else doSingleval request page minoff

/-- `_abt_singleval_fillfactor`.  The new item is smaller than a page. -/
def singlevalFillfactor (s : DedupState) (newitemsz : Nat) : DedupState :=
  let leftfree := 8192 - 24 - (maxalign 24).toNat - (newitemsz + (maxalign 6).toNat)
  let reduction := leftfree * (100 - 96) / 100
  { s with
    maxpostingsize :=
      if reduction < s.maxpostingsize then s.maxpostingsize - reduction else 0 }

/-- What the single value strategy changes once a pending list is finished. -/
def singlevalStep (newitemsz : Nat) (pass : DedupPass) : DedupPass :=
  if pass.singlevalstrat then
    if pass.state.nmaxitems = 5 then
      { pass with state := singlevalFillfactor pass.state newitemsz }
    else if pass.state.nmaxitems = 6 then
      { pass with state := { pass.state with deduplicate := false }, singlevalstrat := false }
    else pass
  else pass

/-- Finish the pending list and start the next one with an item. -/
def dedupFlush (newitemsz : Nat) (pass : DedupPass) (offnum : Nat)
    (itup : IndexTuple) : Option DedupPass := do
  let finished ← pass.state.finishPending info pass.newpage
  let adjusted := singlevalStep newitemsz { pass with newpage := finished.1, state := finished.2 }
  let started ← adjusted.state.startPending info itup offnum
  return { adjusted with state := started }

/-- One iteration after the first of the loop over the items. -/
def dedupItem (pass : DedupPass) (offnum : Nat) (itup : IndexTuple) : Option DedupPass :=
  let newitemsz := request.newitemsz + 4
  if pass.state.deduplicate && pass.state.pending.any (fun pending =>
      decide (pending.parts.nhtids > 0) && request.sameKey pending.base itup) then
    (pass.state.saveHtid info itup).bind fun saved =>
      if saved.1 then some { pass with state := saved.2 }
      else dedupFlush info newitemsz { pass with state := saved.2 } offnum itup
  else dedupFlush info newitemsz pass offnum itup

def dedupItems (info : AggInfo) (request : DedupRequest) :
    DedupPass → Nat → List IndexTuple → Option DedupPass
  | pass, _, [] => some pass
  | pass, offnum, itup :: items =>
    (dedupItem info request pass offnum itup).bind fun pass =>
      dedupItems info request pass (offnum + 1) items

/-- An empty page with the high key, if any, and the special area of a page. -/
def copyHikey : Option Page :=
  if page.isRightmost then some { page with items := [] }
  else (page.item 1).bind fun hikey => Page.addItem { page with items := [] } hikey 1

/-- `ABTDedupInterval` as it is stored. -/
def intervalsToBytes : Bytes :=
  Bytes.ofArray 2 (ivs.flatMap fun interval => [interval.baseoff, interval.nitems])

/-- The record that `_abt_dedup_one_page` writes. -/
def dedupRecord : DedupRecord where
  nintervals := ivs.length
  aggInfo := loggedAggInfo info
  leafHasAgg := info.leafHasAgg
  block := intervalsToBytes ivs

/-- The whole pass over the page: the new page and the intervals that were merged. -/
def dedupPage :
    Option (Page × DedupState) := do
  let minoff := page.firstDataKey
  let singlevalstrat ← useSingleval request page minoff
  let newpage ← copyHikey page
  match page.items.drop (minoff - 1) with
  | [] => (dedupState info).finishPending info newpage
  | first :: items =>
    let started ← (dedupState info).startPending info first minoff
    let pass ← dedupItems info request ⟨started, newpage, singlevalstrat⟩ (minoff + 1) items
    pass.state.finishPending info pass.newpage

/-- `_abt_delitems_delete`, on the page. -/
def delitemsDelete (deletable : List Nat) : Option Page :=
  (page.multiDelete deletable).map fun page =>
    { page with special := { page.special with
        flags := { page.special.flags with hasGarbage := false, hadGarbageRemoved := true } } }

def deleteDead (deletable : List Nat) : Option Page :=
  if deletable = [] then some page else delitemsDelete page deletable

/-- `_abt_dedup_one_page`. -/
def dedupOnePage : Option Deduplicated :=
  (deleteDead page request.deletable).bind fun prior =>
    if request.deletable ≠ [] ∧ request.newitemsz ≤ prior.freeSpace then some ⟨prior, none⟩
    else
      (dedupPage info request prior).map fun merged =>
        if merged.2.intervals = [] then ⟨prior, none⟩
        else ⟨prior, some (clearGarbage merged.1, dedupRecord info merged.2.intervals)⟩

/-- The state before the loop of `abtree_xlog_dedup`.  `ABTDedupMaxNumberOfTIDs` has no
parentheses around it, so in the size of an array only its second summand is multiplied. -/
def redoState : DedupState where
  deduplicate := true
  saveExtra := true
  nmaxitems := 0
  maxpostingsize := maxItemSize info
  sizes :=
    { htids := maxItemSize info
      aggs := if info.leafHasAgg then maxItemSize info / 6 + 1 * info.aggStride.toInt else 0
      xmins := maxItemSize info / 6 + 1 * 4 }
  pending := none
  intervals := []

def intervalsOfArray : List Nat → List DedupInterval
  | baseoff :: nitems :: values => ⟨baseoff, nitems⟩ :: intervalsOfArray values
  | _ => []

/-- The pending list has to get the next item too. -/
def expects (s : DedupState) : Bool :=
  (ivs[s.intervals.length]?).any fun interval =>
    s.pending.any fun pending =>
      pending.baseoff == interval.baseoff && decide (pending.nitems < interval.nitems)

/-- The loop of `abtree_xlog_dedup` over the items from an offset on. -/
def redoItems (info : AggInfo) (ivs : List DedupInterval) :
    DedupState → Page → Nat → List IndexTuple → Option (DedupState × Page)
  | s, newpage, _, [] => some (s, newpage)
  | s, newpage, offnum, itup :: items =>
    if expects ivs s then
      (s.saveHtid info itup).bind fun saved =>
        if saved.1 then redoItems info ivs saved.2 newpage (offnum + 1) items else none
    else
      (s.finishPending info newpage).bind fun finished =>
        (finished.2.startPending info itup offnum).bind fun started =>
          redoItems info ivs started finished.1 (offnum + 1) items

/-- `abtree_xlog_dedup` once it has read the record. -/
def redoPage :
    Option (Page × DedupState) := do
  let newpage ← copyHikey page
  match page.items.drop (page.firstDataKey - 1) with
  | [] => (redoState info).finishPending info newpage
  | first :: items =>
    let started ← (redoState info).startPending info first page.firstDataKey
    let looped ← redoItems info ivs started newpage (page.firstDataKey + 1) items
    looped.1.finishPending info looped.2

/-- `abtree_xlog_dedup`. -/
def xlogDedup (raw : Uninitialised) (record : DedupRecord) (page : Page) : Option Page :=
  let info := recoveredAggInfo raw record.leafHasAgg record.aggInfo
  let ivs := intervalsOfArray (Bytes.takeArray 2 (2 * record.nintervals) record.block).1
  (redoPage info ivs page).map fun res => clearGarbage res.1

end PgAqp.Wal
