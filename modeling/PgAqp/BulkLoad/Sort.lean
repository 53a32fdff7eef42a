import PgAqp.Abtree.Dedup
import PgAqp.Sampling.Key

/-!
# Building an index from sorted tuples

`_abt_load` reads the sorted tuples and adds them to the leaf level with `_abt_buildadd`.
Every level has one open page.  When it is full, its last item moves to a new page and
becomes its high key, and the low key of the full page is added to the level above with
the aggregate of what stays on it.  `_abt_uppershutdown` closes the open pages.
-/

namespace PgAqp.BulkLoad

open Abtree Sampling

variable {ι α : Type}

/-! ## Aggregates -/

inductive AggType where
  | int2
  | int4
  | int8
  deriving DecidableEq, Repr

def AggType.typlen : AggType → Int16
  | .int2 => 2
  | .int4 => 4
  | .int8 => 8

def AggType.limit : AggType → Int
  | .int2 => 32768
  | .int4 => 2147483648
  | .int8 => 9223372036854775808

def AggType.Fits (aggType : AggType) (value : Int) : Prop :=
  -aggType.limit ≤ value ∧ value < aggType.limit
  deriving Decidable

/-- How a build fails.  The last three would be faults of the build itself: `elog(ERROR)`
for a page without room and an oversized pivot, and the assertion that a page has two
items when it is finished. -/
inductive BuildError where
  | oversized
  | outOfRange
  | noRoom
  | oversizedPivot
  | tooFewItems
  deriving DecidableEq, Repr

/-- `int2pl` and its siblings, or `int2mul`: the exact result or an error. -/
def AggType.checked (aggType : AggType) (res : Int) : Except BuildError Int :=
  if aggType.Fits res then .ok res else .error .outOfRange

/-- The index that is built.  A tuple is known by its image, which has the key attributes
and everything else that it stores.  `formSize` is the size of the tuple that
`index_form_tuple` makes, `truncateSize` that of `index_truncate_tuple` with the first key
attributes only, which is not larger, as it asserts. -/
structure Index (ι α : Type) where
  nkeyatts : Nat
  aggType : AggType
  leafHasAgg : Bool
  aggMapVal : Int
  attrs : ι → List α
  map : ι → Int
  formSize : ι → Nat
  truncateSize : ι → Nat → Nat
  /-- `ABTGetTargetPageFreeSpace`. -/
  targetFreeSpace : Int
  attrs_length : ∀ image, (attrs image).length = nkeyatts
  formSize_aligned : ∀ image, 8 ∣ formSize image
  truncateSize_aligned : ∀ image count, 8 ∣ truncateSize image count
  truncateSize_le : ∀ image count, truncateSize image count ≤ formSize image
  aggMapVal_fits : aggType.Fits aggMapVal
  map_fits : ∀ image, aggType.Fits (map image)

namespace Index

def info (ix : Index ι α) : AggInfo :=
  ⟨ix.leafHasAgg, ix.aggType.typlen, ix.aggType.typlen⟩

def value (ix : Index ι α) (image : ι) : Int :=
  if ix.leafHasAgg then ix.map image else ix.aggMapVal

/-- The size of a tuple from the sort, with the space for its aggregate. -/
def plainSize (ix : Index ι α) (image : ι) : Nat :=
  ix.formSize image + ix.info.extraSpaceForNonpivotTuple.toNat

end Index

/-! ## Tuples -/

structure Row (ι : Type) where
  image : ι
  heapTid : Nat
  deriving DecidableEq, Repr

variable (ix : Index ι α)

def Index.key (row : Row ι) : Key α :=
  ⟨ix.attrs row.image, some row.heapTid⟩

structure LeafTuple (ι : Type) where
  image : ι
  heapTid : Nat
  moreTids : List Nat
  deriving DecidableEq, Repr

namespace LeafTuple

def tids (tup : LeafTuple ι) : List Nat :=
  tup.heapTid :: tup.moreTids

def rows (tup : LeafTuple ι) : List (Row ι) :=
  tup.tids.map fun tid => ⟨tup.image, tid⟩

/-- `ABTreeTupleIsPosting`. -/
def isPosting (tup : LeafTuple ι) : Bool :=
  !tup.moreTids.isEmpty

/-- `ABTreeTupleGetMaxHeapTID`. -/
def maxHeapTid (tup : LeafTuple ι) : Nat :=
  tup.moreTids.getLastD tup.heapTid

/-- `IndexTupleSize`.  The posting list of a tuple that `_abt_form_posting` makes comes
after the whole base tuple. -/
def size (ix : Index ι α) (tup : LeafTuple ι) : Int :=
  if tup.isPosting then
    postingSize ix.info (ix.plainSize tup.image) tup.tids.length
  else ix.plainSize tup.image

/-- What `_abt_sort_dedup_finish_pending` passes as `truncextra`. -/
def truncextra (ix : Index ι α) (tup : LeafTuple ι) : Int :=
  if tup.isPosting then tup.size ix - ix.plainSize tup.image else 0

end LeafTuple

structure PivotTuple (α : Type) where
  key : Key α
  size : Int
  downlink : Nat
  agg : Int
  deriving DecidableEq, Repr

inductive Item (ι α : Type) where
  | leaf (tup : LeafTuple ι)
  | pivot (tup : PivotTuple α)
  deriving DecidableEq, Repr

def Item.size (ix : Index ι α) : Item ι α → Int
  | .leaf tup => tup.size ix
  | .pivot tup => tup.size

def minusInfinity : Key α :=
  ⟨[], none⟩

def minusInfinitySize : Int :=
  maxalign 8 + ix.info.extraSpaceWhenTidMissing

/-- `_abt_sortaddtup` keeps only the downlink and the aggregate of the first pivot. -/
def Item.truncateFirst : Item ι α → Item ι α
  | .leaf tup => .leaf tup
  | .pivot tup =>
    .pivot { tup with key := minusInfinity, size := minusInfinitySize ix }

/-! ## High keys -/

structure SizedKey (α : Type) where
  key : Key α
  size : Int
  deriving DecidableEq, Repr

/-- `_abt_keep_natts`, for tuples with the same number of attributes. -/
def keepNatts [DecidableEq α] : List α → List α → Nat
  | first :: firsts, second :: seconds =>
    if first = second then keepNatts firsts seconds + 1 else 1
  | _, _ => 1

/-- `_abt_truncate`. -/
def truncate [DecidableEq α] (lastleft firstright : LeafTuple ι) : SizedKey α :=
  let keepnatts := keepNatts (ix.attrs lastleft.image) (ix.attrs firstright.image)
  let kept := (ix.attrs firstright.image).take keepnatts
  if keepnatts < ix.nkeyatts then
    ⟨⟨kept, none⟩, ix.truncateSize firstright.image keepnatts⟩
  else
    let newSize : Int :=
      if firstright.isPosting then ix.plainSize firstright.image
      else ix.formSize firstright.image
    if keepnatts ≤ ix.nkeyatts then ⟨⟨kept, none⟩, newSize⟩
    else ⟨⟨kept, some lastleft.maxHeapTid⟩, newSize + maxalign 6⟩

namespace SizedKey

/-- `_abt_pivot_tuple_reserve_agg_space`. -/
def reserve (ix : Index ι α) (pivot : SizedKey α) : SizedKey α :=
  if pivot.key.heapTid.isSome then
    ⟨pivot.key, maxalignDown (pivot.size - 6) + ix.info.extraSpaceWhenTidPresent⟩
  else ⟨pivot.key, pivot.size + ix.info.extraSpaceWhenTidMissing⟩

/-- `_abt_pivot_tuple_purge_agg_space`. -/
def purge (ix : Index ι α) (pivot : SizedKey α) : SizedKey α :=
  if pivot.key.heapTid.isSome then
    ⟨pivot.key, maxalign (pivot.size - ix.info.extraSpaceWhenTidPresent + 6)⟩
  else ⟨pivot.key, pivot.size - ix.info.extraSpaceWhenTidMissing⟩

end SizedKey

structure Separator (α : Type) where
  high : SizedKey α
  low : SizedKey α

/-- The separator of pages that end with `prev` and begin with `last`.  On the leaf level the
last tuple is truncated, on the other levels it is taken with and without its aggregate. -/
def separator [DecidableEq α] :
    Item ι α → Item ι α → Except BuildError (Separator α)
  | .leaf prev, .leaf last =>
    .ok ⟨truncate ix prev last, (truncate ix prev last).reserve ix⟩
  | .pivot _, .pivot last =>
    .ok ⟨(⟨last.key, last.size⟩ : SizedKey α).purge ix, ⟨last.key, last.size⟩⟩
  | _, _ => .error .tooFewItems

/-! ## Pages -/

structure Page (ι α : Type) where
  level : Nat
  prev : Option Nat
  next : Option Nat
  hikey : Option (Key α)
  items : List (Item ι α)
  deriving DecidableEq, Repr

/-- `ABTPageState`.  The items are listed from the last one. -/
structure PageState (ι α : Type) where
  level : Nat
  blkno : Nat
  prev : Option Nat
  items : List (Item ι α)
  lowkey : Option (SizedKey α)
  agg : Int
  lastextra : Int
  deriving DecidableEq, Repr

variable (s : PageState ι α)

structure Writer (ι α : Type) where
  pagesAlloced : Nat
  written : List (Nat × Page ι α)
  deriving DecidableEq, Repr

def usedSpace (ix : Index ι α) : List (Item ι α) → Int
  | [] => 0
  | item :: rest => maxalign (item.size ix) + 4 + usedSpace ix rest

/-- `pd_upper - pd_lower`: the page without its header, its special space and the line
pointer of the high key. -/
def pageSpace (items : List (Item ι α)) : Int :=
  (8192 - maxalign 24) - (24 + 4) - usedSpace ix items

/-- `PageGetFreeSpace`. -/
def freeSpace (items : List (Item ι α)) : Int :=
  if pageSpace ix items < 4 then 0 else pageSpace ix items - 4

/-- `ABTMaxItemSizeNoHeapTid`. -/
def maxItemSizeNoHeapTid : Int :=
  maxalignDown ((8192 - maxalign 24 - 3 * maxalign 4 - maxalign 24) / 3)

/-- The check of the item size, with `_abt_check_third_page`. -/
def checkSize (lvl : Nat) (item : Item ι α) : Except BuildError Unit :=
  let itupsz := maxalign (item.size ix)
  if lvl = 0 then
    if itupsz - ix.info.extraSpaceForNonpivotTuple ≤ maxItemSize ix.info then .ok ()
    else if (if ix.leafHasAgg then maxalign (itupsz - ix.info.extraSpaceWhenTidMissing)
        else itupsz) ≤ maxItemSize ix.info then .ok ()
    else .error .oversized
  else if itupsz ≤ maxItemSize ix.info then .ok ()
  else if itupsz ≤ maxItemSizeNoHeapTid then .ok ()
  else .error .oversizedPivot

/-- `abtps_full`. -/
def fullThreshold (lvl : Nat) : Int :=
  if lvl > 0 then 8192 * (100 - 70) / 100 else ix.targetFreeSpace

/-- The page has no room for the item and a heap TID in its high key, or it has at least
two items and is as full as it should be. -/
def mustFinish (item : Item ι α) : Bool :=
  decide (freeSpace ix s.items <
      maxalign (item.size ix) + (if s.level = 0 then maxalign 6 else 0)) ||
    (decide (freeSpace ix s.items + s.lastextra < fullThreshold ix s.level) &&
      decide (1 < s.items.length))

/-! ## Accumulating -/

/-- `_abt_accum_value`. -/
def accumValue (acc valueToAdd : Int) (isFirst : Bool) : Except BuildError Int :=
  if isFirst then .ok valueToAdd else ix.aggType.checked (acc + valueToAdd)

def accumTimes (ix : Index ι α) (value : Int) : Nat → Int → Except BuildError Int
  | 0, acc => .ok acc
  | count + 1, acc =>
    (ix.aggType.checked (acc + value)).bind fun next => accumTimes ix value count next

/-- `_abt_accum_index_tuple_value`. -/
def accumItem (acc : Int) (isFirst : Bool) : Item ι α → Except BuildError Int
  | .pivot tup => accumValue ix acc tup.agg isFirst
  | .leaf tup =>
    if ix.leafHasAgg then
      (accumValue ix acc (ix.map tup.image) isFirst).bind fun first =>
        accumTimes ix (ix.map tup.image) tup.moreTids.length first
    else if tup.isPosting then
      (ix.aggType.checked (ix.aggMapVal * tup.tids.length)).bind fun product =>
        accumValue ix acc product isFirst
    else accumValue ix acc ix.aggMapVal isFirst

/-- `_abt_accum_last_tuple_on_page`. -/
def accumLast : Except BuildError Int :=
  match s.items with
  | [] => .ok s.agg
  | last :: pre => accumItem ix s.agg pre.isEmpty last

/-! ## Adding an item -/

/-- `_abt_pagestate`, with the block that is allocated next. -/
def freshState (lvl blkno : Nat) : PageState ι α :=
  ⟨lvl, blkno, none, [], none, 0, 0⟩

structure Finished (ι α : Type) where
  page : Page ι α
  parent : PivotTuple α
  state : PageState ι α

/-- Finish the open page: its last item becomes its high key and the first item of a new
page.  `PageAddItem` and `PageIndexTupleOverwrite` fail if there is no room. -/
def finishPage [DecidableEq α] (nblkno : Nat) : Except BuildError (Finished ι α) :=
  match s.items, s.lowkey with
  | last :: prev :: pre, some lowkey =>
    (separator ix prev last).bind fun between =>
      let moved := if s.level = 0 then last else last.truncateFirst ix
      if pageSpace ix ([] : List (Item ι α)) < 4 + maxalign (moved.size ix) then
        .error .noRoom
      else if maxalign (last.size ix) + (pageSpace ix s.items + 4) <
          maxalign between.high.size then .error .noRoom
      else .ok
        { page :=
            ⟨s.level, s.prev, some nblkno, some between.high.key,
              (prev :: pre).reverse⟩
          parent := ⟨lowkey.key, lowkey.size, s.blkno, s.agg⟩
          state :=
            { s with
              blkno := nblkno
              prev := some s.blkno
              items := [moved]
              lowkey := some between.low } }
  | _, _ => .error .tooFewItems

/-- Put the item on the open page.  The aggregate of the item before it is accumulated
now. -/
def placeItem (item : Item ι α) (truncextra : Int) : Except BuildError (PageState ι α) :=
  (accumLast ix s).bind fun agg =>
    let stored :=
      if s.level ≠ 0 ∧ s.items = [] then item.truncateFirst ix else item
    if pageSpace ix s.items < 4 + maxalign (stored.size ix) then .error .noRoom
    else .ok
      { s with
        items := stored :: s.items
        lowkey :=
          if s.items = [] then some ⟨minusInfinity, minusInfinitySize ix⟩
          else s.lowkey
        agg := agg
        lastextra := truncextra }

/-- `_abt_buildadd`, given how the entry of a finished page is added to the level above.
The finished page is written after that. -/
def addWith [DecidableEq α]
    (toParent : Writer ι α → PivotTuple α → Except BuildError (List (PageState ι α) × Writer ι α))
    (above : List (PageState ι α)) (s : PageState ι α) (writer : Writer ι α) (item : Item ι α)
    (truncextra : Int) : Except BuildError (PageState ι α × List (PageState ι α) × Writer ι α) :=
  (checkSize ix s.level item).bind fun _ =>
    if mustFinish ix s item then
      (finishPage ix s writer.pagesAlloced).bind fun finished =>
        (toParent { writer with pagesAlloced := writer.pagesAlloced + 1 }
            finished.parent).bind fun added =>
          (placeItem ix finished.state item truncextra).map fun placed =>
            (placed, added.1,
              { added.2 with written := added.2.written ++ [(s.blkno, finished.page)] })
    else (placeItem ix s item truncextra).map fun placed => (placed, above, writer)

/-- `_abt_buildadd` on a level, with the levels above it.  If there is none, a finished page
creates it. -/
def buildAdd [DecidableEq α] (ix : Index ι α) :
    List (PageState ι α) → PageState ι α → Writer ι α → Item ι α → Int →
      Except BuildError (PageState ι α × List (PageState ι α) × Writer ι α)
  | [], s, writer, item, truncextra =>
    addWith ix
      (fun writer parent =>
        (addWith ix (fun _ _ => .error .tooFewItems) []
            (freshState (s.level + 1) writer.pagesAlloced)
            { writer with pagesAlloced := writer.pagesAlloced + 1 } (.pivot parent) 0).map
          fun added => (added.1 :: added.2.1, added.2.2))
      [] s writer item truncextra
  | next :: above, s, writer, item, truncextra =>
    addWith ix
      (fun writer parent =>
        (buildAdd ix above next writer (.pivot parent) 0).map
          fun added => (added.1 :: added.2.1, added.2.2))
      (next :: above) s writer item truncextra

structure LoadState (ι α : Type) where
  levels : List (PageState ι α)
  writer : Writer ι α
  deriving DecidableEq, Repr

def addTuple [DecidableEq α] (load : LoadState ι α) (tup : LeafTuple ι) :
    Except BuildError (LoadState ι α) :=
  let added :=
    match load.levels with
    | [] =>
      buildAdd ix [] (freshState 0 load.writer.pagesAlloced)
        { load.writer with pagesAlloced := load.writer.pagesAlloced + 1 } (.leaf tup)
        (tup.truncextra ix)
    | s :: above =>
      buildAdd ix above s load.writer (.leaf tup) (tup.truncextra ix)
  added.map fun res => ⟨res.1 :: res.2.1, res.2.2⟩

def addTuples [DecidableEq α] (ix : Index ι α) :
    LoadState ι α → List (LeafTuple ι) → Except BuildError (LoadState ι α)
  | load, [] => .ok load
  | load, tup :: rest => (addTuple ix load tup).bind fun next => addTuples ix next rest

/-! ## Closing the levels -/

structure Root where
  blkno : Nat
  level : Nat
  deriving DecidableEq, Repr

structure Loaded (ι α : Type) where
  root : Option Root
  pages : List (Nat × Page ι α)
  deriving DecidableEq, Repr

def PageState.lastPage : Page ι α :=
  ⟨s.level, s.prev, none, none, s.items.reverse⟩

/-- `_abt_uppershutdown`.  Adding the last page of a level to the level above may create one
more level, so that the loop is given the number of rounds it may take. -/
def upperShutdown [DecidableEq α] (ix : Index ι α) :
    Nat → LoadState ι α → Except BuildError (Loaded ι α)
  | _, ⟨[], writer⟩ => .ok ⟨none, writer.written⟩
  | _, ⟨[s], writer⟩ =>
    (accumLast ix s).map fun _ =>
      ⟨some ⟨s.blkno, s.level⟩, writer.written ++ [(s.blkno, s.lastPage)]⟩
  | 0, _ => .error .tooFewItems
  | rounds + 1, ⟨s :: next :: above, writer⟩ =>
    (accumLast ix s).bind fun agg =>
      match s.lowkey with
      | none => .error .tooFewItems
      | some lowkey =>
        (buildAdd ix above next writer
            (.pivot ⟨lowkey.key, lowkey.size, s.blkno, agg⟩) 0).bind fun added =>
          upperShutdown ix rounds
            ⟨added.1 :: added.2.1,
              { added.2.2 with
                written := added.2.2.written ++ [(s.blkno, s.lastPage)] }⟩

/-! ## The sorted tuples -/

def Row.leaf (row : Row ι) : LeafTuple ι :=
  ⟨row.image, row.heapTid, []⟩

/-- The pending posting list.  A base tuple that is too large has no heap TIDs in it. -/
structure Pending (ι : Type) where
  base : Row ι
  htids : List Nat

/-- `maxpostingsize`. -/
def maxPostingSize : Int :=
  maxalignDown (8192 * 10 / 100) - 4

/-- `_abt_dedup_start_pending`. -/
def startPending (row : Row ι) : Pending ι :=
  ⟨row, if ix.plainSize row.image ≤ maxPostingSize then [row.heapTid] else []⟩

/-- The size that `_abt_dedup_save_htid` computes for one more heap TID. -/
def mergedSize (pending : Pending ι) : Int :=
  ix.formSize pending.base.image + maxalign ((pending.htids.length + 1) * 6) +
    (if ix.leafHasAgg then maxalign (ix.info.aggStride.toInt * (pending.htids.length + 1))
      else 0) +
    maxalign (4 * (pending.htids.length + 1))

def canSave [DecidableEq ι] (pending : Pending ι) (row : Row ι) : Bool :=
  !pending.htids.isEmpty && decide (pending.base.image = row.image) &&
    decide (mergedSize ix pending ≤ maxPostingSize)

/-- The tuple that `_abt_sort_dedup_finish_pending` adds. -/
def Pending.finish (pending : Pending ι) : LeafTuple ι :=
  match pending.htids with
  | [] => pending.base.leaf
  | first :: more => ⟨pending.base.image, first, more⟩

def dedupFrom [DecidableEq ι] (ix : Index ι α) : Pending ι → List (Row ι) → List (LeafTuple ι)
  | pending, [] => [pending.finish]
  | pending, row :: rest =>
    if canSave ix pending row then
      dedupFrom ix { pending with htids := pending.htids ++ [row.heapTid] } rest
    else pending.finish :: dedupFrom ix (startPending ix row) rest

/-- The tuples of the sort, as posting lists where they are equal. -/
def dedup [DecidableEq ι] : List (Row ι) → List (LeafTuple ι)
  | [] => []
  | row :: rest => dedupFrom ix (startPending ix row) rest

/-- What is read: one sort with or without deduplication, or a second one for dead tuples,
which is merged. -/
inductive Spools (ι : Type) where
  | one (tuples : List (Row ι)) (deduplicate : Bool)
  | two (tuples dead : List (Row ι))

def Spools.rows [LinearOrder α] : Spools ι → List (Row ι)
  | .one tuples _ => tuples
  | .two tuples dead =>
    tuples.merge dead fun first second => decide (ix.key first ≤ ix.key second)

/-- The tuples that are passed to `_abt_buildadd`. -/
def Spools.leafTuples [DecidableEq ι] [LinearOrder α] (spools : Spools ι) : List (LeafTuple ι) :=
  match spools with
  | .one tuples true => dedup ix tuples
  | _ => (spools.rows ix).map Row.leaf

/-- `_abt_load`.  Block 0 is the metapage. -/
def load [DecidableEq ι] [LinearOrder α] (spools : Spools ι) : Except BuildError (Loaded ι α) :=
  (addTuples ix ⟨[], ⟨1, []⟩⟩ (spools.leafTuples ix)).bind fun loaded =>
    upperShutdown ix (2 * loaded.levels.length + 2) loaded

/-! ## Two indexes -/

def countIndex : Index Nat Nat where
  nkeyatts := 1
  aggType := .int8
  leafHasAgg := false
  aggMapVal := 1
  attrs := fun num => [num]
  map := fun _ => 0
  formSize := fun _ => 16
  truncateSize := fun _ _ => 16
  targetFreeSpace := 819
  attrs_length := fun _ => rfl
  formSize_aligned := fun _ => ⟨2, rfl⟩
  truncateSize_aligned := fun _ _ => ⟨2, rfl⟩
  truncateSize_le := fun _ _ => Nat.le_refl 16
  aggMapVal_fits := by decide
  map_fits := fun _ => by decide

/-- The number 1 has a short tuple, the other numbers have the longest ones that are accepted. -/
def wideIndex : Index Nat Nat :=
  { countIndex with
    formSize := fun num => if num = 1 then 16 else 2688
    formSize_aligned := fun num => by split <;> decide
    truncateSize_le := fun num _ => by change 16 ≤ _; split <;> decide }

end PgAqp.BulkLoad
