import PgAqp.Abtree.Page
import PgAqp.Abtree.Posting

/-!
# An insertion without a page split, and its replay

`_abt_insertonpg` changes the page in several steps; `abtree_xlog_insert` makes the page
anew from the old one and the record.
-/

namespace PgAqp.Wal

open Library Abtree List Option Bytes IndexTuple

/-! ## The description of the aggregate in log records

Replay has no access to the catalog.  A record whose replay computes places in a
tuple has a description of the aggregate behind its fixed part.  The size with
which it is logged and read back is that of its first field alone.
-/

/-- `xl_abtree_minimal_agg_info`. -/
structure MinimalAggInfo where
  aggTyplen : Int16
  aggStride : Int16
  deriving DecidableEq, Repr

/-- `SizeOfABtreeMinimalAggInfo`: the place of `agg_typlen` and its size. -/
def sizeOfMinimalAggInfo : Nat := 0 + 2

/-- The local variables of a redo routine before it sets them. -/
structure Uninitialised where
  aggInfo : AggInfo
  minAggInfo : MinimalAggInfo
  deriving DecidableEq, Repr

namespace MinimalAggInfo

def toBytes (info : MinimalAggInfo) : Bytes :=
  ofNat 2 info.aggTyplen.toUInt16.toNat ++ ofNat 2 info.aggStride.toUInt16.toNat

def ofBytes (bytes : Bytes) : MinimalAggInfo where
  aggTyplen := (UInt16.ofNat (toNat (bytes.take 2))).toInt16
  aggStride := (UInt16.ofNat (toNat ((bytes.drop 2).take 2))).toInt16

theorem ofBytes_toBytes (info : MinimalAggInfo) : ofBytes info.toBytes = info := by
  have first : info.toBytes.take 2 = ofNat 2 info.aggTyplen.toUInt16.toNat :=
    take_left' (length_ofNat 2 _)
  have second : (info.toBytes.drop 2).take 2 = ofNat 2 info.aggStride.toUInt16.toNat := by
    rw [toBytes, drop_left' (length_ofNat 2 _), take_of_length_le ((length_ofNat 2 _).le)]
  have typlen : info.aggTyplen.toUInt16.toNat < 256 ^ 2 := info.aggTyplen.toUInt16.toNat_lt
  have stride : info.aggStride.toUInt16.toNat < 256 ^ 2 := info.aggStride.toUInt16.toNat_lt
  unfold ofBytes
  rw [first, second, toNat_ofNat_of_lt typlen, toNat_ofNat_of_lt stride,
    UInt16.ofNat_toNat, UInt16.ofNat_toNat, Int16.toInt16_toUInt16, Int16.toInt16_toUInt16]

end MinimalAggInfo

/-- What is logged after `_abt_prepare_min_agg_info`. -/
def loggedAggInfo (info : AggInfo) : Bytes :=
  (MinimalAggInfo.toBytes ⟨info.aggTyplen, info.aggStride⟩).take sizeOfMinimalAggInfo

/-- The redo routine copies the logged bytes over its local variable and calls
`_abt_apply_min_agg_info`. -/
def recoveredAggInfo (raw : Uninitialised) (leafHasAgg : Bool) (logged : Bytes) :
    AggInfo :=
  let minimal := MinimalAggInfo.ofBytes
    (logged.take sizeOfMinimalAggInfo ++
      raw.minAggInfo.toBytes.drop sizeOfMinimalAggInfo)
  ⟨leafHasAgg, minimal.aggTyplen, minimal.aggStride⟩

theorem loggedAggInfo_ne_nil (info : AggInfo) : loggedAggInfo info ≠ [] := by
  simp [loggedAggInfo, MinimalAggInfo.toBytes, sizeOfMinimalAggInfo, ofNat]

/-- The type length comes back; the stride is whatever the local variable held. -/
theorem recoveredAggInfo_logged (raw : Uninitialised) (leafHasAgg : Bool) (info : AggInfo) :
    recoveredAggInfo raw leafHasAgg (loggedAggInfo info) =
      ⟨leafHasAgg, info.aggTyplen, raw.minAggInfo.aggStride⟩ := by
  have bytes : (loggedAggInfo info).take sizeOfMinimalAggInfo ++
      raw.minAggInfo.toBytes.drop sizeOfMinimalAggInfo =
        MinimalAggInfo.toBytes ⟨info.aggTyplen, raw.minAggInfo.aggStride⟩ := by
    have width (value : Nat) : (ofNat 2 value).length = sizeOfMinimalAggInfo := length_ofNat 2 value
    rw [loggedAggInfo, take_take, Nat.min_self, MinimalAggInfo.toBytes,
      MinimalAggInfo.toBytes, MinimalAggInfo.toBytes, take_left' (width _),
      drop_left' (width _)]
  unfold recoveredAggInfo
  rw [bytes, MinimalAggInfo.ofBytes_toBytes]

theorem recoveredAggInfo_eq (leafHasAgg : info.leafHasAgg)
    (stride : raw.minAggInfo.aggStride = info.aggStride) :
    recoveredAggInfo raw true (loggedAggInfo info) = info := by
  rw [recoveredAggInfo_logged, stride, ← leafHasAgg]

/-! ## The insertion -/

/-- The kinds of insert records.  A record that also has the metapage is replayed on this page
as one of an upper page. -/
inductive InsertKind where
  | leaf
  | post
  | upper
  deriving DecidableEq, Repr

/-- `xl_abtree_insert` with the data of its first block. -/
structure InsertRecord where
  kind : InsertKind
  offnum : Nat
  /-- What follows the fixed part. -/
  aggInfo : Bytes
  block : Bytes
  deriving DecidableEq, Repr

structure Inserted where
  page : Page
  child : Option Page
  record : InsertRecord
  deriving DecidableEq, Repr

/-- The new item and its place, after the posting list at that place was split if there is one
to split. -/
structure Prepared where
  nposting : Option IndexTuple
  itup : IndexTuple
  newitemoff : Nat
  deriving DecidableEq, Repr

variable (raw : Uninitialised) (info : AggInfo) (page : Page)

/-- The start of `_abt_insertonpg`: split the posting list that the new item falls into. -/
def preparePosting (itup : IndexTuple) (newitemoff postingoff : Nat) : Option Prepared :=
  if postingoff = 0 then some ⟨none, itup, newitemoff⟩
  else
    (page.item newitemoff).bind fun oposting =>
      (swapPosting info itup oposting postingoff).map fun swapped =>
        ⟨some swapped.1, swapped.2, newitemoff + 1⟩

def replacePosting (prepared : Prepared) : Page :=
  match prepared.nposting with
  | none => page
  | some nposting => page.setItem (prepared.newitemoff - 1) nposting

/-- Give the pivot before the new item the aggregate of the left half of the split child. -/
def updateLeftPivot (newitemoff : Nat) (newagg : Bytes) : Option Page :=
  if page.isLeaf then some page
  else do
    let previtem ← page.item (newitemoff - 1)
    let previtem ← previtem.setPivotAggregationValue newagg info
    let lastUpdateId ← previtem.read previtem.lastUpdateIdPtr 2
    let advanced := advanceLastUpdateId (UInt16.ofNat (toNat lastUpdateId))
    let previtem ← previtem.write previtem.lastUpdateIdPtr (ofNat 2 advanced.toNat)
    return page.setItem (newitemoff - 1) previtem

def advancePage : Page :=
  if page.isLeaf then page
  else
    { page with special := { page.special with
        lastUpdateId := advanceLastUpdateId page.special.lastUpdateId } }

/-- The insertion finishes the split of the child. -/
def clearIncompleteSplit : Page :=
  { page with special := { page.special with
      flags := { page.special.flags with incompleteSplit := false } } }

/-- The record that `_abt_insertonpg` writes. -/
def insertRecord (isLeaf : Bool) (origitup : IndexTuple)
    (newitemoff postingoff : Nat) : InsertRecord :=
  if postingoff ≠ 0 then
    { kind := .post
      offnum := newitemoff
      aggInfo := if info.leafHasAgg then loggedAggInfo info else []
      block := ofNat 2 postingoff ++ origitup.toBytes }
  else
    { kind := if isLeaf then .leaf else .upper
      offnum := newitemoff
      aggInfo := []
      block := origitup.toBytes }

/-- `_abt_insertonpg`, where the page has room for the item. -/
def insertonpg (child : Option Page) (itup : IndexTuple)
    (newitemoff postingoff : Nat) (newagg : Bytes) : Option Inserted :=
  if page.special.flags.incompleteSplit ∨ page.freeSpace < maxalign itup.size then none
  else do
    let prepared ← preparePosting info page itup newitemoff postingoff
    let updated ← updateLeftPivot info (replacePosting page prepared) prepared.newitemoff newagg
    let added ← updated.addItem prepared.itup prepared.newitemoff
    return {
      page := advancePage added
      child := if page.isLeaf then child else child.map clearIncompleteSplit
      record := insertRecord info page.isLeaf itup prepared.newitemoff postingoff }

/-- The description of the aggregate that `abtree_xlog_insert` passes to `_abt_swap_posting`. -/
def insertAggInfo (record : InsertRecord) : AggInfo :=
  if record.aggInfo ≠ [] then recoveredAggInfo raw true record.aggInfo
  else { raw.aggInfo with leafHasAgg := false }

/-- `abtree_xlog_insert` on the page that the item goes to. -/
def xlogInsertPage (record : InsertRecord) (page : Page) : Option Page :=
  if record.kind ≠ .post then page.addItem (take record.block).1 record.offnum
  else do
    let postingoff := toNat (record.block.take 2)
    let newitem := (take (record.block.drop 2)).1
    let oposting ← page.item (record.offnum - 1)
    let swapped ← swapPosting (insertAggInfo raw record) newitem oposting postingoff
    (page.setItem (record.offnum - 1) swapped.1).addItem swapped.2 record.offnum

/-- `abtree_xlog_insert`. -/
def xlogInsert (record : InsertRecord) (page : Page)
    (child : Option Page) : Option (Page × Option Page) :=
  (xlogInsertPage raw record page).map fun page =>
    (page, if record.kind = .upper then child.map clearIncompleteSplit else child)

theorem take_toBytes_self {itup : IndexTuple} (sized : itup.Sized) :
    (take itup.toBytes).1 = itup := by
  have whole := take_toBytes sized []
  rw [append_nil] at whole
  rw [whole]

theorem xlogInsertPage_plain (isLeaf : Bool) (sized : itup.Sized) (newitemoff : Nat) (page : Page) :
    xlogInsertPage raw (insertRecord info isLeaf itup newitemoff 0) page =
      page.addItem itup newitemoff := by
  have plain : (insertRecord info isLeaf itup newitemoff 0).kind ≠ .post := by
    cases isLeaf <;> simp [insertRecord]
  rw [xlogInsertPage, if_pos plain]
  exact congrArg (fun item => page.addItem item newitemoff) (take_toBytes_self sized)

/-- With leaf aggregates, replay has to know the stride to split a posting list. -/
def StrideKnown : Prop :=
  info.leafHasAgg = false ∨ raw.minAggInfo.aggStride = info.aggStride

theorem insertAggInfo_swapPosting {raw : Uninitialised} {info : AggInfo}
    (known : StrideKnown raw info) (isLeaf : Bool) (itup : IndexTuple)
    (newitemoff : Nat) (posting : postingoff ≠ 0) :
    swapPosting (insertAggInfo raw
      (insertRecord info isLeaf itup newitemoff postingoff)) = swapPosting info := by
  rw [insertRecord, if_pos posting, insertAggInfo]
  cases leafHasAgg : info.leafHasAgg with
  | false => exact swapPosting_of_no_agg rfl leafHasAgg
  | true =>
    have stride : raw.minAggInfo.aggStride = info.aggStride := by
      cases known with
      | inl noAgg => exact absurd (noAgg.symm.trans leafHasAgg) Bool.false_ne_true
      | inr stride => exact stride
    simp only [if_true]
    rw [if_pos (loggedAggInfo_ne_nil info), recoveredAggInfo_eq leafHasAgg stride]

theorem xlogInsertPage_posting {raw : Uninitialised} {info : AggInfo}
    (known : StrideKnown raw info) (isLeaf : Bool) (sized : itup.Sized)
    (posting : postingoff ≠ 0) {page : Page} (old : page.item newitemoff = some oposting)
    (swap : swapPosting info itup oposting postingoff = some swapped) :
    xlogInsertPage raw (insertRecord info isLeaf itup (newitemoff + 1) postingoff) page =
      (page.setItem newitemoff swapped.1).addItem swapped.2 (newitemoff + 1) := by
  have small : postingoff < 256 ^ 2 :=
    (swapPosting_inside swap).trans (oposting.nPosting_lt.trans (by decide))
  have off : toNat ((ofNat 2 postingoff ++ itup.toBytes).take 2) = postingoff := by
    rw [take_left' (length_ofNat 2 _), toNat_ofNat_of_lt small]
  have stored : (take ((ofNat 2 postingoff ++ itup.toBytes).drop 2)).1 = itup := by
    rw [drop_left' (length_ofNat 2 _), take_toBytes_self sized]
  have again := insertAggInfo_swapPosting known isLeaf itup (newitemoff + 1) posting
  unfold xlogInsertPage
  rw [again]
  simp only [insertRecord, if_pos posting, ne_eq, not_true, if_false, off, stored,
    Nat.add_sub_cancel, old, swap, bind_eq_bind, bind_some]

theorem replacePosting_isLeaf (prepared : Prepared) :
    (replacePosting page prepared).isLeaf = page.isLeaf := by
  cases nposting : prepared.nposting with
  | none => rw [replacePosting, nposting]
  | some tup =>
    rw [replacePosting, nposting]
    rfl

theorem insertonpg_leaf {info : AggInfo} {page : Page} (leaf : page.isLeaf)
    (done : insertonpg info page child itup newitemoff postingoff newagg = some inserted) :
    ∃ prepared, preparePosting info page itup newitemoff postingoff = some prepared ∧
      (replacePosting page prepared).addItem prepared.itup prepared.newitemoff =
        some inserted.page ∧
      inserted.child = child ∧
      inserted.record = insertRecord info true itup prepared.newitemoff postingoff := by
  unfold insertonpg at done
  split at done
  · cases done
  · simp only [Option.pure_def, bind_eq_bind, bind_eq_some_iff, some.injEq] at done
    obtain ⟨prepared, prepare, updated, update, added, add, rfl⟩ := done
    have replacedLeaf := (replacePosting_isLeaf page prepared).trans leaf
    rw [updateLeftPivot, if_pos replacedLeaf] at update
    cases update
    have addedLeaf : added.isLeaf := by
      rw [Page.isLeaf, Page.addItem_special add]
      exact replacedLeaf
    refine ⟨prepared, prepare, ?_, ?_, ?_⟩
    · rw [add, advancePage, if_pos addedLeaf]
    · rfl
    · rw [leaf]

/-- On a leaf page the record rebuilds the page, if the stride was known where it is used. -/
theorem leaf_insert_replays {raw : Uninitialised} {info : AggInfo} {page : Page}
    {child : Option Page} {itup : IndexTuple} {newitemoff postingoff : Nat} {newagg : Bytes}
    {inserted : Inserted}
    (done : insertonpg info page child itup newitemoff postingoff newagg = some inserted)
    (sized : itup.Sized) (leaf : page.isLeaf = true)
    (known : postingoff = 0 ∨ StrideKnown raw info) :
    xlogInsert raw inserted.record page child = some (inserted.page, inserted.child) := by
  obtain ⟨prepared, prepare, add, child, record⟩ := insertonpg_leaf leaf done
  unfold preparePosting at prepare
  have rebuilt : xlogInsertPage raw inserted.record page = some inserted.page := by
    by_cases plain : postingoff = 0
    · rw [if_pos plain] at prepare
      cases prepare
      rw [record, plain, xlogInsertPage_plain raw info true sized]
      exact add
    · rw [if_neg plain] at prepare
      obtain ⟨oposting, old, res⟩ := bind_eq_some_iff.mp prepare
      obtain ⟨swapped, swap, rfl⟩ := map_eq_some_iff.mp res
      rw [record, xlogInsertPage_posting (known.resolve_left plain) true sized plain old swap]
      exact add
  have upper : inserted.record.kind ≠ .upper := by
    rw [record, insertRecord]
    split <;> simp
  rw [xlogInsert, rebuilt, map_some, if_neg upper, child]

/-! ## Two insertions that replay does not repeat -/

/-- An aggregate of eight bytes, and whether the leaf level has it. -/
def bigintAgg (leafHasAgg : Bool) : AggInfo := ⟨leafHasAgg, 8, 8⟩

def zeroed : Uninitialised := ⟨⟨false, 0, 0⟩, ⟨0, 0⟩⟩

/-- A pivot with a key of the given length, which may be zero. -/
def pivot (downlink : UInt32) (key : Bytes) (agg : Nat) : IndexTuple where
  tTid := ⟨downlink, if key = [] then 0 else 1⟩
  altTid := true
  hasVarwidths := false
  hasNulls := false
  data := key ++ ofNat 8 agg ++ ofNat 6 0 ++ ofNat 2 1

def pivotAggs : List (Option Nat) :=
  page.items.map fun item =>
    (item.read (item.pivotAggPtr info) info.aggTyplen.toInt).map toNat

/-- The only page of its level, above a child in block 1 with five rows. -/
def parentPage : Page where
  items := [pivot 1 [] 5]
  special := ⟨0, 0, 1, PageFlags.clear, 0, 1⟩

def splitChild : Page where
  items := []
  special := ⟨0, 2, 0, { PageFlags.clear with leaf := true, incompleteSplit := true }, 0, 0⟩

def row (block : UInt32) (agg xmin : Nat) : IndexTuple where
  tTid := ⟨block, 1⟩
  altTid := false
  hasVarwidths := false
  hasNulls := false
  data := ofNat 8 7 ++ ofNat 8 agg ++ ofNat 4 0 ++ ofNat 4 xmin

def rowList (aggs : List Nat) : IndexTuple where
  tTid := ⟨16, 0x2003⟩
  altTid := true
  hasVarwidths := false
  hasNulls := false
  data := ofNat 8 7 ++ (⟨10, 1⟩ : ItemPointer).toBytes ++ (⟨20, 1⟩ : ItemPointer).toBytes ++
    (⟨30, 1⟩ : ItemPointer).toBytes ++ ofNat 6 0 ++ ofArray 8 aggs ++
    ofNat 4 0 ++ ofArray 4 [3, 4, 5]

def leafPage : Page where
  items := [rowList [100, 200, 300]]
  special := ⟨0, 0, 0, { PageFlags.clear with leaf := true, root := true }, 0, 0⟩

def postingAggs (off : Nat) : Option (List Nat) :=
  (page.item off).bind fun posting =>
    (posting.read posting.postingAggPtr (8 * posting.nPosting)).map fun bytes =>
      (takeArray 8 posting.nPosting bytes).1

/-- The aggregate that the parent had before the split of its child stays after replay, and a
posting list gets the aggregate of the new row at the wrong place. -/
theorem inserts_not_replayed :
    ((insertonpg (bigintAgg false) parentPage (some splitChild) (pivot 2 (Bytes.ofNat 8 9) 2) 2 0
        (Bytes.ofNat 8 3)).bind fun inserted =>
      (xlogInsert zeroed inserted.record parentPage (some splitChild)).map fun replayed =>
        (pivotAggs (bigintAgg false) inserted.page, pivotAggs (bigintAgg false) replayed.1)) =
      some ([some 3, some 2], [some 5, some 2]) ∧
    ((insertonpg (bigintAgg true) leafPage none (row 15 1000 9) 1 1 []).bind fun inserted =>
      (xlogInsert zeroed inserted.record leafPage none).map fun replayed =>
        (postingAggs inserted.page 1, postingAggs replayed.1 1)) =
      some (some [100, 1000, 200], some [1000, 200, 300]) := by
  decide +kernel

/-- Replay where the local variable held the stride. -/
theorem row_into_list_replays :
    ∃ inserted, insertonpg (bigintAgg true) leafPage none (row 15 1000 9) 1 1 [] = some inserted ∧
      xlogInsert ⟨⟨false, 0, 0⟩, ⟨0, 8⟩⟩ inserted.record leafPage none =
        some (inserted.page, inserted.child) := by
  have some : (insertonpg (bigintAgg true) leafPage none (row 15 1000 9) 1 1 []).isSome = true := by
    decide +kernel
  obtain ⟨inserted, done⟩ := isSome_iff_exists.mp some
  exact ⟨inserted, done, leaf_insert_replays done (by decide) rfl (.inr (.inr rfl))⟩

end PgAqp.Wal
