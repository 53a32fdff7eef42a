import PgAqp.Wal.Insert

/-!
# A page split, and its replay

`_abt_split` distributes the items of a page and the new item over two pages.  The record
has the right page as a whole; `abtree_xlog_split` makes the left page from the old page,
the new item, the new high key and the recomputed aggregate.
-/

namespace PgAqp.Wal

open Library Abtree Page

/-- The arguments of `_abt_split`, with the split point and the block that it gets. -/
structure SplitArgs where
  info : AggInfo
  page : Page
  origpagenumber : Nat
  rightpagenumber : Nat
  /-- The page to the right, if there is one. -/
  sibling : Option Page
  /-- The child whose split the new item finishes, on an internal page. -/
  child : Option Page
  newitemoff : Nat
  newitem : IndexTuple
  orignewitem : IndexTuple
  nposting : Option IndexTuple
  postingoff : Nat
  /-- The bytes of `previtem_newagg`. -/
  newagg : Bytes
  firstrightoff : Nat
  newitemonleft : Bool
  cycleid : Nat
  /-- `_abt_truncate` for the new high key of a leaf page. -/
  truncate : IndexTuple → IndexTuple → IndexTuple

/-- `xl_abtree_split` with the data of its first two blocks and the numbers of its blocks. -/
structure SplitRecord where
  newitemonleft : Bool
  level : Nat
  firstrightoff : Nat
  newitemoff : Nat
  postingoff : Nat
  /-- What follows the fixed part. -/
  aggInfo : Bytes
  leftsib : Nat
  rightsib : Nat
  /-- The block of the right sibling, or zero. -/
  rnext : Nat
  leftBlock : Bytes
  rightBlock : Bytes
  deriving DecidableEq, Repr

structure SplitPages where
  left : Page
  right : Page
  sibling : Option Page
  child : Option Page
  deriving DecidableEq, Repr

structure Halves where
  left : List IndexTuple
  right : List IndexTuple
  deriving DecidableEq, Repr

namespace SplitArgs

variable (args : SplitArgs) (off : Nat) (item : IndexTuple)

/-- `origpagepostingoff`. -/
def origpagepostingoff : Nat :=
  if args.postingoff = 0 then 0 else args.newitemoff - 1

/-- `previtem_off`. -/
def previtemOff : Nat :=
  if args.page.isLeaf then 0 else args.newitemoff - 1

/-- The old item at an offset, with the posting list replaced. -/
def dataItem : IndexTuple :=
  if off = args.origpagepostingoff then args.nposting.getD item else item

def oldItem : Option IndexTuple :=
  (args.page.item off).map (args.dataItem off)

def firstright : Option IndexTuple :=
  if args.newitemonleft = false ∧ args.newitemoff = args.firstrightoff then some args.newitem
  else args.oldItem args.firstrightoff

def lastleft : Option IndexTuple :=
  if args.newitemonleft = true ∧ args.newitemoff = args.firstrightoff then some args.newitem
  else args.oldItem (args.firstrightoff - 1)

def lefthighkey : Option IndexTuple :=
  if args.page.isLeaf then
    args.lastleft.bind fun lastleft => args.firstright.map (args.truncate lastleft)
  else args.firstright.bind fun firstright => firstright.purgeAggSpace args.info

/-- `minusinfoff`: the first data item of the right page, on an internal page. -/
def minusinfoff : Nat :=
  if args.page.isLeaf then 0 else args.page.firstDataKey

/-- `_abt_pgaddtup` on the left page. -/
def addLeft (halves : Halves) (item : IndexTuple) : Option Halves :=
  (appendItem halves.left item).map fun left => { halves with left := left }

/-- `_abt_pgaddtup` on the right page, where the first data item of an internal page loses its
key. -/
def addRight (halves : Halves) (item : IndexTuple) : Option Halves :=
  (if halves.right.length + 1 = args.minusinfoff then item.truncateFirst args.info
    else some item).bind fun item =>
      (appendItem halves.right item).map fun right => { halves with right := right }

/-- Add the new item, if it belongs before the item at the offset. -/
def placeNew (halves : Halves) : Option Halves :=
  if off ≠ args.origpagepostingoff ∧ off = args.newitemoff then
    if args.newitemonleft then addLeft halves args.newitem
    else args.addRight halves args.newitem
  else some halves

/-- Give the pivot of the split child its new aggregate. -/
def withNewagg : Option IndexTuple :=
  if args.page.isLeaf = false ∧ off = args.previtemOff then
    item.setPivotAggregationValue args.newagg args.info
  else some item

def placeOld (halves : Halves) : Option Halves :=
  (args.withNewagg off (args.dataItem off item)).bind fun item =>
    if off < args.firstrightoff then addLeft halves item else args.addRight halves item

/-- The loop of `_abt_split` over the data items, and the new item behind them. -/
def distribute (args : SplitArgs) : Nat → List IndexTuple → Halves → Option Halves
  | off, [], halves =>
    if off ≤ args.newitemoff then args.addRight halves args.newitem else some halves
  | off, item :: items, halves =>
    (args.placeNew off halves).bind fun halves =>
      (args.placeOld off item halves).bind (args.distribute (off + 1) items)

/-- The high key of the right page is that of the old page. -/
def righthighkey (args : SplitArgs) : Option (List IndexTuple) :=
  if args.page.isRightmost then some []
  else (args.page.item 1).bind fun righthighkey => appendItem [] righthighkey

/-- The items of both halves, high keys included. -/
def halves (lefthighkey : IndexTuple) : Option Halves := do
  let left ← appendItem [] lefthighkey
  let right ← args.righthighkey
  args.distribute args.page.firstDataKey (args.page.items.drop (args.page.firstDataKey - 1))
    ⟨left, right⟩

def leftSpecial : PageSpecial where
  prev := args.page.special.prev
  next := args.rightpagenumber
  level := args.page.special.level
  flags := { args.page.special.flags with
    root := false
    splitEnd := false
    hasGarbage := false
    hadGarbageRemoved := false
    incompleteSplit := true }
  cycleid := args.cycleid
  lastUpdateId := if args.page.isLeaf then 0 else advanceLastUpdateId 0

def rightSpecial : PageSpecial where
  prev := args.origpagenumber
  next := args.page.special.next
  level := args.page.special.level
  flags := { args.page.special.flags with
    root := false
    splitEnd := !args.page.isRightmost &&
      args.sibling.any fun sibling => decide (sibling.special.cycleid ≠ args.cycleid)
    hasGarbage := false
    hadGarbageRemoved := false }
  cycleid := args.cycleid
  lastUpdateId := if args.page.isLeaf then 0 else 1

/-- The left link of the old right sibling has to be right, and is set to the new page. -/
def newSibling : Option (Option Page) :=
  if args.page.isRightmost then some args.sibling
  else
    args.sibling.bind fun sibling =>
      if sibling.special.prev = args.origpagenumber then
        some (some { sibling with special := { sibling.special with
          prev := args.rightpagenumber } })
      else none

/-- The posting offset in the record: none if the list went to the right page. -/
def loggedPostingoff : Nat :=
  if args.postingoff ≠ 0 ∧ args.origpagepostingoff < args.firstrightoff then args.postingoff else 0

def loggedItem : Bytes :=
  if args.newitemonleft = true ∧ args.loggedPostingoff = 0 then args.newitem.toBytes
  else if args.loggedPostingoff ≠ 0 then args.orignewitem.toBytes
  else []

/-- The aggregate in the record.  It is read at `previtem_off` from the page that the left half
was already copied to. -/
def loggedAgg (left : List IndexTuple) : Option Bytes :=
  if args.page.isLeaf = false ∧ args.previtemOff < args.firstrightoff then
    (if args.previtemOff = 0 then none else left[args.previtemOff - 1]?).bind fun item =>
      item.toBytes.read (item.pivotAggPtr args.info) args.info.aggTyplen.toInt
  else some []

def logsAggInfo : Bool :=
  decide (args.page.isLeaf = true ∧ args.info.leafHasAgg = true ∧ args.postingoff ≠ 0 ∨
    args.page.isLeaf = false ∧ args.previtemOff < args.firstrightoff)

def record (lefthighkey : IndexTuple) (agg : Bytes) (right : Page) : SplitRecord where
  newitemonleft := args.newitemonleft
  level := args.page.special.level
  firstrightoff := args.firstrightoff
  newitemoff := args.newitemoff
  postingoff := args.loggedPostingoff
  aggInfo := if args.logsAggInfo then loggedAggInfo args.info else []
  leftsib := args.origpagenumber
  rightsib := args.rightpagenumber
  rnext := args.page.special.next
  leftBlock := args.loggedItem ++ (lefthighkey.toBytes ++ agg)
  rightBlock := right.upperPart

end SplitArgs

/-- `_abt_split`: the pages and the record. -/
def split (args : SplitArgs) : Option (SplitPages × SplitRecord) := do
  let lefthighkey ← args.lefthighkey
  let halves ← args.halves lefthighkey
  let sibling ← args.newSibling
  let agg ← args.loggedAgg halves.left
  let right : Page := ⟨halves.right, args.rightSpecial⟩
  return (
    { left := ⟨halves.left, args.leftSpecial⟩
      right := right
      sibling := sibling
      child := if args.page.isLeaf then args.child else args.child.map clearIncompleteSplit },
    args.record lefthighkey agg right)

/-! ## Replay -/

/-- The local variables of `abtree_xlog_split` for the left page. -/
structure SplitLocals where
  info : AggInfo
  newitem : Option IndexTuple
  nposting : Option IndexTuple
  replacepostingoff : Nat
  lefthikey : IndexTuple
  previtemOff : Nat
  newvalue : Bytes
  deriving DecidableEq, Repr

variable (raw : Uninitialised) (record : SplitRecord) (page : Page)

/-- The description of the aggregate in `abtree_xlog_split`. -/
def splitAggInfo : AggInfo :=
  if record.aggInfo ≠ [] then
    recoveredAggInfo raw (record.level == 0) record.aggInfo
  else if record.postingoff ≠ 0 then { raw.aggInfo with leafHasAgg := false }
  else raw.aggInfo

/-- The new item and the new posting list, and the bytes after the logged item. -/
def xlogSplitItem (info : AggInfo) (record : SplitRecord) (page : Page) :
    Option (Option IndexTuple × Option IndexTuple × Bytes) :=
  if record.newitemonleft = true ∨ record.postingoff ≠ 0 then
    let newitem := IndexTuple.take record.leftBlock
    if record.postingoff ≠ 0 then
      (page.item (record.newitemoff - 1)).bind fun oposting =>
        (swapPosting info newitem.1 oposting record.postingoff).map fun swapped =>
          (some swapped.2, some swapped.1, newitem.2)
    else some (some newitem.1, none, newitem.2)
  else some (none, none, record.leftBlock)

/-- What `abtree_xlog_split` reads from the block of the left page. -/
def xlogSplitLocals : Option SplitLocals :=
  let info := splitAggInfo raw record
  let isleaf := record.level == 0
  (xlogSplitItem info record page).map fun items =>
    let lefthikey := IndexTuple.take items.2.2
    { info := info
      newitem := items.1
      nposting := items.2.1
      replacepostingoff := if record.postingoff ≠ 0 then record.newitemoff - 1 else 0
      lefthikey := lefthikey.1
      previtemOff := if isleaf then 0 else record.newitemoff - 1
      newvalue := lefthikey.2.take info.aggTyplen.toInt.toNat }

/-- Add the new item behind what is there, if its place is reached and it is on the left page. -/
def xlogPlaceNew (locals : SplitLocals) (off : Nat)
    (left : List IndexTuple) : Option (List IndexTuple) :=
  if record.newitemonleft = true ∧ off = record.newitemoff then
    locals.newitem.bind (appendItem left)
  else some left

/-- The loop of `abtree_xlog_split` over the items of the old page. -/
def xlogDistribute (record : SplitRecord) (locals : SplitLocals) :
    Nat → List IndexTuple → List IndexTuple → Option (List IndexTuple)
  | off, [], left =>
    if off < record.firstrightoff then none else xlogPlaceNew record locals off left
  | off, item :: items, left =>
    if off < record.firstrightoff then
      if off = locals.replacepostingoff then
        (locals.nposting.bind (appendItem left)).bind
          (xlogDistribute record locals (off + 1) items)
      else
        (xlogPlaceNew record locals off left).bind fun left =>
          (if off = locals.previtemOff then
              item.write (item.aggPtr locals.info) locals.newvalue
            else some item).bind fun item =>
              (appendItem left item).bind (xlogDistribute record locals (off + 1) items)
    else xlogPlaceNew record locals off left

/-- The special area of the left page in `abtree_xlog_split`: that of the old page, with some
fields set. -/
def xlogLeftSpecial : PageSpecial :=
  { page.special with
    flags := { PageFlags.clear with
      incompleteSplit := true
      leaf := record.level == 0 }
    next := record.rightsib
    cycleid := 0 }

def xlogRightSpecial : PageSpecial where
  prev := record.leftsib
  next := record.rnext
  level := record.level
  flags := { PageFlags.clear with leaf := record.level == 0 }
  cycleid := 0
  lastUpdateId := 0

/-- The left page in `abtree_xlog_split`. -/
def xlogSplitLeft : Option Page :=
  (xlogSplitLocals raw record page).bind fun locals =>
    (appendItem [] locals.lefthikey).bind fun left =>
      (xlogDistribute record locals page.firstDataKey (page.items.drop (page.firstDataKey - 1))
        left).map fun items => ⟨items, xlogLeftSpecial record page⟩

/-- The right page in `abtree_xlog_split`. -/
def xlogSplitRight : Option Page :=
  restore ⟨[], xlogRightSpecial record⟩ record.rightBlock

/-- The old right sibling in `abtree_xlog_split`. -/
def xlogSibling (sibling : Option Page) : Option Page :=
  if record.rnext = 0 then sibling
  else sibling.map fun old =>
    { old with special := { old.special with prev := record.rightsib } }

/-- `abtree_xlog_split`. -/
def xlogSplit
    (sibling child : Option Page) : Option SplitPages := do
  let right ← xlogSplitRight record
  let left ← xlogSplitLeft raw record page
  return {
    left := left
    right := right
    sibling := xlogSibling record sibling
    child := if record.level = 0 then child else child.map clearIncompleteSplit }

end PgAqp.Wal
