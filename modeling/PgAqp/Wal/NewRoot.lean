import PgAqp.Wal.Insert

/-!
# A new root, and its replay

`_abt_newroot` makes a root page above the two halves of the old root, with a pivot
for each of them, and writes the new root into the metapage.
-/

namespace PgAqp.Wal

open Library Abtree List Option Bytes Page PageFlags IndexTuple

/-- `ABTREE_MAGIC`. -/
def abtreeMagic : UInt32 := 0x853162

/-- `ABTREE_NOVAC_VERSION`. -/
def abtreeNovacVersion : UInt32 := 3

/-- `ABT_MIN_LAST_UPDATE_ID`. -/
def abtMinLastUpdateId : UInt16 := 1

/-- The metapage: `ABTMetaPageData`, the bytes of the `ABTAggSupportData` behind it up to
`pd_lower`, and the special area. -/
structure MetaPage where
  magic : UInt32
  version : UInt32
  root : UInt32
  level : UInt32
  fastroot : UInt32
  fastlevel : UInt32
  oldestXact : UInt32
  /-- The bits of the `float8`. -/
  lastCleanupNumHeapTuples : UInt64
  allequalimage : Bool
  aggSupport : Bytes
  special : PageSpecial
  deriving DecidableEq, Repr

/-- `ABTASGetStructSize`: the low 15 bits of `abtas_flags`. -/
def structSize (aggSupport : Bytes) : Nat := toNat (aggSupport.take 8) % 32768

def metaSpecial : PageSpecial := ⟨0, 0, 0, { clear with metapage := true }, 0, 0⟩

/-- The metapage as `_abt_initmetapage` leaves it. -/
structure MetaPage.Valid (page : MetaPage) : Prop where
  magic : page.magic = abtreeMagic
  aggSupport : page.aggSupport.length = structSize page.aggSupport
  special : page.special = metaSpecial

/-- `xl_abtree_metadata`. -/
structure Metadata where
  version : UInt32
  root : UInt32
  level : UInt32
  fastroot : UInt32
  fastlevel : UInt32
  oldestXact : UInt32
  lastCleanupNumHeapTuples : UInt64
  allequalimage : Bool
  deriving DecidableEq, Repr

namespace Metadata

/-- The six words in front of the `float8`. -/
def words (data : Metadata) : List Nat :=
  [data.version.toNat, data.root.toNat, data.level.toNat, data.fastroot.toNat,
    data.fastlevel.toNat, data.oldestXact.toNat]

/-- The struct in memory, with the bytes that fill it up to its alignment. -/
def toBytes (data : Metadata) (padding : Bytes) : Bytes :=
  ofArray 4 data.words ++ (ofNat 8 data.lastCleanupNumHeapTuples.toNat ++
    (UInt8.ofNat data.allequalimage.toNat :: padding))

def ofBytes (bytes : Bytes) : Metadata :=
  let parts := takeArray 4 6 bytes
  let word := fun place => UInt32.ofNat (parts.1.getD place 0)
  { version := word 0
    root := word 1
    level := word 2
    fastroot := word 3
    fastlevel := word 4
    oldestXact := word 5
    lastCleanupNumHeapTuples := UInt64.ofNat (toNat (parts.2.take 8))
    allequalimage := (parts.2.drop 8).headD 0 != 0 }

theorem words_lt (data : Metadata) : ∀ value ∈ data.words, value < 256 ^ 4 := by
  intro value mem
  simp only [words, mem_cons, not_mem_nil, or_false] at mem
  rcases mem with rfl | rfl | rfl | rfl | rfl | rfl
  all_goals exact UInt32.toNat_lt _

theorem ofBytes_toBytes (data : Metadata) (padding rest : Bytes) :
    ofBytes (data.toBytes padding ++ rest) = data := by
  have parts : takeArray 4 6 (data.toBytes padding ++ rest) =
      (data.words, ofNat 8 data.lastCleanupNumHeapTuples.toNat ++
        (UInt8.ofNat data.allequalimage.toNat :: padding) ++ rest) := by
    exact takeArray_ofArray data.words_lt _
  have float : (ofNat 8 data.lastCleanupNumHeapTuples.toNat).length = 8 := length_ofNat 8 _
  have small : data.lastCleanupNumHeapTuples.toNat < 256 ^ 8 :=
    data.lastCleanupNumHeapTuples.toNat_lt
  have flag : ((UInt8.ofNat data.allequalimage.toNat) != 0) = data.allequalimage := by
    cases data.allequalimage with
    | false => rfl
    | true => rfl
  unfold ofBytes
  simp only [parts, append_assoc, take_left' float, drop_left' float,
    cons_append, headD_cons, flag, words, getD_cons_zero, getD_cons_succ,
    UInt32.ofNat_toNat, toNat_ofNat_of_lt small, UInt64.ofNat_toNat]

end Metadata

/-- `sizeof(xl_abtree_metadata)`. -/
def sizeofMetadata : Nat := 40

/-- What `_abt_newroot` works on: the halves of the old root, the sums below them, the block and
the metapage, and the memory that it does not set. -/
structure NewRootArgs where
  info : AggInfo
  left : Page
  lbkno : UInt32
  rbkno : UInt32
  lagg : Bytes
  ragg : Bytes
  rootblknum : UInt32
  metapage : MetaPage
  /-- What `palloc` returns for the left pivot. -/
  palloced : Bytes
  /-- The bytes behind the high key of the left half. -/
  behind : Bytes
  /-- The end of the `xl_abtree_metadata` on the stack. -/
  padding : Bytes

/-- `xl_abtree_newroot`, with the data of its blocks. -/
structure NewRootRecord where
  rootblk : UInt32
  level : UInt32
  upper : Bytes
  metadata : Bytes
  deriving DecidableEq, Repr

structure NewRootPages where
  root : Page
  left : Page
  metapage : MetaPage
  deriving DecidableEq, Repr

namespace NewRootArgs

variable (args : NewRootArgs)

/-- Set the aggregate and the update id of a new pivot. -/
def finishPivot (pivot : IndexTuple) (agg : Bytes) : Option IndexTuple :=
  (pivot.setPivotAggregationValue agg args.info).bind fun pivot =>
    pivot.write pivot.lastUpdateIdPtr (ofNat 2 abtMinLastUpdateId.toNat)

/-- The pivot of the left half, whose key is minus infinity. -/
def leftItem : Option IndexTuple :=
  let item : IndexTuple :=
    { tTid := ⟨args.lbkno, 0⟩
      altTid := false
      hasVarwidths := false
      hasNulls := false
      data := args.palloced }
  if args.palloced.length = args.info.extraSpaceWhenTidMissing then
    args.finishPivot (item.setNAtts 0 false) args.lagg
  else none

/-- The pivot of the right half, whose key is the high key of the left one. -/
def rightItem : Option IndexTuple :=
  (args.left.item 1).bind fun hikey =>
    (hikey.reserveAggSpace args.info args.behind).bind fun item =>
      args.finishPivot (item.setDownLink args.rbkno) args.ragg

def level : UInt32 := UInt32.ofNat args.left.special.level + 1

def rootSpecial : PageSpecial where
  prev := 0
  next := 0
  level := args.level.toNat
  flags := { clear with root := true }
  cycleid := 0
  lastUpdateId := abtMinLastUpdateId

def newMeta : MetaPage :=
  { args.metapage with
    root := args.rootblknum
    level := args.level
    fastroot := args.rootblknum
    fastlevel := args.level }

def metadata : Metadata where
  version := args.newMeta.version
  root := args.rootblknum
  level := args.newMeta.level
  fastroot := args.rootblknum
  fastlevel := args.newMeta.level
  oldestXact := args.newMeta.oldestXact
  lastCleanupNumHeapTuples := args.newMeta.lastCleanupNumHeapTuples
  allequalimage := args.newMeta.allequalimage

def record (root : Page) : NewRootRecord where
  rootblk := args.rootblknum
  level := args.newMeta.level
  upper := root.upperPart
  metadata := args.metadata.toBytes args.padding ++
    args.newMeta.aggSupport.take (structSize args.newMeta.aggSupport)

end NewRootArgs

/-- `_abt_newroot`.  A metapage of an old version is an error. -/
def newroot (args : NewRootArgs) : Option (NewRootPages × NewRootRecord) := do
  let leftItem ← args.leftItem
  let rightItem ← args.rightItem
  if args.metapage.version < abtreeNovacVersion then none
  else
    let root ← addItem ⟨[], args.rootSpecial⟩ leftItem 1
    let root ← root.addItem rightItem 2
    return (⟨root, clearIncompleteSplit args.left, args.newMeta⟩, args.record root)

/-- `_abt_restore_meta`. -/
def restoreMeta (block : Bytes) : MetaPage :=
  let data := Metadata.ofBytes block
  { magic := abtreeMagic
    version := data.version
    root := data.root
    level := data.level
    fastroot := data.fastroot
    fastlevel := data.fastlevel
    oldestXact := data.oldestXact
    lastCleanupNumHeapTuples := data.lastCleanupNumHeapTuples
    allequalimage := data.allequalimage
    aggSupport := block.drop sizeofMetadata
    special := metaSpecial }

/-- `abtree_xlog_newroot`.  The update id of the page is not set. -/
def xlogNewroot (record : NewRootRecord) (left : Page) : Option NewRootPages :=
  let special : PageSpecial :=
    { prev := 0
      next := 0
      level := record.level.toNat
      flags := { clear with root := true, leaf := record.level == 0 }
      cycleid := 0
      lastUpdateId := init.special.lastUpdateId }
  if record.level > 0 then
    (restore ⟨[], special⟩ record.upper).map fun root =>
      ⟨root, clearIncompleteSplit left, restoreMeta record.metadata⟩
  else some ⟨⟨[], special⟩, left, restoreMeta record.metadata⟩

/-- What the callers of `_abt_newroot` pass: a metapage in order, a left half with an aligned high
key, an aggregate of fixed length, and a level that is a number of 32 bits. -/
structure NewRootArgs.Valid (args : NewRootArgs) : Prop where
  metapage : args.metapage.Valid
  hikey : ∀ hikey, args.left.item 1 = some hikey → 8 ∣ hikey.data.length
  typlen : 0 ≤ args.info.aggTyplen.toInt
  level : args.left.special.level + 1 < 4294967296
  padding : args.padding.length = 7

namespace NewRootArgs

variable {args : NewRootArgs} {item : IndexTuple}

theorem finishPivot_length {pivot res : IndexTuple}
    (finished : args.finishPivot pivot agg = some res) :
    res.data.length = pivot.data.length := by
  obtain ⟨stored, isStored, written⟩ := bind_eq_some_iff.mp finished
  exact ((write_sameLayout written).trans (write_sameLayout isStored)).length

theorem leftItem_aligned
    (typlen : 0 ≤ args.info.aggTyplen.toInt) (made : args.leftItem = some item) :
    8 ∣ item.data.length := by
  obtain ⟨extra, missing⟩ := extraSpaceWhenTidMissing_eq typlen
  obtain ⟨size, made⟩ := ite_none_right_eq_some.mp made
  rw [finishPivot_length made]
  change 8 ∣ args.palloced.length
  omega

theorem rightItem_aligned (valid : args.Valid)
    (made : args.rightItem = some item) : 8 ∣ item.data.length := by
  obtain ⟨hikey, isHikey, rest⟩ := bind_eq_some_iff.mp made
  obtain ⟨reserved, isReserved, finished⟩ := bind_eq_some_iff.mp rest
  rw [finishPivot_length finished]
  change 8 ∣ reserved.data.length
  exact reserveAggSpace_aligned (valid.hikey hikey isHikey) valid.typlen isReserved

theorem restoreMeta_record (valid : args.Valid) (root : Page) :
    restoreMeta (args.record root).metadata = args.newMeta := by
  have whole : args.newMeta.aggSupport.take (structSize args.newMeta.aggSupport) =
      args.metapage.aggSupport :=
    take_of_length_le (valid.metapage.aggSupport.le)
  have length : (args.metadata.toBytes args.padding).length = sizeofMetadata := by
    simp only [Metadata.toBytes, Metadata.words, ofArray, flatMap_cons,
      flatMap_nil, length_append, length_cons, length_nil, length_ofNat,
      valid.padding, sizeofMetadata]
  unfold restoreMeta record
  simp only [Metadata.ofBytes_toBytes, whole, drop_left' length]
  simp only [metadata, newMeta, ← valid.metapage.magic, ← valid.metapage.special]

end NewRootArgs

variable {args : NewRootArgs} {res : NewRootPages × NewRootRecord}

theorem newroot_inv (done : newroot args = some res) :
    ∃ leftItem rightItem first root, args.leftItem = some leftItem ∧
      args.rightItem = some rightItem ∧
      addItem ⟨[], args.rootSpecial⟩ leftItem 1 = some first ∧
      first.addItem rightItem 2 = some root ∧
      res = (⟨root, clearIncompleteSplit args.left, args.newMeta⟩, args.record root) := by
  unfold newroot at done
  simp only [bind_eq_bind, bind_eq_some_iff] at done
  obtain ⟨leftItem, isLeft, rightItem, isRight, rest⟩ := done
  by_cases old : args.metapage.version < abtreeNovacVersion
  · rw [if_pos old] at rest
    cases rest
  · rw [if_neg old] at rest
    simp only [bind_eq_some_iff] at rest
    obtain ⟨first, isFirst, root, isRoot, made⟩ := rest
    exact ⟨leftItem, rightItem, first, root, isLeft, isRight, isFirst, isRoot, (some.inj made).symm⟩

/-- A root above the leaf level is made of the logged items. -/
theorem xlogNewroot_of_pos (left : Page) (positive : record.level > 0) : xlogNewroot record left =
      (restore ⟨[], ⟨0, 0, record.level.toNat, { clear with root := true }, 0, 0⟩⟩
        record.upper).map fun root =>
          ⟨root, clearIncompleteSplit left, restoreMeta record.metadata⟩ := by
  have notLeaf : (record.level == 0) = false := by
    rw [beq_eq_false_iff_ne]
    exact (UInt32.ne_of_lt positive).symm
  unfold xlogNewroot
  rw [if_pos positive, notLeaf]
  rfl

/-- Replay makes the two pivots, the flags and links of the root, the left half and the metapage as
the primary did, but the update id of the root page is zero. -/
theorem newroot_replays_rest (valid : args.Valid) (done : newroot args = some res) :
    xlogNewroot res.2 args.left = some { res.1 with root := res.1.root.withUpdateId 0 } := by
  obtain ⟨leftItem, rightItem, first, root, isLeft, isRight, isFirst, isRoot, rfl⟩ :=
    newroot_inv done
  have sizedLeft := sized_of_addItem (NewRootArgs.leftItem_aligned valid.typlen isLeft) isFirst
  have sizedRight := sized_of_addItem (NewRootArgs.rightItem_aligned valid isRight) isRoot
  have firstItems : first.items = [leftItem] := addItem_last_items isFirst
  have second : first.maxOffset + 1 = 2 := by rw [maxOffset, firstItems, length_singleton]
  rw [← second] at isRoot
  have rootItems : root.items = [leftItem, rightItem] := by
    rw [addItem_last_items isRoot, firstItems, singleton_append]
  have special : root.special = args.rootSpecial :=
    (addItem_special isRoot).trans (addItem_special isFirst)
  have built : Page.Built root.items := by
    have empty : Page.Built (mk [] args.rootSpecial).items := rfl
    exact (empty.addItem_last isFirst).addItem_last isRoot
  have sized : ∀ item ∈ root.items, item.Sized := by
    rw [rootItems]
    exact forall_mem_cons.mpr ⟨sizedLeft, forall_mem_singleton.mpr sizedRight⟩
  have level : args.level.toNat = args.left.special.level + 1 := by
    have small := valid.level
    change (args.left.special.level % 4294967296 + 1) % 4294967296 = _
    omega
  have positive : (args.record root).level > 0 := by
    rw [gt_iff_lt, UInt32.lt_iff_toNat_lt]
    exact level ▸ Nat.succ_pos _
  rw [xlogNewroot_of_pos _ positive]
  change (restore _ root.upperPart).map _ = _
  rw [restore_built rfl built sized, map_some,
    NewRootArgs.restoreMeta_record valid root, withUpdateId, special]
  rfl

/-- What the record of a new root is for: replay makes the same root page, with a valid update id,
finishes the split of the left half and restores the metapage. -/
def NewRootReplays (args : NewRootArgs) (res : NewRootPages × NewRootRecord) : Prop :=
  ∃ replayed, xlogNewroot res.2 args.left = some replayed ∧
    replayed.root = res.1.root ∧ replayed.root.special.lastUpdateId ≠ 0 ∧
    replayed.left = res.1.left ∧ replayed.metapage = res.1.metapage

/-- No new root is replayed with its update id.  All the rest is. -/
theorem newroot_never_replays {args : NewRootArgs} {res : NewRootPages × NewRootRecord}
    (valid : args.Valid) (done : newroot args = some res) :
    ¬NewRootReplays args res ∧ xlogNewroot res.2 args.left =
        some { res.1 with root := res.1.root.withUpdateId 0 } := by
  have rest := newroot_replays_rest valid done
  refine ⟨?_, rest⟩
  rintro ⟨replayed, follows, -, nonzero, -⟩
  cases rest.symm.trans follows
  exact nonzero rfl

/-! ## A new root above two leaf pages -/

/-- The old root was a leaf page; its right half is in block 2. -/
def splitRoot : NewRootArgs where
  info := bigintAgg false
  left :=
    { items := [pivot 0 (ofNat 8 5) 0, row 10 3 1]
      special := ⟨0, 2, 0, { clear with leaf := true, incompleteSplit := true }, 0, 0⟩ }
  lbkno := 1
  rbkno := 2
  lagg := ofNat 8 3
  ragg := ofNat 8 4
  rootblknum := 3
  metapage :=
    { magic := abtreeMagic
      version := 4
      root := 1
      level := 0
      fastroot := 1
      fastlevel := 0
      oldestXact := 0
      lastCleanupNumHeapTuples := 0
      allequalimage := true
      aggSupport := ofNat 8 8
      special := metaSpecial }
  palloced := replicate 16 0
  behind := replicate 16 0
  padding := replicate 7 0

theorem splitRoot_valid : splitRoot.Valid where
  metapage := ⟨rfl, by decide, rfl⟩
  hikey := by decide
  typlen := by decide
  level := by decide
  padding := rfl

/-- The root page has the update id 1 on the primary and 0 after replay. -/
theorem splitRoot_not_replayed : ((newroot splitRoot).bind fun res =>
      (xlogNewroot res.2 splitRoot.left).map fun replayed =>
        (res.1.root.special.lastUpdateId, replayed.root.special.lastUpdateId,
          decide (res.1.root.items = replayed.root.items))) = some (1, 0, true) := by
  decide +kernel

/-- The theorem applies to this root. -/
theorem splitRoot_never_replays :
    ∃ res, newroot splitRoot = some res ∧ ¬NewRootReplays splitRoot res ∧
      xlogNewroot res.2 splitRoot.left = some { res.1 with root := res.1.root.withUpdateId 0 } := by
  have run : (newroot splitRoot).isSome := by decide +kernel
  obtain ⟨res, done⟩ := isSome_iff_exists.mp run
  exact ⟨res, done, newroot_never_replays splitRoot_valid done⟩

end PgAqp.Wal
