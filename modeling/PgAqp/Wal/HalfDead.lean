import PgAqp.Wal.Insert

/-!
# The first stage of page deletion, and its replay

`_abt_mark_page_halfdead` takes the downlink to an empty leaf page, or to the top of
a chain of pages above it, out of the parent.  The leaf page is marked as half-dead, and
its high key is replaced by a link to the top of the chain.
-/

namespace PgAqp.Wal

open Library Abtree List Option Page IndexTuple PageFlags

/-- `InvalidBlockNumber`. -/
def invalidBlockNumber : UInt32 := 0xFFFFFFFF

/-- What `_abt_mark_page_halfdead` works on: the leaf page, and what `_abt_lock_subtree_parent`
found. -/
structure HalfDeadArgs where
  info : AggInfo
  leaf : Page
  leafblkno : UInt32
  parent : Page
  poffset : Nat
  topparent : UInt32
  topparentrightsib : UInt32

/-- `xl_abtree_mark_page_halfdead`. -/
structure HalfDeadRecord where
  poffset : Nat
  leafblk : UInt32
  leftblk : Nat
  rightblk : Nat
  topparent : UInt32
  deriving DecidableEq, Repr

structure HalfDeadPages where
  parent : Page
  leaf : Page
  deriving DecidableEq, Repr

/-- The dummy high key, `ABTreeTupleSetTopParent` of a tuple of zeros. -/
def topParentTuple (topparent : UInt32) : IndexTuple :=
  { tTid := ⟨topparent, 0⟩
    altTid := false
    hasVarwidths := false
    hasNulls := false
    data := [] : IndexTuple }.setNAtts 0 false

namespace HalfDeadArgs

/-- The link in the dummy high key: none if the leaf page itself is the top. -/
def link (args : HalfDeadArgs) : UInt32 :=
  if args.topparent ≠ args.leafblkno then args.topparent else invalidBlockNumber

def newParent (args : HalfDeadArgs) : Option Page := do
  let right ← args.parent.item (args.poffset + 1)
  if right.downLink ≠ args.topparentrightsib then none
  else
    let rightAgg ← right.read (right.pivotAggPtr args.info) args.info.aggTyplen.toInt
    let itup ← args.parent.item args.poffset
    let itup := itup.setDownLink args.topparentrightsib
    let itup ← itup.setPivotAggregationValue rightAgg args.info
    (args.parent.setItem args.poffset itup).tupleDelete (args.poffset + 1)

def newLeaf (args : HalfDeadArgs) : Option Page :=
  overwrite
    { args.leaf with special := { args.leaf.special with
        flags := { args.leaf.special.flags with halfDead := true } } }
    1 (topParentTuple args.link)

def record (args : HalfDeadArgs) : HalfDeadRecord where
  poffset := args.poffset
  leafblk := args.leafblkno
  leftblk := args.leaf.special.prev
  rightblk := args.leaf.special.next
  topparent := args.link

end HalfDeadArgs

/-- `_abt_mark_page_halfdead`, once the page may be deleted. -/
def markPageHalfdead (args : HalfDeadArgs) : Option (HalfDeadPages × HalfDeadRecord) := do
  let parent ← args.newParent
  let leaf ← args.newLeaf
  return (⟨parent, leaf⟩, args.record)

variable (record : HalfDeadRecord)

/-- The parent in `abtree_xlog_mark_page_halfdead`.  The aggregate is not changed. -/
def xlogHalfdeadParent (parent : Page) : Option Page := do
  let right ← parent.item (record.poffset + 1)
  let itup ← parent.item record.poffset
  (parent.setItem record.poffset (itup.setDownLink right.downLink)).tupleDelete (record.poffset + 1)

/-- The leaf page in `abtree_xlog_mark_page_halfdead`, which is made anew. -/
def xlogHalfdeadLeaf : Option Page :=
  addItem
    ⟨[], ⟨record.leftblk, record.rightblk, 0,
      { clear with halfDead := true, leaf := true }, 0, 0⟩⟩
    (topParentTuple record.topparent) 1

/-- `abtree_xlog_mark_page_halfdead`. -/
def xlogMarkPageHalfdead (parent : Page) : Option HalfDeadPages := do
  let parent ← xlogHalfdeadParent record parent
  let leaf ← xlogHalfdeadLeaf record
  return ⟨parent, leaf⟩

namespace HalfDeadArgs

/-- A leaf page that may be deleted has only its high key. -/
structure Deletable (args : HalfDeadArgs) : Prop where
  live : args.leaf.Live
  leaf : args.leaf.isLeaf = true
  root : args.leaf.special.flags.root = false
  items : args.leaf.items.length = 1
  place : args.parent.firstDataKey ≤ args.poffset

/-- The pivot of the page and the pivot to its right have the same aggregate. -/
def SameAgg (args : HalfDeadArgs) : Prop :=
  ∀ itup right, args.parent.item args.poffset = some itup →
    args.parent.item (args.poffset + 1) = some right →
      itup.read (itup.pivotAggPtr args.info) args.info.aggTyplen.toInt =
        right.read (right.pivotAggPtr args.info) args.info.aggTyplen.toInt

variable {args : HalfDeadArgs} {parent : Page}

theorem newParent_inv (done : args.newParent = some parent) :
    ∃ right rightAgg itup changed, args.parent.item (args.poffset + 1) = some right ∧
      right.downLink = args.topparentrightsib ∧
      right.read (right.pivotAggPtr args.info) args.info.aggTyplen.toInt = some rightAgg ∧
      args.parent.item args.poffset = some itup ∧
      (itup.setDownLink args.topparentrightsib).setPivotAggregationValue rightAgg args.info =
        some changed ∧
      changed.read (changed.pivotAggPtr args.info) args.info.aggTyplen.toInt = some rightAgg ∧
      (args.parent.setItem args.poffset changed).tupleDelete (args.poffset + 1) = some parent := by
  obtain ⟨right, isRight, rest⟩ := bind_eq_some_iff.mp done
  split at rest
  · cases rest
  next linked =>
    simp only [bind_eq_bind, bind_eq_some_iff] at rest
    obtain ⟨rightAgg, read, itup, isItup, changed, stored, deleted⟩ := rest
    refine ⟨right, rightAgg, itup, changed, isRight, not_not.mp linked, read, isItup, stored, ?_,
      deleted⟩
    rw [← Bytes.length_of_read read]
    exact read_of_setPivotAggregationValue stored

theorem parent_replays (done : args.newParent = some parent)
    (same : args.SameAgg) : xlogHalfdeadParent args.record args.parent = some parent := by
  obtain ⟨right, rightAgg, itup, changed, isRight, linked, read, isItup, stored, agg, deleted⟩ :=
    newParent_inv done
  have unchanged : changed = itup.setDownLink args.topparentrightsib := by
    have there : (itup.setDownLink args.topparentrightsib).data.read
        ((itup.setDownLink args.topparentrightsib).pivotAggPtr args.info - 8)
        args.info.aggTyplen.toInt = some rightAgg :=
      (same itup right isItup isRight).trans read
    unfold setPivotAggregationValue write at stored
    rw [Bytes.write_of_read there] at stored
    exact (some.inj stored).symm
  rw [unchanged, ← linked] at deleted
  unfold xlogHalfdeadParent record
  simp only [isRight, isItup, bind_eq_bind, bind_some]
  exact deleted

end HalfDeadArgs

/-- What the second stage of the deletion, and a scan, see of a half-dead leaf page: not the hints
about garbage and the end of a split group, not the cycle id, and not the update id, which is never
read on a leaf page. -/
def halfDeadState (page : Page) : Page :=
  { page with special := { page.special with
      flags := { page.special.flags with
        hasGarbage := false
        splitEnd := false
        hadGarbageRemoved := false }
      cycleid := 0
      lastUpdateId := 0 } }

theorem xlogHalfdeadLeaf_eq : xlogHalfdeadLeaf record = some ⟨[topParentTuple record.topparent],
      ⟨record.leftblk, record.rightblk, 0,
        { clear with halfDead := true, leaf := true }, 0, 0⟩⟩ := by
  have size : (topParentTuple record.topparent).size = 8 := rfl
  rw [xlogHalfdeadLeaf, addItem, if_pos]
  · rfl
  · simp only [maxOffset, lower, upper, storage, size]
    decide

variable {args : HalfDeadArgs} {parent : Page}

theorem HalfDeadArgs.leaf_replays {leaf : Page}
    (deletable : args.Deletable) (done : args.newLeaf = some leaf) :
    ∃ replayed, xlogHalfdeadLeaf args.record = some replayed ∧
      halfDeadState replayed = halfDeadState leaf := by
  obtain ⟨old, found, rest⟩ := bind_eq_some_iff.mp done
  obtain ⟨hikey, isItems⟩ := length_eq_one_iff.mp deletable.items
  have lvl : args.leaf.special.level = 0 := by
    have leaf := deletable.live.leaf.symm.trans deletable.leaf
    exact beq_iff_eq.mp leaf
  have isLeaf : args.leaf.special.flags.leaf := deletable.leaf
  split at rest
  · cases rest
    refine ⟨_, xlogHalfdeadLeaf_eq _, ?_⟩
    simp only [halfDeadState, setItem, isItems, HalfDeadArgs.record, clear, lvl,
      isLeaf, deletable.live.deleted, deletable.live.metapage, deletable.live.incompleteSplit,
      deletable.root]
    rfl
  · cases rest

def PivotsExact (info : AggInfo) (sum : UInt32 → Nat) (page : Page) : Prop :=
  ∀ item ∈ page.items.drop (page.firstDataKey - 1),
    (item.read (item.pivotAggPtr info) info.aggTyplen.toInt).map Bytes.toNat =
      some (sum item.downLink)

theorem mem_drop_of_eraseIdx_set {items : List α} {changed item : α}
    (mem : item ∈ ((items.set place changed).eraseIdx (place + 1)).drop start) :
    item = changed ∨ item ∈ items.drop start := by
  obtain ⟨index, found⟩ := getElem?_of_mem mem
  rw [getElem?_drop, getElem?_eraseIdx] at found
  have there : ∃ other, start ≤ other ∧ (items.set place changed)[other]? = some item := by
    split at found
    · exact ⟨_, Nat.le_add_right start index, found⟩
    · exact ⟨_, Nat.le_succ_of_le (Nat.le_add_right start index), found⟩
  obtain ⟨other, after, isItem⟩ := there
  rw [getElem?_set] at isItem
  split at isItem
  · split at isItem
    · exact .inl (some.inj isItem).symm
    · cases isItem
  · refine .inr (mem_of_getElem? (i := other - start) ?_)
    rw [getElem?_drop, Nat.add_sub_cancel' after]
    exact isItem

/-- If every pivot of the parent is exact, the remaining pivots are exact after the deletion. -/
theorem HalfDeadArgs.newParent_exact {sum : UInt32 → Nat}
    (place : args.parent.firstDataKey ≤ args.poffset) (done : args.newParent = some parent)
    (exact : PivotsExact args.info sum args.parent) : PivotsExact args.info sum parent := by
  obtain ⟨right, rightAgg, itup, changed, isRight, linked, read, isItup, stored, agg, deleted⟩ :=
    newParent_inv done
  obtain ⟨old, -, rfl⟩ := map_eq_some_iff.mp deleted
  have positive : args.poffset ≠ 0 := by
    rintro zero
    rw [zero, item, if_pos rfl] at isItup
    cases isItup
  intro item mem
  have after : args.poffset + 1 - 1 = args.poffset - 1 + 1 := by omega
  dsimp only [setItem] at mem
  rw [after] at mem
  cases mem_drop_of_eraseIdx_set mem with
  | inr there => exact exact item there
  | inl isChanged =>
    have layout := write_sameLayout stored
    have rightThere : right ∈ args.parent.items.drop (args.parent.firstDataKey - 1) := by
      rw [Page.item, if_neg (Nat.succ_ne_zero _), Nat.add_sub_cancel] at isRight
      refine mem_of_getElem? (i := args.poffset - (args.parent.firstDataKey - 1)) ?_
      rw [getElem?_drop, Nat.add_sub_cancel' (by omega)]
      exact isRight
    have link : changed.downLink = right.downLink := by
      rw [linked, downLink, layout.tTid]
      rfl
    rw [isChanged, agg, link, ← read]
    exact exact right rightThere

/-- If replay changes the parent as the primary did, the pivots have the same aggregate. -/
theorem HalfDeadArgs.sameAgg_of_replays (done : args.newParent = some parent)
    (replays : xlogHalfdeadParent args.record args.parent = some parent) : args.SameAgg := by
  obtain ⟨right, rightAgg, itup, changed, isRight, linked, read, isItup, stored, agg, deleted⟩ :=
    newParent_inv done
  have place : args.poffset ≠ 0 ∧ args.parent.items[args.poffset - 1]? = some itup := by
    rw [item] at isItup
    split at isItup
    · cases isItup
    · exact ⟨‹_›, isItup⟩
  have inside : args.poffset - 1 < args.parent.items.length :=
    (List.getElem?_eq_some_iff.mp place.2).1
  -- The item before the deleted one is the changed pivot, on both sides.
  have kept (item : IndexTuple) (res : Page)
      (removed : (args.parent.setItem args.poffset item).tupleDelete (args.poffset + 1) =
        some res) : res.items[args.poffset - 1]? = some item := by
    obtain ⟨old, -, rfl⟩ := map_eq_some_iff.mp removed
    dsimp only [setItem]
    rw [getElem?_eraseIdx, if_pos (by omega), getElem?_set_self inside]
  have followed : (args.parent.setItem args.poffset
      (itup.setDownLink right.downLink)).tupleDelete (args.poffset + 1) = some parent := by
    simpa only [xlogHalfdeadParent, record, isRight, isItup, bind_eq_bind, bind_some] using replays
  have same : itup.setDownLink right.downLink = changed :=
    some.inj ((kept _ _ followed).symm.trans (kept _ _ deleted))
  intro otherItup otherRight isOther isOtherRight
  cases isItup.symm.trans isOther
  cases isRight.symm.trans isOtherRight
  rw [read, ← agg, ← same]
  rfl

def HalfDeadArgs.Replays (args : HalfDeadArgs) (res : HalfDeadPages × HalfDeadRecord) : Prop :=
  ∃ replayed, xlogMarkPageHalfdead res.2 args.parent = some replayed ∧
    replayed.parent = res.1.parent ∧
    halfDeadState replayed.leaf = halfDeadState res.1.leaf ∧
    ∀ sum, PivotsExact args.info sum args.parent → PivotsExact args.info sum replayed.parent

/-- The record replays the deletion if and only if the pivot of the page and the pivot to its right
have the same aggregate. -/
theorem halfdead_replays {args : HalfDeadArgs} {res : HalfDeadPages × HalfDeadRecord}
    (deletable : args.Deletable) (done : markPageHalfdead args = some res) :
    args.Replays res ↔ args.SameAgg := by
  simp only [markPageHalfdead, Option.pure_def, bind_eq_bind, bind_eq_some_iff,
    Option.some.injEq] at done
  obtain ⟨parent, isParent, leaf, isLeaf, rfl⟩ := done
  constructor
  · rintro ⟨replayed, follows, isReplayed, -⟩
    simp only [xlogMarkPageHalfdead, Option.pure_def, bind_eq_bind,
      bind_eq_some_iff, Option.some.injEq] at follows
    obtain ⟨other, isOther, leafPage, -, rfl⟩ := follows
    exact HalfDeadArgs.sameAgg_of_replays isParent (isOther.trans (congrArg some isReplayed))
  · intro same
    obtain ⟨replayed, isReplayed, s⟩ := HalfDeadArgs.leaf_replays deletable isLeaf
    refine ⟨⟨parent, replayed⟩, ?_, rfl, s,
      fun sum exact => HalfDeadArgs.newParent_exact deletable.place isParent exact⟩
    simp only [xlogMarkPageHalfdead, HalfDeadArgs.parent_replays isParent same, isReplayed,
      bind_eq_bind, bind_some, Option.pure_def]

/-! ## A deletion that replay does not repeat -/

/-- An internal page above an empty leaf page in block 1 and a page in block 2 with seven rows. -/
def emptyChild : HalfDeadArgs where
  info := bigintAgg false
  leaf :=
    { items := [pivot 0 (Bytes.ofNat 8 5) 0]
      special := ⟨0, 2, 0, { clear with leaf := true }, 0, 0⟩ }
  leafblkno := 1
  parent :=
    { items := [pivot 1 [] 0, pivot 2 (Bytes.ofNat 8 5) 7, pivot 3 (Bytes.ofNat 8 9) 4]
      special := ⟨0, 0, 1, { clear with root := true }, 0, 1⟩ }
  poffset := 1
  topparent := 1
  topparentrightsib := 2

/-- After replay the pivot of block 2 has the aggregate of the deleted page. -/
theorem emptyChild_not_replayed : ((markPageHalfdead emptyChild).bind fun res =>
      (xlogMarkPageHalfdead res.2 emptyChild.parent).map fun replayed =>
        (res.1.parent.items.map IndexTuple.downLink, pivotAggs (bigintAgg false) res.1.parent,
          replayed.parent.items.map IndexTuple.downLink,
          pivotAggs (bigintAgg false) replayed.parent)) =
      some ([2, 3], [some 7, some 4], [2, 3], [some 0, some 4]) := by
  decide +kernel

def emptyChildren : HalfDeadArgs :=
  { emptyChild with
    parent :=
      { items := [pivot 1 [] 0, pivot 2 (Bytes.ofNat 8 5) 0, pivot 3 (Bytes.ofNat 8 9) 4]
        special := ⟨0, 0, 1, { clear with root := true }, 0, 1⟩ } }

theorem emptyChildren_deletable : emptyChildren.Deletable :=
  ⟨⟨rfl, rfl, rfl, rfl, rfl, by decide +kernel⟩, rfl, rfl, rfl, by decide⟩

theorem emptyChildren_sameAgg : emptyChildren.SameAgg := by
  rintro itup right ⟨⟩ ⟨⟩
  decide +kernel

/-- The deletion of one of two empty pages is replayed. -/
theorem emptyChildren_replays :
    ∃ res, markPageHalfdead emptyChildren = some res ∧ emptyChildren.Replays res := by
  have run : (markPageHalfdead emptyChildren).isSome := by decide +kernel
  obtain ⟨res, done⟩ := isSome_iff_exists.mp run
  exact ⟨res, done, (halfdead_replays emptyChildren_deletable done).mpr emptyChildren_sameAgg⟩

end PgAqp.Wal
