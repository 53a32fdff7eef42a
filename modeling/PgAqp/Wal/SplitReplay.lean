import PgAqp.Wal.SplitLoop

/-!
# Replay of a page split

What `abtree_xlog_split` reads from the record is what `_abt_split` used, with two
exceptions: the stride of the aggregate, and, on the last page of an internal
level, the aggregate of the pivot before the new item.  The update ids of internal
pages are not replayed.
-/

namespace PgAqp.Wal

open Library Abtree List Option SplitArgs IndexTuple Page

namespace SplitArgs

variable {args : SplitArgs} (call : args.CallValid)
include call

variable {lefthighkey : IndexTuple}

theorem CallValid.lefthighkey_sized (made : args.lefthighkey = some lefthighkey) :
    lefthighkey.Sized := by
  unfold SplitArgs.lefthighkey at made
  split at made
  · obtain ⟨lastleft, -, rest⟩ := bind_eq_some_iff.mp made
    obtain ⟨firstright, -, rfl⟩ := map_eq_some_iff.mp rest
    exact call.truncate lastleft firstright
  · obtain ⟨firstright, found, purged⟩ := bind_eq_some_iff.mp made
    refine purgeAggSpace_sized ?_ call.typlen.1 purged
    unfold SplitArgs.firstright at found
    split at found
    · cases found
      exact call.newitem_sized
    · obtain ⟨item, old, rfl⟩ := map_eq_some_iff.mp found
      exact call.dataItem_sized (call.page.sized item (item_mem old))

theorem CallValid.halves_rightOk (made : args.halves lefthighkey = some res) : RightOk res := by
  simp only [halves, bind_eq_bind, bind_eq_some_iff] at made
  obtain ⟨left, -, right, start, done⟩ := made
  have sized : ∀ item ∈ args.page.items.drop (args.page.firstDataKey - 1), item.Sized :=
    fun item mem => call.page.sized item (mem_of_mem_drop mem)
  refine RightOk.distribute call _ sized ?_ done
  unfold righthighkey at start
  split at start
  · cases start
    exact ⟨rfl, fun item mem => absurd mem not_mem_nil⟩
  · obtain ⟨highkey, found, appended⟩ := bind_eq_some_iff.mp start
    have empty : RightOk ⟨left, []⟩ := ⟨rfl, fun item mem => absurd mem not_mem_nil⟩
    exact empty.append (call.page.sized highkey (item_mem found)) appended

theorem CallValid.right_replays {halves : Halves}
    (made : args.halves lefthighkey = some halves) (agg : Bytes) :
    xlogSplitRight (args.record lefthighkey agg ⟨halves.right, args.rightSpecial⟩) =
      some ⟨halves.right,
        xlogRightSpecial (args.record lefthighkey agg ⟨halves.right, args.rightSpecial⟩)⟩ := by
  have ok := call.halves_rightOk made
  exact restore_built rfl ok.1 ok.2

/-- Replay splits a posting list as the primary did, if it knew the stride. -/
theorem CallValid.splitAggInfo_swapPosting (known : StrideKnown raw args.info)
    (logged : args.loggedPostingoff ≠ 0) (lefthighkey : IndexTuple) (agg : Bytes) (right : Page) :
    swapPosting (splitAggInfo raw (args.record lefthighkey agg right)) = swapPosting args.info := by
  have posting : args.postingoff ≠ 0 := by
    intro plain
    exact logged (if_neg fun both => both.1 plain)
  have leaf := call.posting posting
  have lvl : (args.page.special.level == 0) := call.page.leaf.symm.trans leaf
  cases leafHasAgg : args.info.leafHasAgg with
  | false =>
    have logs : args.logsAggInfo = false := by
      rw [logsAggInfo, leaf, leafHasAgg]
      exact decide_eq_false (by simp)
    apply swapPosting_of_no_agg _ leafHasAgg
    simp only [splitAggInfo, record, logs, Bool.false_eq_true, if_false, ne_eq,
      not_true, if_pos logged]
  | true =>
    have stride : raw.minAggInfo.aggStride = args.info.aggStride :=
      known.resolve_left fun noAgg => Bool.false_ne_true (noAgg.symm.trans leafHasAgg)
    have logs : args.logsAggInfo := decide_eq_true (.inl ⟨leaf, leafHasAgg, posting⟩)
    have recovered := recoveredAggInfo_eq leafHasAgg stride
    simp only [splitAggInfo, record, logs, if_true, if_pos (loggedAggInfo_ne_nil _), lvl, recovered]

/-- Replay gets the new item and the new posting list where the left page needs them. -/
theorem CallValid.item_replays (known : args.loggedPostingoff = 0 ∨ StrideKnown raw args.info)
    (lefthighkey : IndexTuple) (agg : Bytes) (right : Page) :
    ∃ newitem nposting, xlogSplitItem (splitAggInfo raw (args.record lefthighkey agg right))
          (args.record lefthighkey agg right) args.page =
        some (newitem, nposting, lefthighkey.toBytes ++ agg) ∧
      (args.newitemonleft → newitem = some args.newitem) ∧
      (args.loggedPostingoff ≠ 0 → nposting = args.nposting) := by
  unfold xlogSplitItem
  by_cases logged : args.loggedPostingoff = 0
  · have plain : (args.record lefthighkey agg right).postingoff = 0 := logged
    cases side : args.newitemonleft with
    | true =>
      have onLeft : (args.record lefthighkey agg right).newitemonleft := side
      have block : take (args.record lefthighkey agg right).leftBlock =
          (args.newitem, lefthighkey.toBytes ++ agg) := by
        have start : args.loggedItem = args.newitem.toBytes := if_pos ⟨side, logged⟩
        change take (args.loggedItem ++ _) = _
        rw [start, take_toBytes call.newitem_sized]
      refine ⟨some args.newitem, none, ?_, fun _ => rfl, fun posting => absurd logged posting⟩
      rw [if_pos (.inl onLeft)]
      rw [if_neg (not_not_intro plain), block]
    | false =>
      have onRight : ¬ ((args.record lefthighkey agg right).newitemonleft ∨
          (args.record lefthighkey agg right).postingoff ≠ 0) := by
        rw [plain, record, side]
        simp
      have block : (args.record lefthighkey agg right).leftBlock = lefthighkey.toBytes ++ agg := by
        rw [record, loggedItem, side, logged]
        rfl
      refine ⟨none, none, ?_, fun onLeft => absurd onLeft Bool.false_ne_true,
        fun posting => absurd logged posting⟩
      rw [if_neg onRight, block]
  · have posting : (args.record lefthighkey agg right).postingoff ≠ 0 := logged
    have same : args.loggedPostingoff = args.postingoff := by
      unfold loggedPostingoff at logged ⊢
      split
      · rfl
      next none => exact absurd (if_neg none) logged
    have swaps := call.splitAggInfo_swapPosting (known.resolve_left logged) logged lefthighkey agg
      right
    have block : take (args.record lefthighkey agg right).leftBlock =
        (args.orignewitem, lefthighkey.toBytes ++ agg) := by
      have start : args.loggedItem = args.orignewitem.toBytes :=
        (if_neg fun both => logged both.2).trans (if_pos logged)
      change take (args.loggedItem ++ _) = _
      rw [start, take_toBytes call.orignewitem]
    obtain ⟨oposting, nposting, old, stored, swap⟩ := call.swapped (same ▸ logged)
    refine ⟨some args.newitem, some nposting, ?_, fun _ => rfl, fun _ => stored.symm⟩
    rw [if_pos (.inr posting)]
    have oldItem : args.page.item ((args.record lefthighkey agg right).newitemoff - 1) =
        some oposting := old
    have off : (args.record lefthighkey agg right).postingoff = args.postingoff := same
    rw [if_pos posting, block, swaps, oldItem, off, bind_some]
    rw [swap, map_some]

theorem CallValid.locals (known : args.loggedPostingoff = 0 ∨ StrideKnown raw args.info)
    (sized : lefthighkey.Sized) (agg : Bytes) (right : Page) :
    ∃ locals, xlogSplitLocals raw (args.record lefthighkey agg right) args.page = some locals ∧
      locals.info = splitAggInfo raw (args.record lefthighkey agg right) ∧
      (args.newitemonleft → locals.newitem = some args.newitem) ∧
      (args.loggedPostingoff ≠ 0 → locals.nposting = args.nposting) ∧
      locals.replacepostingoff = (if args.loggedPostingoff ≠ 0 then args.newitemoff - 1 else 0) ∧
      locals.lefthikey = lefthighkey ∧
      locals.previtemOff = args.previtemOff ∧
      locals.newvalue = agg.take locals.info.aggTyplen.toInt.toNat := by
  obtain ⟨newitem, nposting, items, newItem, newPosting⟩ :=
    call.item_replays known lefthighkey agg right
  have previtem : args.previtemOff =
      if (args.page.special.level == 0) = true then 0 else args.newitemoff - 1 := by
    rw [previtemOff, call.page.leaf]
  unfold xlogSplitLocals
  dsimp only
  rw [items, map_some]
  simp only [take_toBytes sized agg]
  exact ⟨_, rfl, rfl, newItem, newPosting, rfl, rfl, previtem.symm, rfl⟩

omit call

theorem Agrees.left_replays {record : SplitRecord} (agrees : args.Agrees record locals)
    (valid : args.PointValid) (read : xlogSplitLocals raw record args.page = some locals)
    {halves : Halves} (made : args.halves locals.lefthikey = some halves) :
    xlogSplitLeft raw record args.page = some ⟨halves.left, xlogLeftSpecial record args.page⟩ := by
  simp only [SplitArgs.halves, bind_eq_bind, bind_eq_some_iff] at made
  obtain ⟨left, appended, right, start, done⟩ := made
  have bounds : 1 ≤ args.page.firstDataKey ∧ args.page.firstDataKey ≤ args.page.maxOffset + 1 := by
    unfold righthighkey at start
    unfold firstDataKey
    split
    · exact ⟨le_refl 1, Nat.le_add_left 1 _⟩
    next right =>
      rw [if_neg right] at start
      obtain ⟨highkey, found, -⟩ := bind_eq_some_iff.mp start
      have nonempty := length_pos_of_mem (item_mem found)
      exact ⟨one_le_two, Nat.succ_le_succ nonempty⟩
  have items := agrees.distribute valid _ bounds.1 bounds.2 rfl done
  rw [xlogSplitLeft, read, bind_some, appended, bind_some, items, map_some]

/-- Replay agrees with the primary once it gives the pivot of the split child the same
aggregate. -/
theorem CallValid.agrees (call : args.CallValid) {locals : SplitLocals}
    (newitem : args.newitemonleft → locals.newitem = some args.newitem)
    (nposting : args.loggedPostingoff ≠ 0 → locals.nposting = args.nposting)
    (replaced : locals.replacepostingoff =
      if args.loggedPostingoff ≠ 0 then args.newitemoff - 1 else 0)
    (previtem : ∀ off item, 1 ≤ off → off < args.firstrightoff → args.page.item off = some item →
        (if off = locals.previtemOff then item.write (item.aggPtr locals.info) locals.newvalue
          else some item) = args.withNewagg off item) :
    args.Agrees (args.record lefthighkey agg right) locals where
  firstrightoff := rfl
  newitemoff := rfl
  newitemonleft := rfl
  newitem := newitem
  previtem := previtem
  posting := by
    intro off positive pre
    by_cases left : args.postingoff ≠ 0 ∧ args.origpagepostingoff < args.firstrightoff
    · have logged : args.loggedPostingoff ≠ 0 := by
        rw [loggedPostingoff, if_pos left]
        exact left.1
      rw [replaced, if_pos logged, origpagepostingoff, if_neg left.1]
    · have logged : args.loggedPostingoff = 0 := if_neg left
      rw [replaced, if_neg (not_not_intro logged)]
      -- a list that is not logged is behind the split point, or there is none
      have elsewhere : args.origpagepostingoff = 0 ∨
          args.firstrightoff ≤ args.origpagepostingoff := by
        by_cases plain : args.postingoff = 0
        · exact .inl (if_pos plain)
        · exact .inr (Nat.le_of_not_lt fun pre => left ⟨plain, pre⟩)
      omega
  nposting := by
    intro off item positive pre here
    have posting : args.postingoff ≠ 0 := by
      intro plain
      rw [origpagepostingoff, if_pos plain] at here
      omega
    have logged : args.loggedPostingoff ≠ 0 := by
      rw [loggedPostingoff, if_pos ⟨posting, here ▸ pre⟩]
      exact posting
    obtain ⟨-, tup, -, stored, -⟩ := call.swapped posting
    have data : args.dataItem off item = tup := by rw [dataItem, if_pos here, stored, getD_some]
    have leaf := call.posting posting
    rw [data, nposting logged, stored, withNewagg,
      if_neg fun both => Bool.false_ne_true (both.1.symm.trans leaf)]
    exact ⟨rfl, rfl⟩

theorem split_inv (done : split args = some res) :
    ∃ lefthighkey halves sibling agg, args.lefthighkey = some lefthighkey ∧
      args.halves lefthighkey = some halves ∧ args.newSibling = some sibling ∧
      args.loggedAgg halves.left = some agg ∧
      res.1.left = ⟨halves.left, args.leftSpecial⟩ ∧
      res.1.right = ⟨halves.right, args.rightSpecial⟩ ∧
      res.1.sibling = sibling ∧
      res.1.child = (if args.page.isLeaf then args.child else args.child.map clearIncompleteSplit) ∧
      res.2 = args.record lefthighkey agg ⟨halves.right, args.rightSpecial⟩ := by
  simp only [split, Option.pure_def, bind_eq_bind, bind_eq_some_iff, some.injEq] at done
  obtain ⟨lefthighkey, key, halves, made, sibling, linked, agg, logged, rfl⟩ := done
  exact ⟨lefthighkey, halves, sibling, agg, key, made, linked, logged, rfl, rfl, rfl, rfl, rfl⟩

theorem sibling_replays {sibling : Option Page} (linked : args.newSibling = some sibling)
    (lefthighkey : IndexTuple) (agg : Bytes) (right : Page) :
    xlogSibling (args.record lefthighkey agg right) args.sibling = sibling := by
  unfold xlogSibling record
  unfold newSibling isRightmost at linked
  by_cases rightmost : args.page.special.next = 0
  · rw [if_pos (beq_iff_eq.mpr rightmost)] at linked
    rw [if_pos rightmost]
    exact some.inj linked
  · rw [if_neg fun same => rightmost (beq_iff_eq.mp same)] at linked
    obtain ⟨old, present, rest⟩ := bind_eq_some_iff.mp linked
    rw [if_neg rightmost, present, map_some]
    split at rest
    · exact some.inj rest
    · cases rest

/-- On a leaf page replay sets the special areas, up to what the mask hides and, on the left, to
the update id. -/
theorem CallValid.masks (call : args.CallValid) (leaf : args.page.isLeaf)
    (lefthighkey : IndexTuple) (agg : Bytes) (right : Page) (items : List IndexTuple) :
    mask ⟨items, xlogLeftSpecial (args.record lefthighkey agg right) args.page⟩ =
        (withUpdateId ⟨items, args.leftSpecial⟩ args.page.special.lastUpdateId).mask ∧
      mask ⟨items, xlogRightSpecial (args.record lefthighkey agg right)⟩ =
        mask ⟨items, args.rightSpecial⟩ := by
  have lvl : (args.page.special.level == 0) := call.page.leaf.symm.trans leaf
  have flag : args.page.special.flags.leaf := leaf
  simp only [mask, withUpdateId, xlogLeftSpecial, leftSpecial, xlogRightSpecial, rightSpecial,
    record, PageFlags.clear, lvl, flag, leaf, call.page.deleted, call.page.metapage,
    call.page.halfDead, call.page.incompleteSplit, if_true, and_self]

/-- Replay makes the items of both halves, once it gives the pivot of the split child the same
aggregate. -/
theorem CallValid.replays (call : args.CallValid) (valid : args.PointValid)
    (done : split args = some res) (known : args.loggedPostingoff = 0 ∨ StrideKnown raw args.info)
    (previtem : ∀ locals, xlogSplitLocals raw res.2 args.page = some locals →
      locals.info = splitAggInfo raw res.2 →
      locals.previtemOff = args.previtemOff →
      ∀ off item, 1 ≤ off → off < args.firstrightoff → args.page.item off = some item →
          (if off = locals.previtemOff then item.write (item.aggPtr locals.info) locals.newvalue
            else some item) = args.withNewagg off item) :
    xlogSplit raw res.2 args.page args.sibling args.child = some
        { left := ⟨res.1.left.items, xlogLeftSpecial res.2 args.page⟩
          right := ⟨res.1.right.items, xlogRightSpecial res.2⟩
          sibling := res.1.sibling
          child := res.1.child } := by
  obtain ⟨lefthighkey, halves, sibling, agg, key, made, linked, -, left, right, sib, child,
    record⟩ := split_inv done
  rw [record] at previtem
  obtain ⟨locals, read, info, newitem, nposting, replaced, highkey, off, -⟩ :=
    call.locals known (call.lefthighkey_sized key) agg ⟨halves.right, args.rightSpecial⟩
  have leftPage := (call.agrees newitem nposting replaced
    (previtem locals read info off)).left_replays valid read (highkey.symm ▸ made)
  have rightPage := call.right_replays made agg
  have lvl : ((args.record lefthighkey agg ⟨halves.right, args.rightSpecial⟩).level = 0) =
      (args.page.isLeaf) := by
    rw [call.page.leaf, beq_iff_eq]
    rfl
  rw [record, left, right, sib, child, xlogSplit, rightPage, leftPage, sibling_replays linked]
  simp only [bind_eq_bind, bind_some, Option.pure_def, lvl]

end SplitArgs

open SplitArgs in
/-- On a leaf page replay makes both halves and the sibling link of the primary, if the stride was
known where a posting list is split on the left page.  The left half keeps the update id of the old
page, which the primary clears. -/
theorem leaf_split_replays {args : SplitArgs} {raw : Uninitialised}
    {res : SplitPages × SplitRecord} (done : split args = some res)
    (valid : args.PointValid) (call : args.CallValid) (leaf : args.page.isLeaf = true)
    (known : args.loggedPostingoff = 0 ∨ StrideKnown raw args.info) :
    ∃ replayed, xlogSplit raw res.2 args.page args.sibling args.child = some replayed ∧
      replayed.left.items = res.1.left.items ∧ replayed.right.items = res.1.right.items ∧
      replayed.left.mask = (res.1.left.withUpdateId args.page.special.lastUpdateId).mask ∧
      replayed.right.mask = res.1.right.mask ∧
      replayed.sibling = res.1.sibling ∧ replayed.child = res.1.child := by
  have replayed := call.replays valid done known (by
    intro locals _ _ previtem off item positive _ _
    have none : args.previtemOff = 0 := if_pos leaf
    rw [previtem, none, if_neg (by omega), withNewagg,
      if_neg fun both => Bool.false_ne_true (both.1.symm.trans leaf)])
  obtain ⟨lefthighkey, halves, sibling, agg, -, -, -, -, left, right, -, -, record⟩ :=
    split_inv done
  refine ⟨_, replayed, rfl, rfl, ?_, ?_, rfl, rfl⟩
  · rw [record, left]
    exact (call.masks leaf lefthighkey agg ⟨halves.right, args.rightSpecial⟩ halves.left).1
  · rw [record, right]
    exact (call.masks leaf lefthighkey agg ⟨halves.right, args.rightSpecial⟩ halves.right).2

/-! ## A split that replay does not repeat -/

def longKey (value : Nat) : Bytes := Bytes.ofNat 8 value ++ replicate 2040 0

/-- A full internal page without a high key, the last one of its level.  The child in block 2 was
split, and the pivot of its right half, in block 5, is inserted. -/
def rightmostSplit : SplitArgs where
  info := bigintAgg false
  page :=
    { items := [pivot 1 [] 10, pivot 2 (longKey 2) 20, pivot 3 (longKey 3) 30,
        pivot 4 (longKey 4) 40]
      special := ⟨7, 0, 1, PageFlags.clear, 0, 3⟩ }
  origpagenumber := 8
  rightpagenumber := 9
  sibling := none
  child := some splitChild
  newitemoff := 3
  newitem := pivot 5 (longKey 5) 8
  orignewitem := pivot 5 (longKey 5) 8
  nposting := none
  postingoff := 0
  newagg := Bytes.ofNat 8 12
  firstrightoff := 3
  newitemonleft := true
  cycleid := 0
  truncate := fun lastleft _ => lastleft

/-- After replay the pivot of the split child has the aggregate of the pivot before it, and the
right page has no update id. -/
theorem rightmostSplit_not_replayed :
    rightmostSplit.page.freeSpace < maxalign rightmostSplit.newitem.size ∧
    ((split rightmostSplit).bind fun res =>
      (xlogSplit zeroed res.2 rightmostSplit.page none (some splitChild)).map fun replayed =>
        ((pivotAggs (bigintAgg false) res.1.left).tail,
          (pivotAggs (bigintAgg false) replayed.left).tail,
          res.1.right.special.lastUpdateId, replayed.right.special.lastUpdateId)) =
      some ([some 10, some 12, some 8], [some 10, some 10, some 8], 1, 0) := by
  decide +kernel

/-- The posting list of the leaf page and the new row, after the list was split. -/
def swappedRow : IndexTuple × IndexTuple :=
  (swapPosting (bigintAgg true) (row 15 1000 9) (rowList [100, 200, 300]) 1).getD
    (row 0 0 0, row 0 0 0)

/-- `_abt_truncate` for equal keys of eight bytes, which get the last heap TID on the left. -/
def truncateEqual (lastleft firstright : IndexTuple) : IndexTuple :=
  { (firstright.resize 16 18).setNAtts 1 true with
    data := (firstright.resize 16 18).data ++ (lastleft.maxHeapTid.getD lastleft.tTid).toBytes }

theorem truncateEqual_sized (lastleft firstright : IndexTuple) :
    (truncateEqual lastleft firstright).Sized := by
  have length : (truncateEqual lastleft firstright).data.length = 16 := by
    simp [truncateEqual, IndexTuple.resize]
    omega
  refine ⟨⟨2, length⟩, ?_⟩
  rw [IndexTuple.size, length]
  decide

/-- A split of a leaf page where the posting list and the new row stay on the left. -/
def leafSplit : SplitArgs where
  info := bigintAgg true
  page := { leafPage with items := [rowList [100, 200, 300], row 40 4 3, row 50 5 3] }
  origpagenumber := 8
  rightpagenumber := 9
  sibling := none
  child := none
  newitemoff := 2
  newitem := swappedRow.2
  orignewitem := row 15 1000 9
  nposting := some swappedRow.1
  postingoff := 1
  newagg := Bytes.ofNat 8 0
  firstrightoff := 2
  newitemonleft := true
  cycleid := 0
  truncate := truncateEqual

theorem leafSplit_pointValid : leafSplit.PointValid where
  onLeft := by decide
  onRight := by decide
  inside := by decide

theorem leafSplit_callValid : leafSplit.CallValid where
  page :=
    { leaf := rfl
      deleted := rfl
      metapage := rfl
      halfDead := rfl
      incompleteSplit := rfl
      sized := by decide +kernel }
  prepared := ⟨1, by decide +kernel⟩
  orignewitem := by decide
  truncate := truncateEqual_sized
  posting := fun _ => rfl
  typlen := by decide
  newagg := by decide

/-- Replay where the local variable held the stride. -/
theorem row_splits_page_replays : ∃ res, split leafSplit = some res ∧
      ∃ replayed, xlogSplit ⟨⟨false, 0, 0⟩, ⟨0, 8⟩⟩ res.2 leafSplit.page none none = some replayed ∧
        replayed.left.items = res.1.left.items ∧ replayed.right.items = res.1.right.items ∧
        replayed.left.mask = (res.1.left.withUpdateId leafSplit.page.special.lastUpdateId).mask ∧
        replayed.right.mask = res.1.right.mask ∧
        replayed.sibling = res.1.sibling ∧ replayed.child = res.1.child := by
  have some : (split leafSplit).isSome = true := by decide +kernel
  obtain ⟨res, done⟩ := isSome_iff_exists.mp some
  exact ⟨res, done, leaf_split_replays done leafSplit_pointValid leafSplit_callValid rfl
    (.inr (.inr rfl))⟩

end PgAqp.Wal
