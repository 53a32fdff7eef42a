import PgAqp.Abtree.IndexTuple

/-!
# Posting lists

The heap pointers of several rows with one key, then, if the leaf level has them, their
aggregates, and then their transaction ids.
-/

namespace PgAqp.Abtree

open Library List Option IndexTuple

namespace IndexTuple

/-- `ABTreeTupleGetMaxHeapTID`. -/
def maxHeapTid (tup : IndexTuple) : Option ItemPointer :=
  if tup.isPosting then
    (tup.read (tup.postingN (tup.nPosting - 1)) 6).map ItemPointer.ofBytes
  else some tup.tTid

end IndexTuple

/-- The part of `_abt_swap_posting` for the aggregates, if the leaf level has them. -/
def swapAggs (info : AggInfo) (newitem oposting nposting : IndexTuple) (postingoff : Nat) :
    Option (IndexTuple × IndexTuple) :=
  if info.leafHasAgg = false then some (nposting, newitem)
  else do
    let nhtids : Int := oposting.nPosting
    let stride := info.aggStride.toInt
    let typlen := info.aggTyplen.toInt
    let aggPtr := nposting.postingAggPtr
    let nposting ← nposting.move (aggPtr + stride * (postingoff + 1))
      (aggPtr + stride * postingoff) ((nhtids - postingoff - 1) * stride)
    let newitemAggPtr := newitem.nonPivotAggPtr info
    let value ← newitem.read newitemAggPtr typlen
    let nposting ← nposting.write (aggPtr + stride * postingoff) value
    let last ← oposting.read (oposting.postingAggPtr + stride * (nhtids - 1)) typlen
    let newitem ← newitem.write newitemAggPtr last
    return (nposting, newitem)

/-- The part of `_abt_swap_posting` for the transaction ids.  The new item gets the id at
`postingoff` of the old list. -/
def swapXmins (newitem oposting nposting : IndexTuple) (postingoff : Nat) :
    Option (IndexTuple × IndexTuple) := do
  let nhtids : Int := oposting.nPosting
  let xminPtr := nposting.postingXminPtr
  let nposting ← nposting.move (xminPtr + 4 * (postingoff + 1)) (xminPtr + 4 * postingoff)
    ((nhtids - postingoff - 1) * 4)
  let xmin ← newitem.read newitem.nonPivotXminPtr 4
  let nposting ← nposting.write (xminPtr + 4 * postingoff) xmin
  let replaced ← oposting.read (oposting.postingXminPtr + 4 * postingoff) 4
  let newitem ← newitem.write newitem.nonPivotXminPtr replaced
  return (nposting, newitem)

/-- `_abt_swap_posting`: the new posting list and the final new item. -/
def swapPosting (info : AggInfo) (newitem oposting : IndexTuple) (postingoff : Nat) :
    Option (IndexTuple × IndexTuple) := do
  let nhtids : Int := oposting.nPosting
  let nposting ← oposting.move (oposting.postingN (postingoff + 1)) (oposting.postingN postingoff)
    ((nhtids - postingoff - 1) * 6)
  let nposting ← nposting.write (nposting.postingN postingoff) newitem.tTid.toBytes
  let maxTid ← oposting.maxHeapTid
  let newitem := { newitem with tTid := maxTid }
  let swapped ← swapAggs info newitem oposting nposting postingoff
  swapXmins swapped.2 oposting swapped.1 postingoff

/-- The size of a tuple with the given number of heap pointers, as `_abt_form_posting` and
`_abt_update_posting` compute it. -/
def postingSize (info : AggInfo) (keysize nhtids : Nat) : Int :=
  if nhtids > 1 then
    maxalign (keysize + 6 * nhtids) +
      (if info.leafHasAgg then maxalign (info.aggStride.toInt * nhtids) else 0) +
      maxalign (4 * nhtids)
  else keysize + info.extraSpaceForNonpivotTuple

/-- Where `_abt_update_posting` stores the heap pointers: in the list or in the header. -/
def putHeapTid (tup : IndexTuple) (nhtids ui : Nat) (tid : ItemPointer) : Option IndexTuple :=
  if nhtids > 1 then tup.write (tup.postingN ui) tid.toBytes
  else if ui = 0 then some { tup with tTid := tid }
  else none

/-- Copy the aggregate of a row, if the leaf level has them. -/
def copyAgg (info : AggInfo) (orig : IndexTuple) (nhtids i ui : Nat) (tup : IndexTuple) :
    Option IndexTuple :=
  if info.leafHasAgg = false then some tup
  else
    (orig.read (orig.postingAggPtr + i * info.aggStride.toInt) info.aggTyplen.toInt).bind
      (tup.write
        ((if nhtids > 1 then tup.postingAggPtr else tup.nonPivotAggPtr info) +
          ui * info.aggStride.toInt))

def copyRow (info : AggInfo) (orig : IndexTuple) (nhtids i ui : Nat) (tup : IndexTuple) :
    Option IndexTuple := do
  let tid ← orig.read (orig.postingN i) 6
  let tup ← putHeapTid tup nhtids ui (ItemPointer.ofBytes tid)
  let tup ← copyAgg info orig nhtids i ui tup
  let xmin ← orig.read (orig.postingXminPtr + 4 * i) 4
  tup.write ((if nhtids > 1 then tup.postingXminPtr else tup.nonPivotXminPtr) + 4 * ui) xmin

/-- The loop of `_abt_update_posting` over the rows from `i` on. -/
def copyRows (info : AggInfo) (orig : IndexTuple) (nhtids : Nat) :
    Nat → Nat → Nat → List Nat → IndexTuple → Option IndexTuple
  | 0, _, _, _, tup => some tup
  | count + 1, i, ui, deletetids, tup =>
    if deletetids.head? = some i then
      copyRows info orig nhtids count (i + 1) ui deletetids.tail tup
    else
      (copyRow info orig nhtids i ui tup).bind
        (copyRows info orig nhtids count (i + 1) (ui + 1) deletetids)

/-- `_abt_update_posting`: the tuple without the rows at the given places. -/
def updatePosting (info : AggInfo) (orig : IndexTuple) (deletetids : List Nat) :
    Option IndexTuple :=
  let nhtids := orig.nPosting - deletetids.length
  let keysize := orig.postingOffset
  let newsize := postingSize info keysize nhtids
  if 8 ≤ keysize ∧ keysize ≤ newsize ∧ newsize < 8192 then
    let key := orig.data.take (keysize - 8)
    let copy := { orig with data := key ++ replicate (newsize.toNat - 8 - key.length) 0 }
    copyRows info orig nhtids orig.nPosting 0 0 deletetids
      (if nhtids > 1 then copy.setPosting nhtids keysize else { copy with altTid := false })
  else none

/-- Without leaf aggregates, the description of the aggregate is not used. -/
theorem swapPosting_of_no_agg (noAgg : first.leafHasAgg = false)
    (other : second.leafHasAgg = false) : swapPosting first = swapPosting second := by
  funext newitem oposting postingoff
  have swaps : swapAggs first = swapAggs second := by
    funext newitem oposting nposting postingoff
    rw [swapAggs, swapAggs, if_pos noAgg, if_pos other]
  rw [swapPosting, swapPosting, swaps]

theorem swapAggs_length (swapped : swapAggs info newitem oposting nposting postingoff = some res) :
    res.1.data.length = nposting.data.length ∧ res.2.data.length = newitem.data.length := by
  unfold swapAggs at swapped
  split at swapped
  · cases swapped
    exact ⟨rfl, rfl⟩
  · simp only [Option.pure_def, bind_eq_bind, bind_eq_some_iff, some.injEq] at swapped
    obtain ⟨moved, move, value, -, placed, place, last, -, final, st, rfl⟩ := swapped
    exact ⟨(write_sameLayout place).length.trans
      (move_sameLayout move).length, (write_sameLayout st).length⟩

theorem swapXmins_length (swapped : swapXmins newitem oposting nposting postingoff = some res) :
    res.1.data.length = nposting.data.length ∧ res.2.data.length = newitem.data.length := by
  simp only [swapXmins, Option.pure_def, bind_eq_bind, bind_eq_some_iff, some.injEq] at swapped
  obtain ⟨moved, move, xmin, -, placed, place, replaced, -, final, st, rfl⟩ := swapped
  exact ⟨(write_sameLayout place).length.trans (move_sameLayout move).length,
    (write_sameLayout st).length⟩

theorem swapPosting_length (swapped : swapPosting info newitem oposting postingoff = some res) :
    res.1.data.length = oposting.data.length ∧ res.2.data.length = newitem.data.length := by
  simp only [swapPosting, bind_eq_bind, bind_eq_some_iff] at swapped
  obtain ⟨moved, move, placed, place, maxTid, -, both, aggs, xmins⟩ := swapped
  have placedLength : placed.data.length = oposting.data.length :=
    (write_sameLayout place).length.trans (move_sameLayout move).length
  have aggLengths := swapAggs_length aggs
  have xminLengths := swapXmins_length xmins
  exact ⟨xminLengths.1.trans (aggLengths.1.trans placedLength), xminLengths.2.trans aggLengths.2⟩

theorem swapPosting_inside (swapped : swapPosting info newitem oposting postingoff = some res) :
    postingoff < oposting.nPosting := by
  simp only [swapPosting, bind_eq_bind, bind_eq_some_iff] at swapped
  obtain ⟨moved, move, -⟩ := swapped
  obtain ⟨data, stored, -⟩ := map_eq_some_iff.mp move
  obtain ⟨bytes, loaded, -⟩ := bind_eq_some_iff.mp stored
  obtain ⟨inside, loaded⟩ := ite_none_right_eq_some.mp loaded
  omega

end PgAqp.Abtree
