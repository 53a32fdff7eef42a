import PgAqp.Abtree.Dedup

/-!
# Splitting a posting list

A new row in the middle of a posting list shifts the three arrays of the list, each for
itself, so the rows survive only if all three give away their last entry.
-/

namespace PgAqp.Abtree

open Library List Option IndexTuple ItemPointer

/-- `ItemPointerCompare` is negative. -/
def ItemPointer.Before (first second : ItemPointer) : Prop :=
  first.block < second.block ∨ first.block = second.block ∧ first.offset < second.offset
  deriving Decidable

structure Row where
  tid : ItemPointer
  /-- Empty if the leaf level has no aggregates. -/
  agg : Bytes
  xmin : Bytes
  deriving DecidableEq, Repr

def AggInfo.Strided (info : AggInfo) : Prop :=
  0 ≤ info.aggTyplen.toInt ∧ info.aggTyplen.toInt ≤ info.aggStride.toInt

instance (info : AggInfo) : Decidable info.Strided :=
  inferInstanceAs (Decidable (_ ∧ _))

namespace IndexTuple

def postingRow (info : AggInfo) (tup : IndexTuple) (i : Nat) : Option Row := do
  let tid ← tup.read (tup.postingN i) 6
  let agg ← tup.readIf info.leafHasAgg (tup.postingAggPtr + info.aggStride.toInt * i)
    info.aggTyplen.toInt
  let xmin ← tup.read (tup.postingXminPtr + 4 * i) 4
  return ⟨ofBytes tid, agg, xmin⟩

def plainRow (info : AggInfo) (tup : IndexTuple) : Option Row := do
  let agg ← tup.readIf info.leafHasAgg (tup.nonPivotAggPtr info) info.aggTyplen.toInt
  let xmin ← tup.read tup.nonPivotXminPtr 4
  return ⟨tup.tTid, agg, xmin⟩

def leafRows (info : AggInfo) (tup : IndexTuple) : Option (List Row) :=
  if tup.isPosting then (range tup.nPosting).mapM (tup.postingRow info)
  else (tup.plainRow info).map fun row => [row]

end IndexTuple

variable {postingoff : Nat} {rows : List Row} {new : Row}

theorem mapM_eq_some_iff {read : α → Option β} {es : List α} {values : List β} :
    es.mapM read = some values ↔ es.map read = values.map some := by
  induction es generalizing values with
  | nil => cases values <;> simp
  | cons e es ih =>
    rw [mapM_cons, map_cons]
    constructor
    · intro computed
      simp only [bind_eq_bind, bind_eq_some_iff, Option.pure_def, some.injEq] at computed
      obtain ⟨value, isValue, rest, isRest, rfl⟩ := computed
      rw [map_cons, isValue, ih.mp isRest]
    · intro mapped
      cases values with
      | nil => cases mapped
      | cons value values =>
        obtain ⟨isValue, isRest⟩ := cons.inj mapped
        rw [isValue, ih.mpr isRest]
        rfl

structure PostingRoom (info : AggInfo) (tup : IndexTuple) : Prop where
  start : 8 ≤ tup.postingOffset
  aggs : tup.postingOffset + 6 * (tup.nPosting : Int) ≤ tup.postingAggPtr
  xmins : tup.postingAggPtr + (if info.leafHasAgg then info.aggStride.toInt * tup.nPosting
    else 0) ≤ tup.postingXminPtr
  total : tup.postingXminPtr + 4 * (tup.nPosting : Int) = tup.size

namespace IndexTuple

variable {tup : IndexTuple}

theorem IsLeafItem.postingRoom (item : tup.IsLeafItem info) (posting : tup.isPosting) :
    PostingRoom info tup := by
  obtain ⟨start, many, total⟩ := item.posting posting
  rw [postingSize, if_pos many] at total
  refine ⟨start, ?_, ?_, ?_⟩
  · unfold postingAggPtr maxalign typealign
    omega
  · unfold postingAggPtr postingXminPtr
    unfold maxalign typealign at total ⊢
    split at total
    next has =>
      rw [if_pos has]
      omega
    next has =>
      rw [if_neg has]
      omega
  · unfold postingXminPtr
    omega

theorem IsLeafItem.plainRoom (item : tup.IsLeafItem info)
    (plain : tup.isPosting = false) (has : info.leafHasAgg) :
    8 ≤ tup.nonPivotAggPtr info ∧
      tup.nonPivotAggPtr info + info.aggTyplen.toInt ≤ tup.nonPivotXminPtr := by
  have room := item.plain plain
  unfold nonPivotAggPtr nonPivotXminPtr
  rw [AggInfo.extraSpaceForNonpivotTuple, if_pos has] at room ⊢
  unfold maxalign intalign typealign at room ⊢
  omega

theorem IsLeafItem.plainXmin (item : tup.IsLeafItem info)
    (plain : tup.isPosting = false) (strided : info.Strided) : 8 ≤ tup.nonPivotXminPtr := by
  have typlen := strided.1
  have room := item.plain plain
  unfold nonPivotXminPtr
  unfold AggInfo.extraSpaceForNonpivotTuple maxalign intalign typealign at room
  split at room <;> omega

def withData (tup : IndexTuple) (data : Bytes) : IndexTuple := { tup with data := data }

theorem exists_write (tup : IndexTuple) (source : Bytes) {off : Int} (start : 8 ≤ off)
    (inside : off + source.length ≤ tup.size) :
    ∃ data, tup.write off source = some (tup.withData data) ∧ data.length = tup.data.length ∧
      (tup.withData data).read off source.length = some source ∧
      Bytes.SameOutside tup.read (tup.withData data).read off (off + source.length) := by
  rw [size] at inside
  obtain ⟨data, written⟩ := tup.data.exists_write source (by omega : 0 ≤ off - 8) (by omega)
  refine ⟨data, by rw [write, written]; rfl, Bytes.length_of_write written,
    Bytes.read_of_write written, ?_⟩
  intro place length apart
  exact Bytes.read_beside_write written (by omega)

theorem exists_inserted (tup : IndexTuple) {count i : Nat} (start : 8 ≤ base)
    (narrow : width ≤ stride) (sized : (value.length : Int) = width)
    (inside : base + stride * count ≤ tup.size) (small : i < count) :
    ∃ moved data, tup.move (base + stride * (i + 1)) (base + stride * i)
        ((count - i - 1) * stride) = some (tup.withData moved) ∧
      (tup.withData moved).write (base + stride * i) value = some (tup.withData data) ∧
      data.length = tup.data.length ∧
      Bytes.Inserted tup.read (tup.withData data).read base stride width count i value ∧
      Bytes.SameOutside tup.read (tup.withData data).read base (base + stride * count) := by
  rw [size] at inside
  obtain ⟨moved, data, isMoved, isWritten, length, inserted, same⟩ :=
    Bytes.exists_inserted (by omega : 0 ≤ base - 8) narrow sized
      (by omega : base - 8 + stride * count ≤ tup.data.length) small
  have shift : ∀ off : Int, base - 8 + off = base + off - 8 := fun off => by omega
  rw [shift, shift] at isMoved
  rw [shift] at isWritten
  refine ⟨moved, data, by rw [move, isMoved]; rfl,
    by rw [write]; exact congrArg (Option.map _) isWritten, length, ?_, ?_⟩
  · intro place below
    have cell := inserted place below
    rw [shift, shift] at cell
    exact cell
  · intro place length apart
    exact same (place - 8) length (by omega)

end IndexTuple

theorem swapAggs_inserted (newitem : IndexTuple) {data : Bytes} {new last : Bytes}
    (strided : info.Strided) (room : PostingRoom info oposting)
    (length : data.length = oposting.data.length) (inside : postingoff < oposting.nPosting)
    (newRoom : info.leafHasAgg → 8 ≤ newitem.nonPivotAggPtr info ∧
      newitem.nonPivotAggPtr info + info.aggTyplen.toInt ≤ newitem.nonPivotXminPtr)
    (readNew : newitem.readIf info.leafHasAgg (newitem.nonPivotAggPtr info)
      info.aggTyplen.toInt = some new)
    (readLast : oposting.readIf info.leafHasAgg (oposting.postingAggPtr +
      info.aggStride.toInt * (oposting.nPosting - 1 : Int)) info.aggTyplen.toInt = some last) :
    ∃ data' newData, swapAggs info newitem oposting (oposting.withData data) postingoff =
        some (oposting.withData data', newitem.withData newData) ∧
      data'.length = oposting.data.length ∧ newData.length = newitem.data.length ∧
      Bytes.Inserted ((oposting.withData data).readIf info.leafHasAgg)
        ((oposting.withData data').readIf info.leafHasAgg) oposting.postingAggPtr
        info.aggStride.toInt info.aggTyplen.toInt oposting.nPosting postingoff new ∧
      Bytes.SameOutside (oposting.withData data).read (oposting.withData data').read
        oposting.postingAggPtr oposting.postingXminPtr ∧
      (newitem.withData newData).readIf info.leafHasAgg (newitem.nonPivotAggPtr info)
        info.aggTyplen.toInt = some last ∧
      (newitem.withData newData).read newitem.nonPivotXminPtr 4 =
        newitem.read newitem.nonPivotXminPtr 4 := by
  obtain ⟨typlen, narrow⟩ := strided
  have aggsEnd := room.xmins
  have xminsEnd := room.total
  have afterTids := room.aggs
  have start := room.start
  unfold swapAggs
  cases has : info.leafHasAgg with
  | false =>
    rw [has] at readNew readLast
    cases readNew
    cases readLast
    refine ⟨data, newitem.data, rfl, length, rfl, ?_, fun _ _ _ => rfl, rfl, rfl⟩
    intro place below
    split
    · rfl
    · split <;> rfl
  | true =>
    rw [has, if_pos rfl] at aggsEnd
    rw [has, readIf, if_pos rfl] at readNew readLast
    obtain ⟨newStart, newInside⟩ := newRoom has
    have sameSize : (oposting.withData data).size = oposting.size := by
      exact congrArg (8 + ·) length
    have newLength := Bytes.length_of_read readNew
    have lastLength := Bytes.length_of_read readLast
    obtain ⟨moved, data', isMoved, isWritten, length', inserted, same⟩ :=
      (oposting.withData data).exists_inserted (by omega : 8 ≤ oposting.postingAggPtr) narrow
        newLength (by rw [sameSize]; omega) inside
    obtain ⟨newData, isStored, storedLength, stored, sameNew⟩ :=
      newitem.exists_write last newStart (by unfold nonPivotXminPtr at newInside; omega)
    refine ⟨data', newData, ?_, length'.trans length, storedLength, ?_, ?_, ?_, ?_⟩
    · simp only [bind_eq_bind, Option.pure_def]
      change (move _ (oposting.postingAggPtr + _) (oposting.postingAggPtr + _) _).bind _ = _
      rw [isMoved, bind_some, readNew, bind_some]
      change (write _ (oposting.postingAggPtr + _) _).bind _ = _
      rw [isWritten, bind_some, readLast, bind_some, isStored]
      rfl
    · exact inserted
    · intro place length apart
      exact same place length (by omega)
    · rw [readIf, if_pos rfl, ← lastLength]
      exact stored
    · exact sameNew _ _ (by omega)

/-- The transaction ids after a posting list split: the new item gets the one that stood at the
place of the split. -/
theorem swapXmins_inserted (newitem : IndexTuple)
    {data : Bytes} {new replaced : Bytes} (room : PostingRoom info oposting)
    (aggs : 0 ≤ if info.leafHasAgg then info.aggStride.toInt * oposting.nPosting else 0)
    (length : data.length = oposting.data.length) (inside : postingoff < oposting.nPosting)
    (newRoom : 8 ≤ newitem.nonPivotXminPtr)
    (readNew : newitem.read newitem.nonPivotXminPtr 4 = some new)
    (readReplaced : oposting.read (oposting.postingXminPtr + 4 * postingoff) 4 = some replaced) :
    ∃ data' newData, swapXmins newitem oposting (oposting.withData data) postingoff =
        some (oposting.withData data', newitem.withData newData) ∧
      data'.length = oposting.data.length ∧ newData.length = newitem.data.length ∧
      Bytes.Inserted (oposting.withData data).read (oposting.withData data').read
        oposting.postingXminPtr 4 4 oposting.nPosting postingoff new ∧
      Bytes.SameOutside (oposting.withData data).read (oposting.withData data').read
        oposting.postingXminPtr oposting.size ∧
      (newitem.withData newData).read newitem.nonPivotXminPtr 4 = some replaced ∧
      Bytes.SameOutside newitem.read (newitem.withData newData).read newitem.nonPivotXminPtr
        newitem.size := by
  have start := room.start
  have afterTids := room.aggs
  have afterAggs := room.xmins
  have xminsEnd := room.total
  have sameSize : (oposting.withData data).size = oposting.size := by exact congrArg (8 + ·) length
  have samePtr : (oposting.withData data).postingXminPtr = oposting.postingXminPtr := by
    rw [postingXminPtr, sameSize]
    rfl
  have newLength := Bytes.length_of_read readNew
  have replacedLength := Bytes.length_of_read readReplaced
  obtain ⟨moved, data', isMoved, isWritten, length', inserted, same⟩ :=
    (oposting.withData data).exists_inserted (by omega : 8 ≤ oposting.postingXminPtr)
      (le_refl (4 : Int)) newLength (by rw [sameSize]; omega) inside
  obtain ⟨newData, isStored, storedLength, stored, sameNew⟩ :=
    newitem.exists_write replaced newRoom (by unfold nonPivotXminPtr; omega)
  refine ⟨data', newData, ?_, length'.trans length, storedLength, inserted, ?_, ?_, ?_⟩
  · simp only [swapXmins, bind_eq_bind, Option.pure_def]
    rw [samePtr, isMoved, bind_some, readNew, bind_some, isWritten,
      bind_some, readReplaced, bind_some, isStored]
    rfl
  · intro place length apart
    exact same place length (by omega)
  · rw [← replacedLength]
    exact stored
  · intro place length apart
    refine sameNew place length ?_
    unfold nonPivotXminPtr at apart ⊢
    omega

namespace IndexTuple

variable {info : AggInfo} {tup first second : IndexTuple}

theorem leafRows_posting (posting : tup.isPosting)
    : tup.leafRows info = some rows ↔ rows.length = tup.nPosting ∧
        ∀ i : Nat, i < tup.nPosting → tup.postingRow info i = rows[i]? := by
  rw [leafRows, if_pos posting, mapM_eq_some_iff]
  constructor
  · intro mapped
    have length : rows.length = tup.nPosting := by
      have lengths := congrArg length mapped
      rw [length_map, length_map, length_range] at lengths
      exact lengths.symm
    refine ⟨length, fun i inside => ?_⟩
    have e := congrArg (·[i]?) mapped
    simp only [getElem?_map, getElem?_range inside, map_some] at e
    rw [getElem?_eq_getElem (length ▸ inside)] at e ⊢
    exact some.inj e
  · rintro ⟨length, es⟩
    apply ext_getElem?
    intro i
    rw [getElem?_map, getElem?_map]
    by_cases inside : i < tup.nPosting
    · rw [getElem?_range inside, map_some, es i inside,
        getElem?_eq_getElem (length ▸ inside), map_some]
    · rw [getElem?_eq_none (by rw [length_range]; omega), getElem?_eq_none (by omega)]
      rfl

variable {kept : Bool}

theorem postingRow_cases (read : tup.postingRow info i = some row) :
    ∃ tid, tup.read (tup.postingOffset + 6 * i) 6 = some tid ∧ row.tid = ofBytes tid ∧
      tup.readIf info.leafHasAgg (tup.postingAggPtr + info.aggStride.toInt * i)
        info.aggTyplen.toInt = some row.agg ∧
      tup.read (tup.postingXminPtr + 4 * i) 4 = some row.xmin := by
  simp only [postingRow, Option.pure_def, bind_eq_bind, bind_eq_some_iff, some.injEq] at read
  obtain ⟨tid, isTid, agg, isAgg, xmin, isXmin, rfl⟩ := read
  exact ⟨tid, isTid, rfl, isAgg, isXmin⟩

theorem plainRow_cases (read : tup.plainRow info = some row) : row.tid = tup.tTid ∧
      tup.readIf info.leafHasAgg (tup.nonPivotAggPtr info) info.aggTyplen.toInt = some row.agg ∧
      tup.read tup.nonPivotXminPtr 4 = some row.xmin := by
  simp only [plainRow, Option.pure_def, bind_eq_bind, bind_eq_some_iff, some.injEq] at read
  obtain ⟨agg, isAgg, xmin, isXmin, rfl⟩ := read
  exact ⟨rfl, isAgg, isXmin⟩

theorem plainRow_of_reads {final : IndexTuple} (sameSize : final.size = tup.size)
    (readAgg : final.readIf info.leafHasAgg (tup.nonPivotAggPtr info) info.aggTyplen.toInt =
      some agg) (readXmin : final.read tup.nonPivotXminPtr 4 = some xmin) :
    final.plainRow info = some ⟨final.tTid, agg, xmin⟩ := by
  have aggPtr : final.nonPivotAggPtr info = tup.nonPivotAggPtr info := by
    rw [nonPivotAggPtr, nonPivotAggPtr, sameSize]
  have xminPtr : final.nonPivotXminPtr = tup.nonPivotXminPtr := by
    rw [nonPivotXminPtr, nonPivotXminPtr, sameSize]
  rw [plainRow, aggPtr, xminPtr, readAgg, readXmin]
  rfl

theorem isPosting_of_plain (plain : tup.altTid = false) : tup.isPosting = false := by
  rw [isPosting, plain, Bool.false_and]

theorem leafRows_plain (plain : tup.altTid = false) :
    tup.leafRows info = some [row] ↔ tup.plainRow info = some row := by
  rw [leafRows, isPosting_of_plain plain, if_neg Bool.noConfusion]
  constructor
  · intro mapped
    obtain ⟨other, read, same⟩ := map_eq_some_iff.mp mapped
    rw [read, head_eq_of_cons_eq same]
  · intro read
    rw [read]
    rfl

theorem readIf_congr {off length : Int} (same : second.read off length = first.read off length) :
    second.readIf kept off length = first.readIf kept off length := by
  unfold readIf
  rw [same]

theorem readIf_cell (same : Bytes.SameOutside first.read second.read low high) {count : Nat}
    (positive : 0 ≤ stride) (narrow : width ≤ stride)
    (apart : kept → base + stride * count ≤ low ∨ high ≤ base) (inside : place < count) :
    second.readIf kept (base + stride * place) width =
      first.readIf kept (base + stride * place) width := by
  cases kept with
  | false => rfl
  | true => exact readIf_congr (same.cell positive narrow (apart rfl) inside)

theorem leafRows_of_inserted (posting : first.isPosting) (layout : second.SameLayout first)
    (read : first.leafRows info = some rows) (inside : postingoff < first.nPosting)
    (tids : Bytes.Inserted first.read second.read first.postingOffset 6 6 first.nPosting
      postingoff new.tid.toBytes)
    (aggs : Bytes.Inserted (first.readIf info.leafHasAgg) (second.readIf info.leafHasAgg)
      first.postingAggPtr info.aggStride.toInt info.aggTyplen.toInt first.nPosting postingoff
      new.agg)
    (xmins : Bytes.Inserted first.read second.read first.postingXminPtr 4 4 first.nPosting
      postingoff new.xmin) :
    second.leafRows info = some (rows.insertIdx postingoff new).dropLast := by
  obtain ⟨length, es⟩ := (leafRows_posting posting).mp read
  have posting' : second.isPosting := by
    rw [isPosting, layout.altTid, layout.tTid]
    exact posting
  have count : second.nPosting = first.nPosting := by rw [nPosting, nPosting, layout.tTid]
  have off : second.postingOffset = first.postingOffset := by
    rw [postingOffset, postingOffset, layout.tTid]
  have aggPtr : second.postingAggPtr = first.postingAggPtr := by
    rw [postingAggPtr, postingAggPtr, off, count]
  have xminPtr : second.postingXminPtr = first.postingXminPtr := by
    rw [postingXminPtr, postingXminPtr, count, size, size, layout.length]
  have newLength : (rows.insertIdx postingoff new).length = rows.length + 1 :=
    length_insertIdx_of_le_length (by omega) new
  rw [leafRows_posting posting']
  refine ⟨by rw [length_dropLast, newLength, count]; omega, fun i below => ?_⟩
  rw [count] at below
  have tid := tids i below
  have agg := aggs i below
  have xmin := xmins i below
  rw [getElem?_dropLast, if_pos (by omega), getElem?_insertIdx, postingRow, postingN,
    aggPtr, xminPtr, off, tid, agg, xmin]
  by_cases pre : i < postingoff
  · rw [if_pos pre, if_pos pre, if_pos pre, if_pos pre, ← es i below]
    rfl
  · rw [if_neg pre, if_neg pre, if_neg pre, if_neg pre]
    by_cases here : i = postingoff
    · rw [if_pos here, if_pos here, if_pos here, if_pos here, if_pos (by omega)]
      have whole := ofBytes_toBytes new.tid []
      rw [append_nil] at whole
      simp only [bind_eq_bind, bind_some, Option.pure_def, whole]
    · rw [if_neg here, if_neg here, if_neg here, if_neg here, ← es (i - 1) (by omega)]
      rfl

end IndexTuple

/-- What a posting list split does: the list takes the new row in and loses its last one, and the
new item becomes the last row, but with the transaction id of the row at the place of the split. -/
theorem swapPosting_rows
    (strided : info.Strided) (newIsItem : newitem.IsLeafItem info) (plain : newitem.altTid = false)
    (isItem : oposting.IsLeafItem info) (posting : oposting.isPosting)
    (readRows : oposting.leafRows info = some rows) (readNew : newitem.leafRows info = some [new])
    (isReplaced : rows[postingoff]? = some replaced) (isLast : rows.getLast? = some last) :
    ∃ nposting final, swapPosting info newitem oposting postingoff = some (nposting, final) ∧
      nposting.leafRows info = some (rows.insertIdx postingoff new).dropLast ∧
      final.leafRows info = some [⟨last.tid, last.agg, replaced.xmin⟩] := by
  have room := isItem.postingRoom posting
  have start := room.start
  have afterTids := room.aggs
  have afterAggs := room.xmins
  have xminsEnd := room.total
  have notPosting := isPosting_of_plain plain
  obtain ⟨length, es⟩ := (leafRows_posting posting).mp readRows
  have inside : postingoff < oposting.nPosting := by
    rw [← length]
    exact (List.getElem?_eq_some_iff.mp isReplaced).1
  have stridePositive : 0 ≤ info.aggStride.toInt := le_trans strided.1 strided.2
  have aggsPositive : 0 ≤ if info.leafHasAgg then
      info.aggStride.toInt * oposting.nPosting else 0 := by
    split
    · exact Int.mul_nonneg stridePositive (by omega)
    · exact le_refl 0
  have lastEntry : oposting.postingRow info (oposting.nPosting - 1) = some last := by
    rw [es _ (by omega), ← length, ← getLast?_eq_getElem?]
    exact isLast
  obtain ⟨lastTid, readLastTid, isLastTid, readLastAgg, -⟩ := postingRow_cases lastEntry
  obtain ⟨-, -, -, -, readReplaced⟩ := postingRow_cases ((es postingoff inside).trans isReplaced)
  obtain ⟨newTid, readNewAgg, readNewXmin⟩ := plainRow_cases ((leafRows_plain plain).mp readNew)
  have lastPlace : ((oposting.nPosting - 1 : Nat) : Int) = oposting.nPosting - 1 := by omega
  rw [lastPlace] at readLastTid readLastAgg
  -- the heap pointers
  obtain ⟨moved, data₁, isMoved, isWritten, length₁, tids, same₁⟩ :=
    oposting.exists_inserted (by omega : (8 : Int) ≤ oposting.postingOffset) (le_refl (6 : Int))
      (by rw [ItemPointer.length_toBytes]; rfl : (newitem.tTid.toBytes.length : Int) = 6)
      (by omega) inside
  -- the aggregates
  obtain ⟨data₂, newData₂, isAggs, length₂, newLength₂, aggs, same₂, newAgg₂, newXmin₂⟩ :=
    swapAggs_inserted { newitem with tTid := ofBytes lastTid } strided room length₁
      inside (newIsItem.plainRoom notPosting) readNewAgg readLastAgg
  -- the transaction ids
  have newPtr₂ : (withData { newitem with tTid := ofBytes lastTid }
      newData₂).nonPivotXminPtr = newitem.nonPivotXminPtr := by
    exact congrArg (fun count : Nat => ((8 + count : Nat) : Int) - 4) newLength₂
  obtain ⟨data₃, newData₃, isXmins, length₃, newLength₃, xmins, same₃, newXmin₃, newSame₃⟩ :=
    swapXmins_inserted (withData { newitem with tTid := ofBytes lastTid }
      newData₂) room aggsPositive length₂ inside
      (by rw [newPtr₂]; exact newIsItem.plainXmin notPosting strided)
      (by rw [newPtr₂]; exact newXmin₂.trans readNewXmin) readReplaced
  rw [newPtr₂] at newXmin₃ newSame₃
  have sameSize₃ : (withData { newitem with tTid := ofBytes lastTid }
      newData₃).size = newitem.size := by
    exact congrArg (8 + ·) (newLength₃.trans newLength₂)
  refine ⟨oposting.withData data₃, withData
    { newitem with tTid := ofBytes lastTid } newData₃, ?_, ?_, ?_⟩
  · have maxTid : oposting.maxHeapTid = some (ofBytes lastTid) := by
      rw [maxHeapTid, if_pos posting, postingN, readLastTid]
      rfl
    simp only [swapPosting, bind_eq_bind, postingN]
    rw [isMoved, bind_some]
    change (write _ (oposting.postingOffset + _) _).bind _ = _
    rw [isWritten, bind_some, maxTid, bind_some, isAggs, bind_some]
    exact isXmins
  · refine leafRows_of_inserted posting ⟨rfl, rfl, rfl, rfl, length₃⟩ readRows inside ?_ ?_ ?_
    · rw [newTid]
      refine tids.between (fun _ _ => rfl) fun place below => ?_
      exact (same₂.trans same₃).cell (by decide) (le_refl 6) (by omega) below
    · refine aggs.between (fun place below => ?_) fun place below => ?_
      · refine readIf_cell same₁ stridePositive strided.2 (fun _ => ?_) below
        exact .inr afterTids
      · refine readIf_cell same₃ stridePositive strided.2 (fun has => ?_) below
        rw [if_pos has] at afterAggs
        exact .inl afterAggs
    · refine xmins.between (fun place below => ?_) fun _ _ => rfl
      exact (same₁.trans same₂).cell (by decide) (le_refl 4) (by omega) below
  · have keptAgg : (withData { newitem with tTid := ofBytes lastTid }
        newData₃).readIf info.leafHasAgg (newitem.nonPivotAggPtr info) info.aggTyplen.toInt =
          some last.agg := by
      rw [← newAgg₂]
      cases has : info.leafHasAgg with
      | false => rfl
      | true => exact readIf_congr (newSame₃ _ _ (.inl (newIsItem.plainRoom notPosting has).2))
    have finalPlain : (withData { newitem with tTid := ofBytes lastTid }
        newData₃).altTid = false := plain
    rw [isLastTid]
    exact (leafRows_plain finalPlain).mpr (plainRow_of_reads sameSize₃ keptAgg newXmin₃)

/-- The place of the new heap pointer among those of a posting list. -/
def FallsAt (rows : List Row) (new : Row) (postingoff : Nat) : Prop :=
  (∀ row ∈ rows.take postingoff, row.tid.Before new.tid) ∧
    ∀ row ∈ rows.drop postingoff, new.tid.Before row.tid
  deriving Decidable

def TidsIncreasing (rows : List Row) : Prop :=
  rows.Pairwise fun first second => first.tid.Before second.tid
  deriving Decidable

def KeepsRows (info : AggInfo) (rows : List Row) (new : Row) (nposting final : IndexTuple) : Prop :=
  ∃ rows' last, nposting.leafRows info = some rows' ∧ final.leafRows info = some [last] ∧
    (rows' ++ [last]).Perm (rows ++ [new]) ∧ TidsIncreasing (rows' ++ [last])

theorem insertIdx_eq (value : α) {values : List α} (inside : place ≤ values.length) :
    values.insertIdx place value = values.take place ++ value :: values.drop place := by
  induction place generalizing values with
  | zero => rfl
  | succ place ih =>
    cases values with
    | nil => cases inside
    | cons first rest =>
      rw [insertIdx_succ_cons, ih (Nat.le_of_succ_le_succ inside)]
      rfl

theorem tidsIncreasing_insertIdx
    (sorted : TidsIncreasing rows) (inside : postingoff ≤ rows.length) :
    TidsIncreasing (rows.insertIdx postingoff new) ↔ FallsAt rows new postingoff := by
  have parts : TidsIncreasing (rows.take postingoff ++ rows.drop postingoff) := by
    rw [take_append_drop]
    exact sorted
  obtain ⟨left, right, across⟩ := pairwise_append.mp parts
  rw [insertIdx_eq new inside, TidsIncreasing, pairwise_append, pairwise_cons]
  constructor
  · rintro ⟨-, ⟨behind, -⟩, pre⟩
    exact ⟨fun row mem => pre row mem new mem_cons_self, behind⟩
  · rintro ⟨pre, behind⟩
    refine ⟨left, ⟨behind, right⟩, fun first isFirst second isSecond => ?_⟩
    rcases mem_cons.mp isSecond with rfl | isSecond
    · exact pre first isFirst
    · exact across first isFirst second isSecond

theorem dropLast_insertIdx (new : Row)
    (inside : postingoff < rows.length) (isLast : rows.getLast? = some last) :
    (rows.insertIdx postingoff new).dropLast ++ [last] = rows.insertIdx postingoff new := by
  apply dropLast_append_getLast?
  have rest : rows.drop postingoff ≠ [] := by
    rw [Ne, drop_eq_nil_iff]
    omega
  rw [insertIdx_eq new (inside.le), getLast?_append_of_ne_nil _ (by simp),
    getLast?_cons_of_ne_nil rest, getLast?_drop, if_neg (by omega), isLast]
  rfl

/-- A posting list split keeps all rows exactly if the new heap pointer belongs at the place of the
split and the row there has the transaction id of the last row. -/
theorem swapPosting_keepsRows_iff {info : AggInfo} {newitem oposting : IndexTuple}
    {postingoff : Nat} {rows : List Row} {new : Row} (strided : info.Strided)
    (newIsItem : newitem.IsLeafItem info) (plain : newitem.altTid = false)
    (isItem : oposting.IsLeafItem info) (posting : oposting.isPosting = true)
    (readRows : oposting.leafRows info = some rows) (readNew : newitem.leafRows info = some [new])
    (sorted : TidsIncreasing rows) (inside : postingoff < oposting.nPosting) :
    ∃ nposting final, swapPosting info newitem oposting postingoff = some (nposting, final) ∧
      (KeepsRows info rows new nposting final ↔ FallsAt rows new postingoff ∧
          rows[postingoff]?.map Row.xmin = rows.getLast?.map Row.xmin) := by
  obtain ⟨length, -⟩ := (IndexTuple.leafRows_posting posting).mp readRows
  have inside' : postingoff < rows.length := by omega
  obtain ⟨last, isLast⟩ : ∃ last, rows.getLast? = some last :=
    ⟨_, List.getLast?_eq_some_getLast (ne_nil_of_length_pos (by omega))⟩
  have isReplaced := List.getElem?_eq_getElem inside'
  obtain ⟨nposting, final, swapped, listRows, finalRows⟩ :=
    swapPosting_rows strided newIsItem plain isItem posting readRows readNew isReplaced isLast
  refine ⟨nposting, final, swapped, ?_⟩
  have whole := dropLast_insertIdx new inside' isLast
  have perm : (rows ++ [new]).Perm (rows.insertIdx postingoff new) :=
    (perm_append_singleton new rows).trans (perm_insertIdx new rows (inside'.le)).symm
  rw [isReplaced, isLast, map_some, map_some, Option.some.injEq,
    ← tidsIncreasing_insertIdx sorted (inside'.le), ← whole]
  rw [← whole] at perm
  constructor
  · rintro ⟨rows', last', isRows, isLast', permuted, increasing⟩
    cases listRows.symm.trans isRows
    cases finalRows.symm.trans isLast'
    have same := singleton_perm_singleton.mp
      ((perm_append_left_iff _).mp (permuted.trans perm))
    rw [← same]
    exact ⟨increasing, rfl⟩
  · rintro ⟨increasing, sameXmin⟩
    refine ⟨_, _, listRows, finalRows, ?_, ?_⟩
    · rw [sameXmin]
      exact perm.symm
    · rw [sameXmin]
      exact increasing

/-- An index on `int4` values, with aggregates on the leaf level. -/
def int4Info : AggInfo := ⟨true, 4, 4⟩

/-- A posting tuple for three rows of one heap page, with the given transaction ids. -/
def threeRows (first second third : Nat) : IndexTuple :=
  setPosting
    { tTid := ⟨0, 0⟩
      altTid := true
      hasVarwidths := false
      hasNulls := false
      data := Bytes.ofNat 8 77 ++
        ((mk 5 1).toBytes ++ (mk 5 3).toBytes ++
          (mk 5 4).toBytes ++ Bytes.ofNat 6 0) ++
        (Bytes.ofArray 4 [10, 30, 40] ++ Bytes.ofNat 4 0) ++
        (Bytes.ofNat 4 0 ++ Bytes.ofArray 4 [first, second, third]) } 3 16

def oneRow : IndexTuple where
  tTid := ⟨5, 2⟩
  altTid := false
  hasVarwidths := false
  hasNulls := false
  data := Bytes.ofNat 8 77 ++ (Bytes.ofNat 4 20 ++ Bytes.ofNat 4 902)

def oneRowRow : Row := ⟨⟨5, 2⟩, Bytes.ofNat 4 20, Bytes.ofNat 4 902⟩

def threeRowsRows (first second third : Nat) : List Row :=
  [⟨⟨5, 1⟩, Bytes.ofNat 4 10, Bytes.ofNat 4 first⟩,
    ⟨⟨5, 3⟩, Bytes.ofNat 4 30, Bytes.ofNat 4 second⟩,
    ⟨⟨5, 4⟩, Bytes.ofNat 4 40, Bytes.ofNat 4 third⟩]

/-- If the second and the third row are of one transaction, a new row at the second place keeps
all rows. -/
theorem swapPosting_keepsRows_of_one_xmin : ∃ nposting final,
      swapPosting int4Info oneRow (threeRows 901 904 904) 1 = some (nposting, final) ∧
        KeepsRows int4Info (threeRowsRows 901 904 904) oneRowRow nposting final := by
  obtain ⟨nposting, final, swapped, keeps⟩ :=
    swapPosting_keepsRows_iff (by decide : int4Info.Strided)
      (by decide +kernel : oneRow.IsLeafItem int4Info) rfl
      (by decide +kernel : (threeRows 901 904 904).IsLeafItem int4Info) (by decide +kernel)
      (by decide +kernel :
        (threeRows 901 904 904).leafRows int4Info = some (threeRowsRows 901 904 904))
      (by decide +kernel : oneRow.leafRows int4Info = some [oneRowRow])
      (by decide +kernel) (by decide +kernel : 1 < (threeRows 901 904 904).nPosting)
  exact ⟨nposting, final, swapped, keeps.mpr (by decide +kernel)⟩

/-- The three rows were inserted by three transactions.  The new row comes in at the second place,
where it belongs, and the row that is moved out gets the transaction id of the second row. -/
theorem swapPosting_mixes_xmins : FallsAt (threeRowsRows 901 903 904) oneRowRow 1 ∧
      ∃ nposting final,
        swapPosting int4Info oneRow (threeRows 901 903 904) 1 = some (nposting, final) ∧
          final.leafRows int4Info = some [⟨⟨5, 4⟩, Bytes.ofNat 4 40, Bytes.ofNat 4 903⟩] ∧
          ¬ KeepsRows int4Info (threeRowsRows 901 903 904) oneRowRow nposting final := by
  refine ⟨by decide +kernel, ?_⟩
  obtain ⟨nposting, final, swapped, -, finalRows⟩ :=
    swapPosting_rows (by decide : int4Info.Strided)
      (by decide +kernel : oneRow.IsLeafItem int4Info) rfl
      (by decide +kernel : (threeRows 901 903 904).IsLeafItem int4Info) (by decide +kernel)
      (by decide +kernel :
        (threeRows 901 903 904).leafRows int4Info = some (threeRowsRows 901 903 904))
      (by decide +kernel : oneRow.leafRows int4Info = some [oneRowRow])
      (rfl : (threeRowsRows 901 903 904)[1]? = some _) rfl
  refine ⟨nposting, final, swapped, finalRows, ?_⟩
  rintro ⟨rows, last, -, isLast, permuted, -⟩
  cases finalRows.symm.trans isLast
  have mem := permuted.mem_iff.mp (mem_append_right rows (mem_singleton_self _))
  revert mem
  decide +kernel

end PgAqp.Abtree
