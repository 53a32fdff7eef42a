import Mathlib.Tactic.Ring
import PgAqp.Library.Bytes

/-!
# Index tuples

A header with an item pointer and the size, and the bytes that follow it.  Three formats
share the header: plain leaf tuples, posting tuples, and pivots.
-/

namespace PgAqp.Abtree

open Library List Option Bytes

/-- `TYPEALIGN`. -/
def typealign (alignval length : Int) : Int :=
  (length + (alignval - 1)) / alignval * alignval

/-- `MAXALIGN`. -/
def maxalign (length : Int) : Int := typealign 8 length

/-- `INTALIGN`. -/
def intalign (length : Int) : Int := typealign 4 length

/-- `SHORTALIGN`. -/
def shortalign (length : Int) : Int := typealign 2 length

theorem maxalign_of_dvd {length : Nat} (aligned : 8 ∣ length) :
    (maxalign length).toNat = length := by
  unfold maxalign typealign
  omega

/-- `ItemPointerData`. -/
structure ItemPointer where
  block : UInt32
  offset : UInt16
  deriving DecidableEq, Repr

namespace ItemPointer

/-- The two halves of the block number, the high one first, and the offset number. -/
def toBytes (pointer : ItemPointer) : Bytes :=
  ofNat 2 (pointer.block.toNat / 65536) ++
    (ofNat 2 pointer.block.toNat ++ ofNat 2 pointer.offset.toNat)

def ofBytes (bytes : Bytes) : ItemPointer where
  block := UInt32.ofNat (65536 * toNat (bytes.take 2) + toNat ((bytes.drop 2).take 2))
  offset := UInt16.ofNat (toNat ((bytes.drop 4).take 2))

@[simp] theorem length_toBytes (pointer : ItemPointer) : pointer.toBytes.length = 6 := by
  simp [toBytes]

theorem ofBytes_toBytes (pointer : ItemPointer) (rest : Bytes) :
    ofBytes (pointer.toBytes ++ rest) = pointer := by
  have high : pointer.block.toNat / 65536 < 256 ^ 2 := by
    have bound := pointer.block.toNat_lt
    omega
  have off : pointer.offset.toNat < 256 ^ 2 := pointer.offset.toNat_lt
  have first : (pointer.toBytes ++ rest).take 2 = ofNat 2 (pointer.block.toNat / 65536) := by
    rw [toBytes, append_assoc, take_left' (by simp)]
  have second : ((pointer.toBytes ++ rest).drop 2).take 2 = ofNat 2 pointer.block.toNat := by
    rw [toBytes, append_assoc, drop_left' (by simp), append_assoc, take_left' (by simp)]
  have third : ((pointer.toBytes ++ rest).drop 4).take 2 = ofNat 2 pointer.offset.toNat := by
    rw [toBytes, ← append_assoc, append_assoc, drop_left' (by simp), take_left' (by simp)]
  have value : 65536 * (pointer.block.toNat / 65536) + pointer.block.toNat % 256 ^ 2 =
      pointer.block.toNat := Nat.div_add_mod pointer.block.toNat 65536
  unfold ofBytes
  rw [first, second, third, toNat_ofNat_of_lt high, toNat_ofNat, value,
    toNat_ofNat_of_lt off, UInt32.ofNat_toNat, UInt16.ofNat_toNat]

end ItemPointer

/-- What the tuple format depends on in `ABTCachedAggInfoData`. -/
structure AggInfo where
  leafHasAgg : Bool
  aggTyplen : Int16
  aggStride : Int16
  deriving DecidableEq, Repr

namespace AggInfo

/-! The three sizes that `_abt_compute_tuple_offsets` stores. -/

def extraSpaceWhenTidMissing (info : AggInfo) : Int :=
  maxalign (intalign info.aggTyplen.toInt + 2)

def extraSpaceWhenTidPresent (info : AggInfo) : Int :=
  maxalign (intalign info.aggTyplen.toInt + shortalign 2 + 6)

def extraSpaceForNonpivotTuple (info : AggInfo) : Int :=
  if info.leafHasAgg then maxalign (intalign info.aggTyplen.toInt + 4) else maxalign 4

end AggInfo

/-- `IndexTupleData` with the bytes after it. -/
structure IndexTuple where
  tTid : ItemPointer
  /-- `INDEX_ALT_TID_MASK` in `t_info`. -/
  altTid : Bool
  /-- `INDEX_VAR_MASK`. -/
  hasVarwidths : Bool
  /-- `INDEX_NULL_MASK`. -/
  hasNulls : Bool
  data : Bytes
  deriving DecidableEq, Repr

namespace IndexTuple

variable (tup : IndexTuple) (info : AggInfo)

/-- `IndexTupleSize`. -/
def size : Nat := 8 + tup.data.length

/-- The size is a multiple of the alignment and fits into its bits of `t_info`. -/
structure Sized (tup : IndexTuple) : Prop where
  aligned : 8 ∣ tup.data.length
  small : tup.size < 8192

instance (tup : IndexTuple) : Decidable tup.Sized :=
  decidable_of_iff (8 ∣ tup.data.length ∧ tup.size < 8192)
    ⟨fun both => ⟨both.1, both.2⟩, fun sized => ⟨sized.aligned, sized.small⟩⟩

/-- `t_info`. -/
def tInfo : Nat :=
  tup.size + 8192 * tup.altTid.toNat + 16384 * tup.hasVarwidths.toNat +
    32768 * tup.hasNulls.toNat

/-- The tuple as it is stored on a page and in a log record. -/
def toBytes : Bytes :=
  tup.tTid.toBytes ++ (ofNat 2 tup.tInfo ++ tup.data)

def take (bytes : Bytes) : IndexTuple × Bytes :=
  let info := toNat ((bytes.drop 6).take 2)
  let itemsz := (maxalign (info % 8192 : Nat)).toNat
  ({ tTid := ItemPointer.ofBytes bytes
     altTid := info / 8192 % 2 == 1
     hasVarwidths := info / 16384 % 2 == 1
     hasNulls := info / 32768 % 2 == 1
     data := (bytes.drop 8).take (itemsz - 8) },
   bytes.drop itemsz)

@[simp] theorem length_toBytes : tup.toBytes.length = tup.size := by
  simp only [toBytes, length_append, ItemPointer.length_toBytes, length_ofNat, size]
  omega

/-- One flag of `t_info`, between what is below and what is above it. -/
theorem flag_of_parts (below : low < unit) (flag : Bool) (high : Nat) :
    ((low + unit * flag.toNat + 2 * unit * high) / unit % 2 == 1) = flag := by
  have parts : low + unit * flag.toNat + 2 * unit * high =
      low + unit * (flag.toNat + 2 * high) := by ring
  have quotient : (low + unit * (flag.toNat + 2 * high)) / unit = flag.toNat + 2 * high := by
    rw [Nat.add_mul_div_left _ _ (by omega), Nat.div_eq_of_lt below, Nat.zero_add]
  rw [parts, quotient, Nat.add_mul_mod_self_left]
  cases flag with
  | false => rfl
  | true => rfl

/-- A stored tuple is read back, and the reader then stands behind it. -/
theorem take_toBytes {tup : IndexTuple} (sized : tup.Sized) (rest : Bytes) :
    take (tup.toBytes ++ rest) = (tup, rest) := by
  have small := sized.small
  have alt : tup.altTid.toNat ≤ 1 := tup.altTid.toNat_le
  have varwidths : tup.hasVarwidths.toNat ≤ 1 := tup.hasVarwidths.toNat_le
  have nulls : tup.hasNulls.toNat ≤ 1 := tup.hasNulls.toNat_le
  have bits : ((tup.toBytes ++ rest).drop 6).take 2 = ofNat 2 tup.tInfo := by
    rw [toBytes, append_assoc, drop_left' (by simp), append_assoc, take_left' (by simp)]
  have value : toNat (((tup.toBytes ++ rest).drop 6).take 2) = tup.tInfo := by
    rw [bits]
    apply toNat_ofNat_of_lt
    unfold tInfo
    omega
  have total : (maxalign (tup.tInfo % 8192 : Nat)).toNat = tup.size := by
    have length : tup.tInfo % 8192 = tup.size := by
      unfold tInfo
      omega
    rw [length]
    exact maxalign_of_dvd ((Nat.dvd_add_right (dvd_refl 8)).mpr sized.aligned)
  have header : ItemPointer.ofBytes (tup.toBytes ++ rest) = tup.tTid := by
    exact ItemPointer.ofBytes_toBytes tup.tTid _
  have body : ((tup.toBytes ++ rest).drop 8).take (tup.size - 8) = tup.data := by
    rw [toBytes, ← append_assoc, append_assoc, drop_left' (by simp), take_left' (by simp [size])]
  have behind : (tup.toBytes ++ rest).drop tup.size = rest := drop_left' tup.length_toBytes
  have altBit : (tup.tInfo / 8192 % 2 == 1) = tup.altTid := by
    have parts := flag_of_parts small tup.altTid (tup.hasVarwidths.toNat + 2 * tup.hasNulls.toNat)
    rw [← parts, tInfo]
    exact congrArg (fun info => info / 8192 % 2 == 1) (by omega)
  have varBit : (tup.tInfo / 16384 % 2 == 1) = tup.hasVarwidths :=
    flag_of_parts (by omega : tup.size + 8192 * tup.altTid.toNat < 16384)
      tup.hasVarwidths tup.hasNulls.toNat
  have nullBit : (tup.tInfo / 32768 % 2 == 1) = tup.hasNulls :=
    flag_of_parts
      (by omega : tup.size + 8192 * tup.altTid.toNat + 16384 * tup.hasVarwidths.toNat < 32768)
      tup.hasNulls 0
  unfold take
  simp only [value, total, header, body, behind, altBit, varBit, nullBit]

/-- `ABTreeTupleIsPosting`. -/
def isPosting : Bool :=
  tup.altTid && decide (tup.tTid.offset &&& 0x2000 ≠ 0)

/-- `ABTreeTupleIsPivot`. -/
def isPivot : Bool :=
  tup.altTid && decide (tup.tTid.offset &&& 0x2000 = 0)

/-- `ABTreeTupleGetNPosting`. -/
def nPosting : Nat := (tup.tTid.offset &&& 0x0FFF).toNat

theorem nPosting_lt : tup.nPosting < 4096 := by
  have masked : tup.nPosting = tup.tTid.offset.toNat &&& 4095 := by rfl
  exact Nat.and_le_right.trans_lt (by decide)

/-- `ABTreeTupleGetPostingOffset`. -/
def postingOffset : Nat := tup.tTid.block.toNat

/-- `ABTreeTupleGetPostingN`, as an offset inside the tuple. -/
def postingN (n : Int) : Int := tup.postingOffset + 6 * n

/-- `ABTPivotTupleHasHeapTID`. -/
def pivotHasHeapTid : Bool :=
  decide (tup.tTid.offset &&& 0x1000 ≠ 0)

/-- `ABTreeNonPivotTupleGetAggPtr`. -/
def nonPivotAggPtr : Int :=
  tup.size - info.extraSpaceForNonpivotTuple

/-- `ABTreePostingTupleGetAggPtr`. -/
def postingAggPtr : Int :=
  maxalign (tup.postingOffset + 6 * tup.nPosting)

/-- `ABTreePivotTupleGetAggPtr`. -/
def pivotAggPtr : Int :=
  if tup.pivotHasHeapTid then tup.size - info.extraSpaceWhenTidPresent
  else tup.size - info.extraSpaceWhenTidMissing

/-- `ABTreeTupleGetAggPtr`. -/
def aggPtr : Int :=
  if tup.altTid = false then tup.nonPivotAggPtr info
  else if tup.isPosting then tup.postingAggPtr
  else tup.pivotAggPtr info

/-- `ABTreeNonPivotTupleGetXminPtr`. -/
def nonPivotXminPtr : Int := tup.size - 4

/-- `ABTreePostingTupleGetXminPtr`. -/
def postingXminPtr : Int := tup.size - 4 * tup.nPosting

/-- `ABTreeTupleGetLastUpdateIdPtr`. -/
def lastUpdateIdPtr : Int :=
  if tup.pivotHasHeapTid then tup.size - 2 - shortalign 6 else tup.size - 2

/-- `ABTreeTupleGetDownLink`. -/
def downLink : UInt32 := tup.tTid.block

/-- `ABTreeTupleSetDownLink`. -/
def setDownLink (blkno : UInt32) : IndexTuple :=
  { tup with tTid := ⟨blkno, tup.tTid.offset⟩ }

def read (off length : Int) : Option Bytes :=
  tup.data.read (off - 8) length

def write (off : Int) (source : Bytes) : Option IndexTuple :=
  (tup.data.write (off - 8) source).map fun data => { tup with data := data }

/-- `memmove` inside a tuple. -/
def move (target source length : Int) : Option IndexTuple :=
  (tup.data.move (target - 8) (source - 8) length).map fun data => { tup with data := data }

/-- `ABTreeTupleSetNAtts`. -/
def setNAtts (nkeyatts : UInt16) (heaptid : Bool) : IndexTuple :=
  { tup with
    altTid := true
    tTid := ⟨tup.tTid.block, if heaptid then nkeyatts ||| 0x1000 else nkeyatts⟩ }

/-- `ABTreeTupleSetPosting`. -/
def setPosting (nhtids postingoffset : Nat) : IndexTuple :=
  { tup with
    altTid := true
    tTid := ⟨UInt32.ofNat postingoffset, UInt16.ofNat nhtids ||| 0x2000⟩ }

/-- `_abt_set_pivot_tuple_aggregation_value`, with the bytes that the value is stored as. -/
def setPivotAggregationValue (value : Bytes) (info : AggInfo) : Option IndexTuple :=
  tup.write (tup.pivotAggPtr info) value

/-- Cut or extend the data to a size, with zeros. -/
def resize (keep newsize : Int) : IndexTuple :=
  let kept := tup.data.take (keep - 8).toNat
  { tup with data := kept ++ replicate ((newsize - 8).toNat - kept.length) 0 }

/-- `_abt_pivot_tuple_purge_agg_space`. -/
def purgeAggSpace : Option IndexTuple :=
  if tup.pivotHasHeapTid then
    let keep := tup.size - info.extraSpaceWhenTidPresent
    let newsize := maxalign (keep + 6)
    if keep < 8 then none
    else (tup.read (tup.size - 6) 6).bind ((tup.resize keep newsize).write (newsize - 6))
  else
    let newsize := tup.size - info.extraSpaceWhenTidMissing
    if newsize < 8 then none else some (tup.resize newsize newsize)

/-- `_abt_pivot_tuple_reserve_agg_space`.  Without a heap TID the copy has the new size, and takes
the bytes that stand behind the tuple along. -/
def reserveAggSpace (behind : Bytes) : Option IndexTuple :=
  if tup.pivotHasHeapTid then
    let keep := ((tup.size - 6 : Int) / 8) * 8
    let newsize := keep + info.extraSpaceWhenTidPresent
    if keep < 8 then none
    else (tup.read (tup.size - 6) 6).bind ((tup.resize keep newsize).write (newsize - 6))
  else
    (behind.read 0 info.extraSpaceWhenTidMissing).map fun bytes =>
      { tup with data := tup.data ++ bytes }

/-- The tuple that `_abt_pgaddtup` makes of the first data item of an internal page: no key, but
the downlink and the aggregate. -/
def truncateFirst : Option IndexTuple :=
  let truncated : IndexTuple :=
    { tTid := tup.tTid
      altTid := false
      hasVarwidths := false
      hasNulls := false
      data := replicate info.extraSpaceWhenTidMissing.toNat 0 }
  let pivot := truncated.setNAtts 0 false
  (tup.read (tup.pivotAggPtr info) info.aggTyplen.toInt).bind
    (pivot.write (pivot.pivotAggPtr info))

structure SameLayout (first second : IndexTuple) : Prop where
  tTid : first.tTid = second.tTid
  altTid : first.altTid = second.altTid
  hasVarwidths : first.hasVarwidths = second.hasVarwidths
  hasNulls : first.hasNulls = second.hasNulls
  length : first.data.length = second.data.length

variable {first second : IndexTuple}

theorem SameLayout.trans (left : first.SameLayout second)
    (right : second.SameLayout third) : first.SameLayout third where
  tTid := left.tTid.trans right.tTid
  altTid := left.altTid.trans right.altTid
  hasVarwidths := left.hasVarwidths.trans right.hasVarwidths
  hasNulls := left.hasNulls.trans right.hasNulls
  length := left.length.trans right.length

theorem sized_of_length
    (length : first.data.length = second.data.length) (sized : second.Sized) : first.Sized := by
  have total : first.size = second.size := by rw [size, size, length]
  exact ⟨length ▸ sized.aligned, total ▸ sized.small⟩

theorem write_sameLayout {tup : IndexTuple}
    (written : tup.write off source = some res) : res.SameLayout tup := by
  obtain ⟨data, stored, rfl⟩ := map_eq_some_iff.mp written
  exact ⟨rfl, rfl, rfl, rfl, length_of_write stored⟩

theorem move_sameLayout {tup : IndexTuple} {target source length : Int}
    (moved : tup.move target source length = some res) : res.SameLayout tup := by
  obtain ⟨data, stored, rfl⟩ := map_eq_some_iff.mp moved
  exact ⟨rfl, rfl, rfl, rfl, length_of_move stored⟩

theorem read_of_setPivotAggregationValue {tup : IndexTuple} {info : AggInfo}
    (stored : tup.setPivotAggregationValue value info = some res) :
    res.read (res.pivotAggPtr info) value.length = some value := by
  have layout := write_sameLayout stored
  have place : res.pivotAggPtr info = tup.pivotAggPtr info := by
    rw [pivotAggPtr, pivotAggPtr, pivotHasHeapTid, pivotHasHeapTid, size, size, layout.tTid,
      layout.length]
  obtain ⟨data, written, rfl⟩ := map_eq_some_iff.mp stored
  rw [place]
  exact read_of_write written

theorem length_resize (bound : keep ≤ newsize) :
    (tup.resize keep newsize).data.length = (newsize - 8).toNat := by
  simp only [resize, length_append, length_take, length_replicate]
  omega

theorem extraSpaceWhenTidMissing_eq {info : AggInfo} (typlen : 0 ≤ info.aggTyplen.toInt) :
    ∃ extra : Nat, info.extraSpaceWhenTidMissing = 8 * extra + 8 := by
  refine ⟨(info.extraSpaceWhenTidMissing / 8 - 1).toNat, ?_⟩
  unfold AggInfo.extraSpaceWhenTidMissing maxalign intalign typealign
  omega

theorem extraSpaceWhenTidPresent_eq {info : AggInfo} (typlen : 0 ≤ info.aggTyplen.toInt) :
    ∃ extra : Nat, info.extraSpaceWhenTidPresent = 8 * extra + 8 := by
  refine ⟨(info.extraSpaceWhenTidPresent / 8 - 1).toNat, ?_⟩
  unfold AggInfo.extraSpaceWhenTidPresent maxalign intalign shortalign typealign
  omega

theorem reserveAggSpace_aligned {tup : IndexTuple} {info : AggInfo}
    (aligned : 8 ∣ tup.data.length) (typlen : 0 ≤ info.aggTyplen.toInt)
    (reserved : tup.reserveAggSpace info behind = some res) : 8 ∣ res.data.length := by
  obtain ⟨count, aligned⟩ := aligned
  obtain ⟨extra, present⟩ := extraSpaceWhenTidPresent_eq typlen
  obtain ⟨extra', missing⟩ := extraSpaceWhenTidMissing_eq typlen
  have total : tup.size = 8 + 8 * count := by rw [size, aligned]
  unfold reserveAggSpace at reserved
  split at reserved
  · dsimp only at reserved
    split at reserved
    · cases reserved
    · obtain ⟨tid, -, written⟩ := bind_eq_some_iff.mp reserved
      have length := (write_sameLayout written).length
      rw [length_resize _ (by omega), present, total] at length
      omega
  · obtain ⟨bytes, loaded, rfl⟩ := map_eq_some_iff.mp reserved
    have length := length_of_read loaded
    rw [length_append]
    omega

theorem purgeAggSpace_sized {tup : IndexTuple} {info : AggInfo} (sized : tup.Sized)
    (typlen : 0 ≤ info.aggTyplen.toInt) (purged : tup.purgeAggSpace info = some res) :
    res.Sized := by
  obtain ⟨count, aligned⟩ := sized.aligned
  have small := sized.small
  obtain ⟨extra, present⟩ := extraSpaceWhenTidPresent_eq typlen
  obtain ⟨extra', missing⟩ := extraSpaceWhenTidMissing_eq typlen
  have total : tup.size = 8 + 8 * count := by rw [size, aligned]
  unfold purgeAggSpace at purged
  split at purged
  · dsimp only at purged
    split at purged
    · cases purged
    · obtain ⟨tid, -, written⟩ := bind_eq_some_iff.mp purged
      have length := (write_sameLayout written).length
      rw [length_resize _ (by unfold maxalign typealign; omega), present, total] at length
      unfold maxalign typealign at length
      exact ⟨by omega, by rw [size]; omega⟩
  · dsimp only at purged
    split at purged
    · cases purged
    · cases purged
      have length := length_resize tup (le_refl (tup.size - info.extraSpaceWhenTidMissing))
      rw [missing, total] at length
      rw [missing, total]
      exact ⟨by omega, by rw [size]; omega⟩

end IndexTuple

end PgAqp.Abtree
