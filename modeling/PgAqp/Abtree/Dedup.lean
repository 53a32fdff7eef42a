import PgAqp.Abtree.Page
import PgAqp.Abtree.Posting

/-!
# Merging duplicates into posting lists

Deduplication goes over the items of a leaf page in their order.  An item starts a pending
posting list or is merged into the one that is pending.  A pending list of one item is put
on the new page as it was, a longer one as a new posting tuple with its interval of items.
-/

namespace PgAqp.Abtree

open Library List Option IndexTuple UInt16

/-- `MAXALIGN_DOWN`. -/
def maxalignDown (length : Int) : Int := length / 8 * 8

/-- `ABTMaxItemSize`. -/
def maxItemSize (info : AggInfo) : Int :=
  maxalignDown ((8192 - maxalign 24 - maxalign (3 * 4) - 3 * info.extraSpaceWhenTidPresent -
    maxalign 24) / 3)

/-- `ABTMaxItemSizeNoAgg`. -/
def maxItemSizeNoAgg : Int :=
  maxalignDown ((8192 - maxalign 24 - maxalign (3 * 4) - maxalign (3 * 6) - maxalign 24) / 3)

/-- `_abt_form_posting`, with the heap pointers as they are stored. -/
def formPosting (info : AggInfo) (base : IndexTuple) (htids : Bytes) (nhtids : Nat) :
    Option IndexTuple :=
  let keysize := if base.isPosting then base.postingOffset else base.size
  let newsize := postingSize info keysize nhtids
  if 8 ≤ keysize ∧ keysize ≤ base.size ∧ keysize ≤ newsize ∧ newsize < 8192 then
    let key := base.data.take (keysize - 8)
    let copy := { base with data := key ++ replicate (newsize.toNat - 8 - key.length) 0 }
    if nhtids > 1 then
      let posting := copy.setPosting nhtids keysize
      posting.write (posting.postingN 0) htids
    else some { copy with altTid := false, tTid := ItemPointer.ofBytes htids }
  else none

/-- `ABTDedupInterval`. -/
structure DedupInterval where
  baseoff : Nat
  nitems : Nat
  deriving DecidableEq, Repr

/-- The parts of leaf tuples that a posting list takes over, as they are stored. -/
structure LeafParts where
  htids : Bytes
  aggs : Bytes
  xmins : Bytes
  nhtids : Nat
  deriving DecidableEq, Repr

namespace LeafParts

def empty : LeafParts := ⟨[], [], [], 0⟩

/-- Copy more heap pointers, and what belongs to them, behind those in the arrays. -/
def append (first second : LeafParts) : LeafParts where
  htids := first.htids ++ second.htids
  aggs := first.aggs ++ second.aggs
  xmins := first.xmins ++ second.xmins
  nhtids := first.nhtids + second.nhtids

end LeafParts

structure ArraySizes where
  htids : Int
  aggs : Int
  xmins : Int
  deriving DecidableEq, Repr

/-- Nothing is copied behind the end of an array. -/
def ArraySizes.Hold (sizes : ArraySizes) (parts : LeafParts) : Prop :=
  parts.htids.length ≤ sizes.htids ∧ parts.aggs.length ≤ sizes.aggs ∧
    parts.xmins.length ≤ sizes.xmins
  deriving Decidable

/-- The pending posting list.  If the base tuple is too large to get more heap pointers, nothing
is copied from it. -/
structure Pending where
  base : IndexTuple
  baseoff : Nat
  basetupsize : Int
  parts : LeafParts
  nitems : Nat
  deriving DecidableEq, Repr

/-- `ABTDedupStateData`. -/
structure DedupState where
  deduplicate : Bool
  saveExtra : Bool
  nmaxitems : Nat
  maxpostingsize : Int
  sizes : ArraySizes
  /-- None before the first item and once a list is finished. -/
  pending : Option Pending
  intervals : List DedupInterval
  deriving DecidableEq, Repr

namespace IndexTuple

def leafCount (tup : IndexTuple) : Nat := if tup.isPosting then tup.nPosting else 1

def readIf (tup : IndexTuple) (kept : Bool) (off length : Int) : Option Bytes :=
  if kept then tup.read off length else some []

def writeIf (tup : IndexTuple) (kept : Bool) (off : Int) (source : Bytes) : Option IndexTuple :=
  if kept then tup.write off source else some tup

/-- What is read from a leaf tuple; aggregates and transaction ids only if they are kept. -/
def leafParts (info : AggInfo) (saveExtra : Bool) (tup : IndexTuple) : Option LeafParts :=
  if tup.isPosting then do
    let htids ← tup.read (tup.postingN 0) (6 * tup.nPosting)
    let aggs ← tup.readIf (saveExtra && info.leafHasAgg) tup.postingAggPtr
      (tup.nPosting * info.aggStride.toInt)
    let xmins ← tup.readIf saveExtra tup.postingXminPtr (4 * tup.nPosting)
    return ⟨htids, aggs, xmins, tup.nPosting⟩
  else do
    let aggs ← tup.readIf (saveExtra && info.leafHasAgg) (tup.nonPivotAggPtr info)
      info.aggStride.toInt
    let xmins ← tup.readIf saveExtra tup.nonPivotXminPtr 4
    return ⟨tup.tTid.toBytes, aggs, xmins, 1⟩

end IndexTuple

namespace Pending

/-- `_abt_dedup_start_pending` with a base tuple that is not too large. -/
def start (info : AggInfo) (base : IndexTuple) (baseoff : Nat) (parts : LeafParts) : Pending where
  base := base
  baseoff := baseoff
  basetupsize := if base.isPosting then base.postingOffset
    else base.size - info.extraSpaceForNonpivotTuple
  parts := parts
  nitems := 1

/-- `_abt_dedup_start_pending` with a base tuple that is too large. -/
def oversized (base : IndexTuple) (baseoff : Nat) : Pending where
  base := base
  baseoff := baseoff
  basetupsize := 0
  parts := .empty
  nitems := 1

/-- `mergedtupsz` in `_abt_dedup_save_htid`. -/
def mergedSize (info : AggInfo) (pending : Pending) (nhtids : Nat) : Int :=
  pending.basetupsize + maxalign ((pending.parts.nhtids + nhtids : Nat) * 6) +
    (if info.leafHasAgg then
      maxalign (info.aggStride.toInt * (pending.parts.nhtids + nhtids : Nat)) else 0) +
    maxalign (4 * (pending.parts.nhtids + nhtids : Nat))

def add (pending : Pending) (parts : LeafParts) : Pending :=
  { pending with
    parts := pending.parts.append parts
    nitems := pending.nitems + 1 }

def final (info : AggInfo) (saveExtra : Bool) (pending : Pending) : Option IndexTuple := do
  let final ← formPosting info pending.base pending.parts.htids pending.parts.nhtids
  let final ← final.writeIf (saveExtra && info.leafHasAgg) final.postingAggPtr pending.parts.aggs
  final.writeIf saveExtra final.postingXminPtr pending.parts.xmins

def result (info : AggInfo) (saveExtra : Bool) (pending : Pending) : Option IndexTuple :=
  if pending.nitems ≤ 1 then some pending.base else pending.final info saveExtra

/-- The interval of items that a new posting tuple stands for. -/
def interval (pending : Pending) : List DedupInterval :=
  if pending.nitems ≤ 1 then [] else [⟨pending.baseoff, pending.nitems⟩]

end Pending

namespace DedupState

/-- `_abt_dedup_start_pending`. -/
def startPending (info : AggInfo) (s : DedupState) (base : IndexTuple) (baseoff : Nat) :
    Option DedupState :=
  if base.size ≤ s.maxpostingsize then
    (base.leafParts info s.saveExtra).bind fun parts =>
      if s.sizes.Hold parts then
        some { s with pending := some (.start info base baseoff parts) }
      else none
  else some { s with pending := some (.oversized base baseoff) }

/-- `_abt_dedup_save_htid`: whether the item was merged. -/
def saveHtid (info : AggInfo) (s : DedupState) (itup : IndexTuple) :
    Option (Bool × DedupState) :=
  s.pending.bind fun pending =>
    if pending.parts.nhtids = 0 then
      some (false, if itup.isPosting ∧ itup.nPosting > 50 then
          { s with nmaxitems := s.nmaxitems + 1 }
        else s)
    else if s.maxpostingsize < pending.mergedSize info itup.leafCount then
      some (false, if pending.parts.nhtids > 50 then
          { s with nmaxitems := s.nmaxitems + 1 }
        else s)
    else
      (itup.leafParts info s.saveExtra).bind fun parts =>
        if s.sizes.Hold (pending.parts.append parts) then
          some (true, { s with pending := some (pending.add parts) })
        else none

/-- `_abt_dedup_finish_pending`: the new page, and the state with nothing pending. -/
def finishPending (info : AggInfo) (newpage : Page) (s : DedupState) :
    Option (Page × DedupState) :=
  s.pending.bind fun pending =>
    (pending.result info s.saveExtra).bind fun tup =>
      (newpage.addItem tup (newpage.maxOffset + 1)).map fun newpage =>
        (newpage, { s with
          pending := none
          intervals := s.intervals ++ pending.interval })

end DedupState

/-- The types that an index may aggregate: `int2`, `int4` and `int8`. -/
def AggInfo.Supported (info : AggInfo) : Prop :=
  info.aggStride = info.aggTyplen ∧
    (info.aggTyplen = 2 ∨ info.aggTyplen = 4 ∨ info.aggTyplen = 8)

instance (info : AggInfo) : Decidable info.Supported :=
  inferInstanceAs (Decidable (_ ∧ _))

structure IndexTuple.IsLeafItem (info : AggInfo) (tup : IndexTuple) : Prop where
  plain : tup.isPosting = false → 8 + info.extraSpaceForNonpivotTuple ≤ tup.size
  posting : tup.isPosting = true → 8 ≤ tup.postingOffset ∧ 1 < tup.nPosting ∧
    (tup.size : Int) = postingSize info tup.postingOffset tup.nPosting

instance (info : AggInfo) (tup : IndexTuple) : Decidable (tup.IsLeafItem info) :=
  decidable_of_iff
    ((tup.isPosting = false → 8 + info.extraSpaceForNonpivotTuple ≤ tup.size) ∧
      (tup.isPosting = true → 8 ≤ tup.postingOffset ∧ 1 < tup.nPosting ∧
        (tup.size : Int) = postingSize info tup.postingOffset tup.nPosting))
    ⟨fun both => ⟨both.1, both.2⟩, fun item => ⟨item.plain, item.posting⟩⟩

namespace AggInfo.Supported

variable {info : AggInfo} (supported : info.Supported)
include supported

theorem stride_bounds : 0 ≤ info.aggStride.toInt ∧ info.aggStride.toInt ≤ 8 := by
  obtain ⟨stride, two | four | eight⟩ := supported
  · rw [stride, two]; decide
  · rw [stride, four]; decide
  · rw [stride, eight]; decide

theorem extraSpace : (if info.leafHasAgg then info.aggStride.toInt else 0) + 4 ≤
    info.extraSpaceForNonpivotTuple := by
  unfold AggInfo.extraSpaceForNonpivotTuple
  obtain ⟨stride, two | four | eight⟩ := supported
  · rw [stride, two]; cases info.leafHasAgg <;> decide
  · rw [stride, four]; cases info.leafHasAgg <;> decide
  · rw [stride, eight]; cases info.leafHasAgg <;> decide

theorem maxItemSize_ge : min (maxItemSizeNoAgg / 2) 8191 ≤ maxItemSize info := by
  unfold maxItemSize AggInfo.extraSpaceWhenTidPresent
  obtain ⟨-, two | four | eight⟩ := supported
  · rw [two]; decide
  · rw [four]; decide
  · rw [eight]; decide

end AggInfo.Supported

def aggRoom (info : AggInfo) (count : Nat) : Int :=
  if info.leafHasAgg then count * info.aggStride.toInt else 0

structure LeafParts.Sized (info : AggInfo) (parts : LeafParts) : Prop where
  htids : parts.htids.length = 6 * parts.nhtids
  aggs : (parts.aggs.length : Int) = aggRoom info parts.nhtids
  xmins : parts.xmins.length = 4 * parts.nhtids

namespace IndexTuple

variable {tup : IndexTuple} {info : AggInfo}

theorem length_of_readIf {off length : Int} (read : tup.readIf kept off length = some bytes) :
    (bytes.length : Int) = if kept then length else 0 := by
  unfold readIf at read
  split at read
  next isKept =>
    rw [if_pos isKept]
    exact Bytes.length_of_read read
  next isKept =>
    cases read
    rw [if_neg isKept]
    rfl

theorem leafParts_sized (read : tup.leafParts info true = some parts) :
    parts.nhtids = tup.leafCount ∧ parts.Sized info := by
  unfold leafParts at read
  split at read
  next posting =>
    simp only [Option.pure_def, bind_eq_bind, bind_eq_some_iff, some.injEq, Bool.true_and] at read
    obtain ⟨htids, readHtids, aggs, readAggs, xmins, readXmins, rfl⟩ := read
    have htidsLength := Bytes.length_of_read readHtids
    have xminsLength := length_of_readIf readXmins
    rw [if_pos rfl] at xminsLength
    exact ⟨(if_pos posting).symm,
      ⟨by dsimp only; omega, length_of_readIf readAggs, by dsimp only; omega⟩⟩
  next plain =>
    simp only [Option.pure_def, bind_eq_bind, bind_eq_some_iff, some.injEq, Bool.true_and] at read
    obtain ⟨aggs, readAggs, xmins, readXmins, rfl⟩ := read
    have aggsLength := length_of_readIf readAggs
    have xminsLength := length_of_readIf readXmins
    rw [if_pos rfl] at xminsLength
    refine ⟨(if_neg plain).symm, ⟨ItemPointer.length_toBytes _, ?_, by dsimp only; omega⟩⟩
    rw [aggRoom, Nat.cast_one, Int.one_mul]
    exact aggsLength

theorem readIf_isSome (tup : IndexTuple) (kept : Bool) {off length : Int} (start : 8 ≤ off)
    (positive : 0 ≤ length) (inside : kept → off + length ≤ tup.size) :
    ∃ bytes, tup.readIf kept off length = some bytes := by
  unfold readIf
  split
  next isKept =>
    have room := inside isKept
    rw [size] at room
    unfold read Bytes.read
    rw [if_pos (by omega)]
    exact ⟨_, rfl⟩
  · exact ⟨[], rfl⟩

theorem IsLeafItem.leafParts (item : tup.IsLeafItem info)
    (supported : info.Supported) : ∃ parts, tup.leafParts info true = some parts := by
  obtain ⟨strideLow, strideHigh⟩ := supported.stride_bounds
  have extra := supported.extraSpace
  unfold IndexTuple.leafParts
  by_cases posting : tup.isPosting
  · obtain ⟨start, many, total⟩ := item.posting posting
    have wide : 0 ≤ info.aggStride.toInt * tup.nPosting := Int.mul_nonneg strideLow (by omega)
    have commuted : tup.nPosting * info.aggStride.toInt = info.aggStride.toInt * tup.nPosting :=
      Int.mul_comm _ _
    rw [postingSize, if_pos many] at total
    unfold maxalign typealign at total
    obtain ⟨htids, readHtids⟩ := tup.readIf_isSome true
      (by unfold postingN; omega : 8 ≤ tup.postingN 0) (by omega : 0 ≤ 6 * (tup.nPosting : Int))
      (fun _ => by unfold postingN; split at total <;> omega)
    obtain ⟨aggs, readAggs⟩ := tup.readIf_isSome (true && info.leafHasAgg)
      (by unfold postingAggPtr maxalign typealign; omega : 8 ≤ tup.postingAggPtr)
      (by omega : 0 ≤ tup.nPosting * info.aggStride.toInt)
      (fun stored => by
        rw [Bool.true_and] at stored
        rw [if_pos stored] at total
        unfold postingAggPtr maxalign typealign
        omega)
    obtain ⟨xmins, readXmins⟩ := tup.readIf_isSome true
      (by unfold postingXminPtr; split at total <;> omega : 8 ≤ tup.postingXminPtr)
      (by omega : 0 ≤ 4 * (tup.nPosting : Int))
      (fun _ => by unfold postingXminPtr; omega)
    rw [if_pos posting]
    rw [readIf, if_pos rfl] at readHtids
    simp only [readHtids, readAggs, readXmins, bind_eq_bind, bind_some, Option.pure_def]
    exact ⟨_, rfl⟩
  · have room := item.plain (Bool.eq_false_iff.mpr posting)
    obtain ⟨aggs, readAggs⟩ := tup.readIf_isSome (true && info.leafHasAgg)
      (by unfold nonPivotAggPtr; omega : 8 ≤ tup.nonPivotAggPtr info) strideLow
      (fun stored => by
        rw [Bool.true_and] at stored
        rw [if_pos stored] at extra
        unfold nonPivotAggPtr
        omega)
    obtain ⟨xmins, readXmins⟩ := tup.readIf_isSome true
      (by unfold nonPivotXminPtr; split at extra <;> omega : 8 ≤ tup.nonPivotXminPtr)
      (by decide : (0 : Int) ≤ 4) (fun _ => by unfold nonPivotXminPtr; omega)
    rw [if_neg posting]
    simp only [readAggs, readXmins, bind_eq_bind, bind_some, Option.pure_def]
    exact ⟨_, rfl⟩

theorem IsLeafItem.leafCount_le (item : tup.IsLeafItem info)
    (supported : info.Supported) : 0 < tup.leafCount ∧ 6 * tup.leafCount ≤ tup.size := by
  obtain ⟨strideLow, -⟩ := supported.stride_bounds
  unfold leafCount
  split
  next posting =>
    obtain ⟨start, many, total⟩ := item.posting posting
    have wide : 0 ≤ info.aggStride.toInt * tup.nPosting := Int.mul_nonneg strideLow (by omega)
    rw [postingSize, if_pos many] at total
    unfold maxalign typealign at total
    constructor
    · omega
    · split at total <;> omega
  · exact ⟨Nat.one_pos, by unfold size; omega⟩

theorem setPosting_count (tup : IndexTuple) {nhtids : Nat} (few : nhtids < 4096) (off : Nat) :
    (tup.setPosting nhtids off).isPosting ∧ (tup.setPosting nhtids off).nPosting = nhtids := by
  have small : (ofNat nhtids).toNat = nhtids := by exact Nat.mod_eq_of_lt (few.trans (by decide))
  have count : (tup.setPosting nhtids off).nPosting = nhtids := by
    have flag : 8192 &&& 4095 = 0 := rfl
    have mask : nhtids &&& 4095 = nhtids % 4096 := Nat.and_two_pow_sub_one_eq_mod nhtids 12
    rw [nPosting, setPosting, UInt16.toNat_and, UInt16.toNat_or, small]
    exact (Nat.and_or_distrib_right nhtids 8192 4095).trans
      (by rw [flag, Nat.or_zero, mask, Nat.mod_eq_of_lt few])
  refine ⟨?_, count⟩
  have set : (ofNat nhtids ||| 0x2000) &&& 0x2000 ≠ 0 := by
    intro clear
    have value := congrArg toNat clear
    rw [UInt16.toNat_and, UInt16.toNat_or, small] at value
    have bit : nhtids &&& 8192 ||| 8192 = 0 :=
      (Nat.and_or_distrib_right nhtids 8192 8192).symm.trans value
    have above := @Nat.right_le_or (nhtids &&& 8192) 8192
    omega
  exact decide_eq_true set

end IndexTuple

theorem formPosting_count (formed : formPosting info base htids nhtids = some final)
    (many : 1 < nhtids) (few : nhtids < 4096) : final.isPosting ∧ final.nPosting = nhtids := by
  unfold formPosting at formed
  generalize (if base.isPosting then base.postingOffset else base.size) = keysize at formed
  simp only [many, if_true] at formed
  split at formed
  · have layout := write_sameLayout formed
    have counts := setPosting_count
    rw [isPosting, nPosting, layout.tTid, layout.altTid]
    exact counts _ few _
  · cases formed

theorem IndexTuple.writeIf_sameHeader {tup result : IndexTuple}
    (written : tup.writeIf kept off source = some result) :
    result.tTid = tup.tTid ∧ result.altTid = tup.altTid := by
  unfold writeIf at written
  split at written
  · have layout := write_sameLayout written
    exact ⟨layout.tTid, layout.altTid⟩
  · cases written
    exact ⟨rfl, rfl⟩

namespace Pending

/-- What holds of a pending list: its arrays are as long as the number of its heap pointers says,
and only a list of one item may have nothing in them. -/
structure Valid (info : AggInfo) (pending : Pending) : Prop where
  sized : pending.parts.Sized info
  few : pending.parts.nhtids < 4096
  keysize : 0 ≤ pending.basetupsize
  many : 1 < pending.nitems → 1 < pending.parts.nhtids ∧
    pending.base.leafCount ≤ pending.parts.nhtids
  single : pending.nitems ≤ 1 → pending.nitems = 1 ∧
    (pending.parts.nhtids = 0 ∨ pending.parts.nhtids = pending.base.leafCount)

def count (pending : Pending) : Nat := max pending.parts.nhtids pending.base.leafCount

variable {info : AggInfo} {pending : Pending}

theorem final_leafCount
    (formed : pending.final info saveExtra = some tup) (many : 1 < pending.parts.nhtids)
    (few : pending.parts.nhtids < 4096) : tup.leafCount = pending.parts.nhtids := by
  simp only [final, bind_eq_bind, bind_eq_some_iff] at formed
  obtain ⟨first, isFirst, second, isSecond, isTuple⟩ := formed
  obtain ⟨posting, count⟩ := formPosting_count isFirst many few
  obtain ⟨secondTid, secondAlt⟩ := writeIf_sameHeader isSecond
  obtain ⟨tid, alt⟩ := writeIf_sameHeader isTuple
  have same : tup.leafCount = first.leafCount := by
    unfold leafCount isPosting nPosting
    rw [tid, alt, secondTid, secondAlt]
  rw [same, leafCount, if_pos posting, count]

theorem Valid.result_leafCount (valid : pending.Valid info)
    (formed : pending.result info saveExtra = some tup) : tup.leafCount = pending.count := by
  unfold result at formed
  unfold count
  split at formed
  next few =>
    cases formed
    obtain ⟨-, empty | full⟩ := valid.single few
    · rw [empty, Nat.zero_max]
    · rw [full, Nat.max_self]
  next several =>
    obtain ⟨many, base⟩ := valid.many (Nat.lt_of_not_le several)
    rw [final_leafCount formed many valid.few, Nat.max_eq_left base]

theorem Valid.merged_le (valid : pending.Valid info) (supported : info.Supported)
    (fits : pending.mergedSize info nhtids ≤ limit) :
    6 * (pending.parts.nhtids + nhtids : Nat) ≤ limit := by
  obtain ⟨strideLow, -⟩ := supported.stride_bounds
  have wide : 0 ≤ info.aggStride.toInt * (pending.parts.nhtids + nhtids : Nat) :=
    Int.mul_nonneg strideLow (by omega)
  have keysize := valid.keysize
  unfold mergedSize maxalign typealign at fits
  split at fits <;> omega

theorem Valid.add (valid : pending.Valid info) {parts : LeafParts} (sized : parts.Sized info)
    (some : pending.parts.nhtids ≠ 0) (positive : 0 < parts.nhtids)
    (few : pending.parts.nhtids + parts.nhtids < 4096) : (pending.add parts).Valid info where
  sized := by
    refine ⟨?_, ?_, ?_⟩
    · exact length_append.trans (by rw [valid.sized.htids, sized.htids]; exact (Nat.mul_add 6 _ _).symm)
    · have first := valid.sized.aggs
      have second := sized.aggs
      unfold Pending.add LeafParts.append
      rw [length_append, Nat.cast_add, first, second]
      unfold aggRoom
      split
      · rw [Nat.cast_add, Int.add_mul]
      · rfl
    · exact length_append.trans (by rw [valid.sized.xmins, sized.xmins]; exact (Nat.mul_add 4 _ _).symm)
  few := few
  keysize := valid.keysize
  many _ := by
    have base : pending.base.leafCount ≤ pending.parts.nhtids := by
      by_cases several : 1 < pending.nitems
      · exact (valid.many several).2
      · exact ((valid.single (Nat.le_of_not_lt several)).2.resolve_left some).symm.le
    exact ⟨by dsimp only [Pending.add, LeafParts.append]; omega, Nat.le_add_right_of_le base⟩
  single one := by
    have positive : 1 ≤ pending.nitems := by
      by_cases several : 1 < pending.nitems
      · omega
      · rw [(valid.single (Nat.le_of_not_lt several)).1]
    dsimp only [Pending.add] at one
    omega

theorem valid_start {base : IndexTuple} {parts : LeafParts} (item : base.IsLeafItem info)
    (supported : info.Supported) (read : base.leafParts info true = some parts)
    (small : base.size < 8192) (baseoff : Nat) : (start info base baseoff parts).Valid info where
  sized := (leafParts_sized read).2
  few := by
    have bound := (item.leafCount_le supported).2
    dsimp only [start]
    rw [(leafParts_sized read).1]
    omega
  keysize := by
    dsimp only [start]
    split
    · omega
    next plain =>
      have room := item.plain (Bool.eq_false_iff.mpr plain)
      omega
  many several := absurd several (Nat.lt_irrefl 1)
  single _ := ⟨rfl, .inr (leafParts_sized read).1⟩

theorem valid_oversized (info : AggInfo) (base : IndexTuple) (baseoff : Nat) :
    (oversized base baseoff).Valid info where
  sized := ⟨rfl, by simp [oversized, LeafParts.empty, aggRoom], rfl⟩
  few := (by decide : 0 < 4096)
  keysize := le_refl 0
  many several := absurd several (Nat.lt_irrefl 1)
  single _ := ⟨rfl, .inl rfl⟩

end Pending

end PgAqp.Abtree
