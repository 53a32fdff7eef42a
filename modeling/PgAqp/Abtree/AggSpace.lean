import PgAqp.Abtree.IndexTuple

/-!
# The space of the aggregate in a pivot tuple

A pivot on an internal page has its aggregate and update id behind the key, and before
its heap TID if it has one.  As a high key it has neither.  `_abt_pivot_tuple_purge_agg_space`
and `_abt_pivot_tuple_reserve_agg_space` go from one form to the other.
-/

namespace PgAqp.Abtree

open Library List Option Bytes IndexTuple

/-- The parts of a pivot.  `head` gives the header, and the last two are there if that
has the flag for them. -/
structure PivotParts where
  head : IndexTuple
  key : Bytes
  aligned : 8 ∣ key.length
  pad : Bytes
  tid : Bytes
  padLength : pad.length = 2
  tidLength : tid.length = 6

namespace PivotParts

variable (p : PivotParts) (info : AggInfo)

def withData (data : Bytes) : IndexTuple := { p.head with data := data }

/-- The pivot without space for the aggregate. -/
def bare : IndexTuple := p.withData (p.key ++ if p.head.pivotHasHeapTid then p.pad ++ p.tid else [])

def full (space : Bytes) : IndexTuple :=
  p.withData (p.key ++ (space ++ if p.head.pivotHasHeapTid then p.tid else []))

def spaceLength : Int :=
  if p.head.pivotHasHeapTid then info.extraSpaceWhenTidPresent - 6
  else info.extraSpaceWhenTidMissing

/-- The two forms can be exchanged, whatever stands behind the tuple that is read. -/
structure RoundTrip (space : Bytes) : Prop where
  purge_reserve : ∃ purged, (p.full space).purgeAggSpace info = some purged ∧
    ∀ behind, ∃ space', space'.length = space.length ∧
      purged.reserveAggSpace info behind = some (p.full space')
  reserve_purge : ∀ behind,
    (p.bare.reserveAggSpace info behind).bind (·.purgeAggSpace info) = some p.bare
  inside : ∀ behind behind',
    p.bare.reserveAggSpace info behind = p.bare.reserveAggSpace info behind'

variable {p info}

/-- The copy of the key and the heap TID into a zeroed tuple. -/
theorem copy_tid (p : PivotParts) (space : Bytes) (extra : Nat) (room : 6 ≤ extra) :
    ((p.withData (p.key ++ (space ++ p.tid))).read
        ((p.withData (p.key ++ (space ++ p.tid))).size - 6) 6).bind
      (((p.withData (p.key ++ (space ++ p.tid))).resize (8 + p.key.length)
        (8 + p.key.length + extra)).write (8 + p.key.length + extra - 6)) =
        some (p.withData (p.key ++ (replicate (extra - 6) 0 ++ p.tid))) := by
  have tidLength := p.tidLength
  have isRead : (p.withData (p.key ++ (space ++ p.tid))).read
      ((p.withData (p.key ++ (space ++ p.tid))).size - 6) 6 = some p.tid := by
    have whole : (p.withData (p.key ++ (space ++ p.tid))).data = (p.key ++ space) ++ p.tid :=
      (append_assoc ..).symm
    rw [IndexTuple.read, IndexTuple.size, whole, length_append, tidLength, Bytes.read,
      if_pos (by simp only [length_append]; omega), drop_left' (by rw [length_append]; omega)]
    exact congrArg some (take_of_length_le tidLength.le)
  have resized : ((p.withData (p.key ++ (space ++ p.tid))).resize (8 + p.key.length)
      (8 + p.key.length + extra)).data = (p.key ++ replicate (extra - 6) 0) ++ replicate 6 0 := by
    have first : (p.key ++ (space ++ p.tid)).take (8 + p.key.length - 8 : Int).toNat = p.key :=
      take_left' (by omega)
    have zeros : (8 + p.key.length + extra - 8 : Int).toNat - p.key.length = extra - 6 + 6 := by
      omega
    rw [append_assoc, replicate_append_replicate, ← zeros]
    simp only [resize, withData, first]
  have place : (8 + p.key.length + extra - 6 - 8 : Int).toNat =
      (p.key ++ replicate (extra - 6) (0 : UInt8)).length := by
    rw [length_append, length_replicate]
    omega
  rw [isRead, bind_some, IndexTuple.write, resized, Bytes.write, place, take_left' rfl,
    drop_of_length_le (by simp [tidLength, Nat.add_assoc]), if_pos]
  · simp [resize, withData]
  · simp only [length_append, length_replicate, tidLength]
    omega

theorem purge_tid (hasTid : p.head.pivotHasHeapTid) (typlen : 0 ≤ info.aggTyplen.toInt)
    (sized : (space.length : Int) = p.spaceLength info) :
    (p.full space).purgeAggSpace info = some (p.withData (p.key ++ ([0, 0] ++ p.tid))) := by
  obtain ⟨extra, present⟩ := extraSpaceWhenTidPresent_eq typlen
  obtain ⟨count, aligned⟩ := p.aligned
  have flag : (p.full space).pivotHasHeapTid = true := hasTid
  have same : p.full space = p.withData (p.key ++ (space ++ p.tid)) := by rw [full, if_pos hasTid]
  have keep : ((p.full space).size : Int) - info.extraSpaceWhenTidPresent = 8 + p.key.length := by
    rw [spaceLength, if_pos hasTid] at sized
    simp only [same, IndexTuple.size, withData, length_append, p.tidLength]
    omega
  have newsize : maxalign (8 + p.key.length + 6) = 8 + p.key.length + (8 : Nat) := by
    unfold maxalign typealign
    omega
  rw [purgeAggSpace, if_pos flag]
  simp only [keep, newsize]
  rw [if_neg (by omega), same]
  exact p.copy_tid space 8 (by omega)

theorem reserve_tid (hasTid : p.head.pivotHasHeapTid) (typlen : 0 ≤ info.aggTyplen.toInt)
    {pad : Bytes} (padLength : pad.length = 2) (behind : Bytes) :
    (p.withData (p.key ++ (pad ++ p.tid))).reserveAggSpace info behind =
      some (p.full (replicate (p.spaceLength info).toNat 0)) := by
  obtain ⟨extra, present⟩ := extraSpaceWhenTidPresent_eq typlen
  obtain ⟨count, aligned⟩ := p.aligned
  have flag : (p.withData (p.key ++ (pad ++ p.tid))).pivotHasHeapTid = true := hasTid
  have keep : ((p.withData (p.key ++ (pad ++ p.tid))).size - 6 : Int) / 8 * 8 =
      8 + p.key.length := by
    simp only [IndexTuple.size, withData, length_append, p.tidLength, padLength]
    omega
  have length : (p.spaceLength info).toNat = 8 * extra + 8 - 6 := by
    rw [spaceLength, if_pos hasTid]
    omega
  rw [reserveAggSpace, if_pos flag, full, if_pos hasTid, length]
  simp only [keep, present]
  rw [if_neg (by omega)]
  exact p.copy_tid pad (8 * extra + 8) (by omega)

/-- Without a heap TID, space is reserved only if there is memory behind the tuple. -/
theorem reserve_nothing (noTid : p.head.pivotHasHeapTid = false) (typlen : 0 ≤ info.aggTyplen.toInt) :
    p.bare.reserveAggSpace info [] = none := by
  obtain ⟨extra, missing⟩ := extraSpaceWhenTidMissing_eq typlen
  have flag : p.bare.pivotHasHeapTid = false := noTid
  rw [reserveAggSpace, flag, if_neg (by decide), Bytes.read, if_neg (by simp; omega)]
  rfl

/-- With a heap TID everything is copied inside the tuples, and the two bytes of padding before
it are the only ones that may change.  Without one, the bytes behind the tuple are copied. -/
theorem roundTrip_iff (p : PivotParts) (info : AggInfo) (space : Bytes)
    (typlen : 0 ≤ info.aggTyplen.toInt) (sized : (space.length : Int) = p.spaceLength info) :
    p.RoundTrip info space ↔ p.head.pivotHasHeapTid = true ∧ p.pad = [0, 0] := by
  cases hasTid : p.head.pivotHasHeapTid with
  | false =>
    refine ⟨fun trips => ?_, by simp⟩
    have read := trips.reserve_purge []
    rw [reserve_nothing hasTid typlen] at read
    cases read
  | true =>
    have isBare : p.bare = p.withData (p.key ++ (p.pad ++ p.tid)) := by rw [bare, if_pos hasTid]
    have zeros : ((replicate (p.spaceLength info).toNat (0 : UInt8)).length : Int) =
        p.spaceLength info := by
      rw [length_replicate]
      omega
    have back (behind : Bytes) : (p.bare.reserveAggSpace info behind).bind (·.purgeAggSpace info) =
        some (p.withData (p.key ++ ([0, 0] ++ p.tid))) := by
      rw [isBare, reserve_tid hasTid typlen p.padLength, bind_some]
      exact purge_tid hasTid typlen zeros
    refine ⟨fun trips => ⟨rfl, ?_⟩, fun clean => ⟨?_, fun behind => ?_, fun behind behind' => ?_⟩⟩
    · have same := (back []).symm.trans (trips.reserve_purge [])
      rw [isBare] at same
      have data := congrArg IndexTuple.data (some.inj same)
      exact (append_cancel_right (append_cancel_left data)).symm
    · refine ⟨_, purge_tid hasTid typlen sized,
        fun behind => ⟨_, ?_, reserve_tid hasTid typlen rfl behind⟩⟩
      omega
    · rw [back, isBare, clean.2]
    · rw [isBare, reserve_tid hasTid typlen p.padLength behind,
        reserve_tid hasTid typlen p.padLength behind']

end PivotParts

/-- A pivot with one attribute of eight bytes, and with the heap TID (1, 1) if it has one. -/
def onePivot (heaptid : Bool) : PivotParts where
  head := setNAtts ⟨⟨7, 0⟩, true, false, false, []⟩ 1 heaptid
  key := ofNat 8 42
  aligned := by decide
  pad := [0, 0]
  tid := ItemPointer.toBytes ⟨1, 1⟩
  padLength := rfl
  tidLength := by decide

theorem roundTrip_with_tid : (onePivot true).RoundTrip ⟨false, 8, 8⟩ (replicate 10 1) :=
  ((onePivot true).roundTrip_iff ⟨false, 8, 8⟩ (replicate 10 1) (by decide) (by decide)).mpr
    (by decide)

/-- Without the heap TID, what stands behind the tuple gets into the new one. -/
theorem reserve_reads_behind :
    (onePivot false).bare.reserveAggSpace ⟨false, 8, 8⟩ (replicate 16 1) =
        some ((onePivot false).full (replicate 16 1)) ∧
      (onePivot false).bare.reserveAggSpace ⟨false, 8, 8⟩ (replicate 16 2) =
        some ((onePivot false).full (replicate 16 2)) ∧
      (onePivot false).bare.reserveAggSpace ⟨false, 8, 8⟩ [] = none := by
  decide

end PgAqp.Abtree
