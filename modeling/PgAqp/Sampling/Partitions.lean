import PgAqp.Sampling.Proportion

/-!
# Splitting a partition of the sample space

A partition is a range of offsets on one page.  `_abt_continue_descent` cuts it where the
partition attribute changes; a range of one pivot is first replaced by the items of its child.
-/

namespace PgAqp.Sampling

open Function List

variable {α : Type}

/-- `ABTLockedPathSubtreeRefDes`, as far as the descent reads and writes it. -/
structure SubtreeRef where
  blkno : Nat
  minoff : Nat
  maxoff : Nat
  level : Nat
  inUse : Bool
  deriving DecidableEq, Repr

/-- `alp_subtreerefdess` with the counters of the scan. -/
structure Partitions where
  refs : Nat → SubtreeRef
  totalPartitions : Nat
  currPartitions : Nat
  currLevel : Nat

/-- The loop over the offsets behind `cmin`, with the last range that is added after it. -/
def cutRange (differs : Nat → Nat → Bool) : Nat → Nat → Nat → List (Nat × Nat)
  | 0, cmin, off => [(cmin, off - 1)]
  | count + 1, cmin, off =>
    if differs cmin off then (cmin, off - 1) :: cutRange differs count off (off + 1)
    else cutRange differs count cmin (off + 1)

def SubtreeRef.setRange (ref : SubtreeRef) (blkno : Nat) (range : Nat × Nat) : SubtreeRef :=
  { ref with blkno := blkno, minoff := range.1, maxoff := range.2, inUse := true }

/-- The entries from `total_partitions - 1` on get the new ranges; their levels stay. -/
def writeRanges (blkno : Nat) : Nat → List (Nat × Nat) → (Nat → SubtreeRef) → Nat → SubtreeRef
  | _, [], refs => refs
  | place, range :: rest, refs =>
    writeRanges blkno (place + 1) rest (update refs place ((refs place).setRange blkno range))

/-- The page that is cut, with the first and the last offset. -/
def cutBounds (i : Index α) (ref : SubtreeRef) : Option (Nat × Page α × Nat × Nat) := do
  let page ← i.pages ref.blkno
  if ref.minoff ≠ ref.maxoff then return (ref.blkno, page, ref.minoff, ref.maxoff)
  else
    let pivot ← page.pivotAt ref.minoff
    let child ← i.pages pivot.downlink
    return (pivot.downlink, child, child.firstDataKey + 1, child.maxOffset)

/-- The ranges into which a reference is cut, and their page; `cmp` is the comparison procedure of
the partition attribute on what `index_getattr` returns. -/
def newRanges (i : Index α) (cmp : Option α → Option α → Ordering) (partitionAttno : Nat)
    (ref : SubtreeRef) : Option (Nat × List (Nat × Nat)) := do
  let (blkno, page, minoff, maxoff) ← cutBounds i ref
  let attr := fun off => (page.keyAt off).bind fun key => key.attrs[partitionAttno - 1]?
  return (blkno, cutRange (fun first second => cmp (attr first) (attr second) != .eq)
    (maxoff - minoff) minoff (minoff + 1))

/-- The entries of `alp_subtreerefdess`. -/
def maxRefs : Nat := 10000

/-- `_abt_continue_descent`.  There is no result if it writes behind the array, which it does not
check. -/
def continuePartition (i : Index α) (cmp : Option α → Option α → Ordering)
    (nkeyatts partitionAttno : Nat) (parts : Partitions) (place : Nat) :
    Option (Bool × Partitions) := do
  if partitionAttno = 0 ∨ nkeyatts < partitionAttno then none
  else
    let ref := parts.refs (place - 1)
    let (blkno, ranges) ← newRanges i cmp partitionAttno ref
    if ranges.length = 1 then return (false, parts)
    else if maxRefs < parts.totalPartitions - 1 + ranges.length then none
    else
      let refs := writeRanges blkno (parts.totalPartitions - 1) ranges parts.refs
      return (true, {
        refs := update refs (place - 1) { refs (place - 1) with inUse := false }
        totalPartitions := parts.totalPartitions + ranges.length
        currPartitions := ranges.length
        currLevel := ref.level + 1 })

def rangeItems (blkno minoff maxoff : Nat) : List (Nat × Nat) :=
  (range' minoff (maxoff + 1 - minoff)).map (blkno, ·)

def SubtreeRef.items (ref : SubtreeRef) : List (Nat × Nat) :=
  rangeItems ref.blkno ref.minoff ref.maxoff

/-- The pivots of the range, or the items of the child if it is a single pivot. -/
def SubtreeRef.parts (i : Index α) (ref : SubtreeRef) : List (Nat × Nat) :=
  if ref.minoff ≠ ref.maxoff then ref.items
  else
    (((i.pages ref.blkno).bind fun page => page.pivotAt ref.minoff).bind fun pivot =>
      (i.pages pivot.downlink).map fun child =>
        rangeItems pivot.downlink child.firstDataKey child.maxOffset).getD []

/-- What the new references stand for, in the order of the array. -/
def Partitions.added (parts next : Partitions) : List (List (Nat × Nat)) :=
  (range next.currPartitions).map fun new =>
    (next.refs (parts.totalPartitions - 1 + new)).items

/-- The new references have every part of the replaced one once and in order, none of them is
empty, and their weights add up to its weight. -/
structure Covers (i : Index α) (weight : Nat × Nat → Nat) (ref : SubtreeRef)
    (added : List (List (Nat × Nat))) : Prop where
  items : added.flatten = ref.parts i
  nonempty : [] ∉ added
  weights : (added.map fun items => (items.map weight).sum).sum = (ref.items.map weight).sum

theorem rangeItems_append (blkno : Nat) (first : minoff ≤ middle)
    (second : middle ≤ maxoff) : rangeItems blkno minoff middle ++
      rangeItems blkno (middle + 1) maxoff = rangeItems blkno minoff maxoff := by
  obtain ⟨front, rfl⟩ := Nat.exists_eq_add_of_le first
  obtain ⟨back, rfl⟩ := Nat.exists_eq_add_of_le second
  rw [rangeItems, rangeItems, rangeItems, ← map_append, Nat.add_assoc minoff front 1,
    Nat.add_sub_cancel_left, show minoff + front + back + 1 - (minoff + (front + 1)) = back by omega,
    range'_append_1, show minoff + front + back + 1 - minoff = front + 1 + back by omega]

theorem rangeItems_ne_nil (blkno : Nat) (inside : minoff ≤ maxoff) :
    rangeItems blkno minoff maxoff ≠ [] := by
  intro empty
  have length := congrArg length empty
  simp only [rangeItems, length_map, length_range', length_nil] at length
  omega

/-- The ranges of the loop are not empty and go from `cmin` to the last offset. -/
theorem cutRange_items (differs : Nat → Nat → Bool) (blkno count : Nat) (behind : cmin < off) :
    ((cutRange differs count cmin off).map fun range =>
      rangeItems blkno range.1 range.2).flatten = rangeItems blkno cmin (off - 1 + count) ∧
    [] ∉ (cutRange differs count cmin off).map fun range => rangeItems blkno range.1 range.2 := by
  induction count generalizing cmin off with
  | zero =>
    have some := rangeItems_ne_nil blkno (show cmin ≤ off - 1 by omega)
    simpa [cutRange] using some.symm
  | succ count ih =>
    rw [cutRange]
    split
    · obtain ⟨all, some⟩ := ih (Nat.lt_succ_self off)
      have first := rangeItems_ne_nil blkno (show cmin ≤ off - 1 by omega)
      have whole := rangeItems_append blkno (show cmin ≤ off - 1 by omega)
        (show off - 1 ≤ off - 1 + (count + 1) by omega)
      rw [show off - 1 + 1 = off by omega] at whole
      rw [map_cons, flatten_cons, all, mem_cons, not_or]
      refine ⟨?_, first.symm, some⟩
      rw [show off + 1 - 1 + count = off - 1 + (count + 1) by omega, whole]
    · obtain ⟨all, some⟩ := ih (show cmin < off + 1 by omega)
      refine ⟨?_, some⟩
      rw [all, show off + 1 - 1 + count = off - 1 + (count + 1) by omega]

theorem writeRanges_items (blkno : Nat) (ranges : List (Nat × Nat)) (place : Nat)
    (refs : Nat → SubtreeRef) :
    (∀ other < place, writeRanges blkno place ranges refs other = refs other) ∧
    (range ranges.length).map (fun new =>
      (writeRanges blkno place ranges refs (place + new)).items) =
        ranges.map fun range => rangeItems blkno range.1 range.2 := by
  induction ranges generalizing place refs with
  | nil => exact ⟨fun _ _ => rfl, rfl⟩
  | cons range rest ih =>
    rw [writeRanges]
    obtain ⟨pre, after⟩ := ih (place + 1) (update refs place ((refs place).setRange blkno range))
    refine ⟨fun other less => ?_, ?_⟩
    · rw [pre other (by omega), update_of_ne (by omega)]
    · rw [length_cons, range_succ_eq_map, map_cons, map_map, map_cons, ← after]
      refine congrArg₂ cons ?_ (map_congr_left fun new _ => ?_)
      · change (writeRanges _ _ _ _ place).items = _
        rw [pre place (Nat.lt_succ_self place), update_self]
        rfl
      · rw [comp_apply, Nat.succ_eq_add_one, Nat.add_assoc, Nat.add_comm new]

theorem continuePartition_added {next} {cmp : Option α → Option α → Ordering}
    (done : continuePartition i cmp nkeyatts partitionAttno parts place = some (true, next)) :
    ∃ blkno page minoff maxoff, minoff < maxoff ∧
      cutBounds i (parts.refs (place - 1)) = some (blkno, page, minoff, maxoff) ∧
      (parts.added next).flatten = rangeItems blkno minoff maxoff ∧ [] ∉ parts.added next := by
  obtain ⟨-, done⟩ := Option.ite_none_left_eq_some.mp done
  obtain ⟨⟨blkno, ranges⟩, cut, done⟩ := Option.bind_eq_some_iff.mp done
  obtain ⟨⟨blkno, page, minoff, maxoff⟩, bounds, cut⟩ := Option.bind_eq_some_iff.mp cut
  cases cut
  dsimp only at done
  split at done
  · cases done
  next several =>
    obtain ⟨-, done⟩ := Option.ite_none_left_eq_some.mp done
    cases done
    have inside : minoff < maxoff := by
      by_contra outside
      rw [show maxoff - minoff = 0 by omega] at several
      exact several rfl
    refine ⟨blkno, page, minoff, maxoff, inside, bounds, ?_⟩
    have cut := cutRange_items (fun first second => cmp ((page.keyAt first).bind fun key =>
      key.attrs[partitionAttno - 1]?) ((page.keyAt second).bind fun key =>
        key.attrs[partitionAttno - 1]?) != .eq) blkno (maxoff - minoff) (Nat.lt_succ_self minoff)
    rw [← (writeRanges_items blkno _ (parts.totalPartitions - 1) parts.refs).2,
      show minoff + 1 - 1 + (maxoff - minoff) = maxoff by omega] at cut
    refine (?_ : parts.added _ = _) ▸ cut
    refine map_congr_left fun new _ => ?_
    unfold SubtreeRef.items
    dsimp only
    rw [update_apply]
    split
    · next same => rw [same]
    · rfl

theorem continuePartition_isSome_iff {ranges : List (Nat × Nat)} {cmp : Option α → Option α → Ordering}
    (attno : 0 < partitionAttno ∧ partitionAttno ≤ nkeyatts)
    (cut : newRanges i cmp partitionAttno (parts.refs (place - 1)) = some (blkno, ranges))
    (several : ranges.length ≠ 1) :
    (∃ next, continuePartition i cmp nkeyatts partitionAttno parts place = some (true, next)) ↔
      parts.totalPartitions - 1 + ranges.length ≤ maxRefs := by
  unfold continuePartition
  rw [if_neg (by omega)]
  dsimp only
  rw [cut]
  dsimp only [Option.bind_eq_bind, Option.bind_some]
  rw [if_neg several]
  split
  next full => exact iff_of_false (fun ⟨_, made⟩ => nomatch made) (by omega)
  next fits => exact iff_of_true ⟨_, rfl⟩ (by omega)

/-- A range of several pivots is replaced by what it stands for if the array has room for the new
references.  The first item of the child of a single pivot is in no new reference. -/
theorem partition_covers_iff {i : Index α} {cmp : Option α → Option α → Ordering}
    {nkeyatts partitionAttno place blkno : Nat} {parts : Partitions} {ranges : List (Nat × Nat)}
    (weight : Nat × Nat → Nat) (attno : 0 < partitionAttno ∧ partitionAttno ≤ nkeyatts)
    (cut : newRanges i cmp partitionAttno (parts.refs (place - 1)) = some (blkno, ranges))
    (several : ranges.length ≠ 1) :
    (∃ next, continuePartition i cmp nkeyatts partitionAttno parts place = some (true, next) ∧
      Covers i weight (parts.refs (place - 1)) (parts.added next)) ↔
      (parts.refs (place - 1)).minoff ≠ (parts.refs (place - 1)).maxoff ∧
        parts.totalPartitions - 1 + ranges.length ≤ maxRefs := by
  rw [← continuePartition_isSome_iff attno cut several, ← exists_and_left]
  refine exists_congr fun next => and_comm.trans (and_congr_left fun done => ?_)
  obtain ⟨blkno, page, minoff, maxoff, inside, bounds, all, nonempty⟩ := continuePartition_added done
  obtain ⟨parent, isPage, bounds⟩ := Option.bind_eq_some_iff.mp bounds
  split at bounds
  next several =>
    cases bounds
    refine iff_of_true ⟨?_, nonempty, ?_⟩ several
    · rw [all, SubtreeRef.parts, if_pos several, SubtreeRef.items]
    · rw [SubtreeRef.items, ← all, map_flatten, sum_flatten, map_map]
      rfl
  next single =>
    obtain ⟨pivot, isPivot, bounds⟩ := Option.bind_eq_some_iff.mp bounds
    obtain ⟨child, isChild, bounds⟩ := Option.bind_eq_some_iff.mp bounds
    cases bounds
    refine iff_of_false (fun covers => ?_) single
    have same := congrArg length (all.symm.trans covers.items)
    simp only [SubtreeRef.parts, if_neg single, isPage, isPivot, isChild, Option.bind_some,
      Option.map_some, Option.getD_some, rangeItems, length_map, length_range'] at same
    omega

def fourRows : Index Nat :=
  twoLeaves [plainTuple 0 10, plainTuple 1 20, plainTuple 2 30] [plainTuple 3 40] 3 1 (by decide)
    (by decide)

/-- One partition with the pivots of the root from the first to `maxoff`. -/
def onePartition (maxoff : Nat) : Partitions := ⟨fun _ => ⟨1, 1, maxoff, 1, true⟩, 2, 1, 1⟩

theorem two_pivots_covered :
    newRanges fourRows compare 1 ((onePartition 2).refs 0) = some (1, [(1, 1), (2, 2)]) ∧ ∃ next,
      continuePartition fourRows compare 1 1 (onePartition 2) 1 = some (true, next) ∧
        Covers fourRows (fun _ => 1) ((onePartition 2).refs 0) ((onePartition 2).added next) :=
  ⟨rfl, (partition_covers_iff _ (by decide) rfl (by decide)).mpr (by decide)⟩

/-- The row with key 0 is in no partition any more, and beside 9999 partitions there is no room for
two more. -/
theorem first_row_lost : (∃ next,
    continuePartition fourRows compare 1 1 (onePartition 1) 1 = some (true, next) ∧
      (onePartition 1).added next = [[(2, 3)], [(2, 4)]] ∧
      ¬ Covers fourRows (fun _ => 1) ((onePartition 1).refs 0) ((onePartition 1).added next)) ∧
    continuePartition fourRows compare 1 1 { onePartition 2 with totalPartitions := 10000 } 1 =
      none :=
  ⟨⟨_, rfl, rfl, fun covers => absurd covers.items (by decide)⟩, rfl⟩

end PgAqp.Sampling
