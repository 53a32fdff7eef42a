import PgAqp.Progressive.Stratify
import PgAqp.Sampling.Partitions

/-!
# Joining the partitions of a descent

A descent cuts a range of offsets into new partitions.  `aqp_continue_descent_dp` groups
neighbours by a dynamic program over their estimates and takes the partitions that are joined
out of use.  `aqp_pswr_set_new_partitions` adds one reference for each group, from the first
offset of its first partition to the last offset of its last one.
-/

namespace PgAqp.Progressive

open Function List Sampling

/-- The part of the batch controller that the descents change.  Partition `l` has the reference
`l - 1`; the leaf pages are partition 0. -/
structure Descents where
  parts : Partitions
  /-- `transstate->used`: the partition is not sampled any more. -/
  used : Nat → Bool
  phasePartitions : Nat
  dpStartIdx : Nat
  splitIdx : Nat
  dpPrevIdx : Nat → Nat
  dpKPartitions : Nat
  continueDescentDp : Bool

namespace Descents

def items (s : Descents) (partition : Nat) : List (Nat × Nat) :=
  (s.parts.refs (partition - 1)).items

/-- The partitions below `count` that are sampled, without the leaf pages. -/
def unused (s : Descents) (count : Nat) : List Nat :=
  (range' 1 (count - 1)).filter fun l => !s.used l

def live (s : Descents) : List Nat := s.unused s.parts.totalPartitions

/-- `aqp_pswr_continue_descent` with the partition that its loop tries.  If that is not cut, the
loop goes on to the next one. -/
def continueDescent (s : Descents) (i : Sampling.Index α) (cmp : Option α → Option α → Ordering)
    (nkeyatts partitionAttno index : Nat) : Option (Bool × Descents) :=
  (continuePartition i cmp nkeyatts partitionAttno s.parts index).map fun res =>
    (res.1, if res.1 then
      { s with parts := res.2, used := update s.used index true, splitIdx := index,
               dpStartIdx := s.phasePartitions, phasePartitions := res.2.totalPartitions }
      else s)

def retire (first count : Nat) (used : Nat → Bool) (l : Nat) : Bool :=
  decide (first ≤ l ∧ l < first + count) || used l

end Descents

/-- The loop that fills `dp_prev_idx` with the ends of `k` groups, the last of which ends at `i`. -/
def fillEnds (prevIdx : Nat → Nat → Nat) : Nat → Nat → (Nat → Nat) → Nat → Nat
  | k + 2, i, ends => fillEnds prevIdx (k + 1) (prevIdx (k + 2) i) (update ends (k + 1) i)
  | _, i, ends => update ends 0 i

/-- The loop over the groups: the next one begins with partition `i`, and its reference is
written at `place`. -/
def joinRefs (startId : Nat) : Nat → Nat → List Nat → (Nat → SubtreeRef) → Nat → SubtreeRef
  | _, _, [], refs => refs
  | place, i, j :: rest, refs =>
    joinRefs startId (place + 1) (j + 1) rest (update refs place
      { refs (startId - 2 + i) with maxoff := (refs (startId - 2 + j)).maxoff, inUse := true })

namespace Descents

section

variable {K : Type} [Field K] [LinearOrder K]

/-- The dynamic program over the new partitions: the segment costs `seg`, and the costs and the
number of the partitions that were there before. -/
def dpParts (s : Descents) (seg : Nat → Nat → K) (stddev : Nat → K) (w : Weights K)
    (memory : Nat → Nat → Nat) : Nat × Tables K :=
  let before := s.unused s.dpStartIdx
  searchParts seg s.parts.currPartitions
    (fun k sigma => w.objective (before.length + k) (sigma + (before.map stddev).sum)) memory

/-- `aqp_continue_descent_dp`.  One group undoes the descent, and as many groups as partitions
leave them.  The estimates of the groups go into arrays of 10000 entries behind those of the
partitions; there is no result if the loop, which does not check it, writes behind them. -/
def continueDescentDP (s : Descents) (seg : Nat → Nat → K) (stddev : Nat → K) (w : Weights K)
    (memory : Nat → Nat → Nat) : Option Descents :=
  let n := s.parts.currPartitions
  let (k, t) := s.dpParts seg stddev w memory
  if k = 1 then
    some { s with dpKPartitions := k
                  used := retire s.dpStartIdx n (update s.used s.splitIdx false) }
  else if k = n then some { s with dpKPartitions := k }
  else if maxRefs < s.phasePartitions + k then none
  else
    some { s with dpKPartitions := k
                  used := retire s.dpStartIdx n s.used
                  dpPrevIdx := fillEnds t.prevIdx k n s.dpPrevIdx
                  phasePartitions := s.phasePartitions + k
                  continueDescentDp := true }

end

/-- `aqp_pswr_set_new_partitions`, up to the next descent. -/
def setNewPartitions (s : Descents) : Option Descents :=
  let total := s.parts.totalPartitions
  if maxRefs < total - 1 + s.dpKPartitions then none
  else
    some { s with
      parts := { s.parts with
        refs := joinRefs s.dpStartIdx (total - 1) 1 ((range s.dpKPartitions).map s.dpPrevIdx)
          s.parts.refs
        totalPartitions := total + s.dpKPartitions }
      phasePartitions := total + s.dpKPartitions
      continueDescentDp := false }

end Descents

/-! ## The ranges of a descent -/

structure Adjacent (blkno count : Nat) (refs : Nat → SubtreeRef) : Prop where
  page : ∀ m < count, (refs m).blkno = blkno
  nonempty : ∀ m < count, (refs m).minoff ≤ (refs m).maxoff
  next : ∀ m, m + 1 < count → (refs m).maxoff + 1 = (refs (m + 1)).minoff

theorem cutRange_adjacent (differs : Nat → Nat → Bool) (count : Nat) (behind : cmin < off) :
    (∀ r ∈ (cutRange differs count cmin off).head?, r.1 = cmin) ∧
      (∀ r ∈ cutRange differs count cmin off, r.1 ≤ r.2) ∧
      (cutRange differs count cmin off).IsChain fun first second => first.2 + 1 = second.1 := by
  induction count generalizing cmin off with
  | zero => simp [cutRange]; omega
  | succ count ih =>
    rw [cutRange]
    split
    · obtain ⟨head, within, chain⟩ := ih (Nat.lt_succ_self off)
      refine ⟨by simp, ?_, ?_⟩
      · simp only [mem_cons, forall_eq_or_imp]
        exact ⟨by omega, within⟩
      · refine isChain_cons.mpr ⟨fun r first => ?_, chain⟩
        rw [head r first]
        omega
    · exact ih (by omega)

theorem writeRanges_get (blkno : Nat) (ranges : List (Nat × Nat)) :
    ∀ place refs m r, ranges[m]? = some r →
      writeRanges blkno place ranges refs (place + m) = (refs (place + m)).setRange blkno r := by
  induction ranges with
  | nil => exact fun _ _ _ _ found => absurd found (by simp)
  | cons range rest ih =>
    intro place refs m r found
    rw [writeRanges]
    cases m with
    | zero =>
      cases found
      have frame := (writeRanges_items blkno rest (place + 1)
        (update refs place ((refs place).setRange blkno range))).1 place (Nat.lt_succ_self _)
      rw [update_self] at frame
      exact frame
    | succ m =>
      rw [show place + (m + 1) = place + 1 + m by omega, ih _ _ m r found, update_of_ne (by omega)]

theorem continuePartition_adjacent {next} {i : Sampling.Index α}
    {cmp : Option α → Option α → Ordering}
    (done : continuePartition i cmp nkeyatts partitionAttno parts place = some (true, next)) :
    next.totalPartitions = parts.totalPartitions + next.currPartitions ∧
      ∃ blkno, Adjacent blkno next.currPartitions
        fun m => next.refs (parts.totalPartitions - 1 + m) := by
  obtain ⟨-, done⟩ := Option.ite_none_left_eq_some.mp done
  obtain ⟨⟨blkno, ranges⟩, cut, done⟩ := Option.bind_eq_some_iff.mp done
  obtain ⟨⟨blkno, page, minoff, maxoff⟩, bounds, cut⟩ := Option.bind_eq_some_iff.mp cut
  cases cut
  dsimp only at done
  split at done
  · cases done
  obtain ⟨-, done⟩ := Option.ite_none_left_eq_some.mp done
  cases done
  refine ⟨rfl, blkno, ?_⟩
  obtain ⟨-, within, chain⟩ := cutRange_adjacent (fun first second => cmp ((page.keyAt first).bind
    fun key => key.attrs[partitionAttno - 1]?) ((page.keyAt second).bind fun key =>
      key.attrs[partitionAttno - 1]?) != .eq) (maxoff - minoff) (Nat.lt_succ_self minoff)
  dsimp only
  generalize cutRange _ (maxoff - minoff) minoff (minoff + 1) = ranges at within chain ⊢
  -- the reference that was split only loses its flag
  have same (m : Nat) (inside : m < ranges.length) (other : SubtreeRef → Nat)
      (flag : ∀ ref used, other { ref with inUse := used } = other ref) :
      other (update (writeRanges blkno (parts.totalPartitions - 1) ranges parts.refs) (place - 1)
        { writeRanges blkno (parts.totalPartitions - 1) ranges parts.refs (place - 1) with
          inUse := false } (parts.totalPartitions - 1 + m)) =
        other ((parts.refs (parts.totalPartitions - 1 + m)).setRange blkno ranges[m]) := by
    rw [update_apply, ← writeRanges_get blkno ranges _ _ m _ (getElem?_eq_getElem inside)]
    split
    next isSplit => rw [flag, isSplit]
    · rfl
  refine ⟨fun m inside => same m inside _ fun _ _ => rfl, fun m inside => ?_, fun m inside => ?_⟩
  · rw [same m inside SubtreeRef.minoff fun _ _ => rfl,
      same m inside SubtreeRef.maxoff fun _ _ => rfl]
    exact within _ (getElem_mem inside)
  · rw [same m (by omega) SubtreeRef.maxoff fun _ _ => rfl,
      same (m + 1) inside SubtreeRef.minoff fun _ _ => rfl]
    exact isChain_iff_getElem.mp chain m inside

/-! ## The joined ranges -/

def groupEnds (groups : List (Nat × Nat)) : List Nat := (groups.map Prod.snd).reverse

/-- The items of the partitions from `group.1` up to `group.2`. -/
def groupItems (items : Nat → List (Nat × Nat)) (group : Nat × Nat) : List (Nat × Nat) :=
  (range' group.1 (group.2 - group.1)).flatMap items

theorem groupItems_append (items : Nat → List (Nat × Nat)) (first : a ≤ b) (second : b ≤ c) :
    groupItems items (a, b) ++ groupItems items (b, c) = groupItems items (a, c) := by
  obtain ⟨front, rfl⟩ := Nat.exists_eq_add_of_le first
  obtain ⟨back, rfl⟩ := Nat.exists_eq_add_of_le second
  rw [groupItems, groupItems, groupItems, ← flatMap_append, Nat.add_sub_cancel_left,
    Nat.add_sub_cancel_left, range'_append_1, Nat.add_assoc, Nat.add_sub_cancel_left]

variable {refs : Nat → SubtreeRef}

theorem Adjacent.joined (adjacent : Adjacent blkno n refs) (some : a ≤ b) (inside : b < n) :
    rangeItems blkno (refs a).minoff (refs b).maxoff =
      groupItems (fun m => (refs m).items) (a, b + 1) := by
  induction b, some using Nat.le_induction with
  | base => simp [groupItems, SubtreeRef.items, adjacent.page a inside]
  | succ b above ih =>
    have pre := ih (by omega)
    have low : (refs a).minoff ≤ (refs b).maxoff := by
      by_contra empty
      have none : rangeItems blkno (refs a).minoff (refs b).maxoff = [] := by
        simp [rangeItems]
        omega
      rw [none, groupItems, show b + 1 - a = b - a + 1 by omega, range'_concat] at pre
      have last := rangeItems_ne_nil (refs b).blkno (adjacent.nonempty b (by omega))
      simp [SubtreeRef.items, show a + (b - a) = b by omega, last] at pre
    have step := adjacent.next b inside
    have this := adjacent.nonempty (b + 1) inside
    rw [← rangeItems_append blkno low (by omega), pre, step,
      ← groupItems_append _ (by omega : a ≤ b + 1) (Nat.le_succ (b + 1))]
    simp [groupItems, SubtreeRef.items, adjacent.page (b + 1) inside]

theorem joinRefs_concat (startId j : Nat) (ends : List Nat) :
    ∀ place i refs, joinRefs startId place i (ends ++ [j]) refs =
      update (joinRefs startId place i ends refs) (place + ends.length)
        { joinRefs startId place i ends refs (startId - 2 + (ends.getLast?.map (· + 1)).getD i) with
          maxoff := (joinRefs startId place i ends refs (startId - 2 + j)).maxoff, inUse := true } := by
  induction ends with
  | nil => exact fun _ _ _ => rfl
  | cons end_ rest ih =>
    intro place i refs
    rw [cons_append, joinRefs, ih, joinRefs, length_cons, Nat.add_comm rest.length, ← Nat.add_assoc]
    cases rest <;> rfl

theorem Splits.groupEnds_eq (splits : Splits k n groups) :
    (groupEnds groups).length = k ∧ (groupEnds groups).getLast? = some n := by
  induction splits with
  | one => exact ⟨rfl, rfl⟩
  | more pre some ih => simpa [groupEnds] using ih.1

theorem Splits.groupItems_flatten (splits : Splits k n groups) (items : Nat → List (Nat × Nat)) :
    (groups.reverse.map (groupItems items)).flatten = groupItems items (0, n) := by
  induction splits with
  | one => simp
  | more pre some ih =>
    rw [reverse_cons, map_append, flatten_append, ih, ← groupItems_append items (Nat.zero_le _) some.le]
    simp

theorem Adjacent.newRef_items (adjacent : Adjacent blkno n fun m => refs (a + 1 + m)) (some : b < k)
    (inside : k ≤ n) : SubtreeRef.items { refs (a + (b + 1)) with
      maxoff := (refs (a + k)).maxoff, inUse := true } =
        groupItems (fun m => (refs (a + 1 + m)).items) (b, k) := by
  obtain ⟨k, rfl⟩ := Nat.exists_eq_add_of_lt some
  have joined := adjacent.joined (by omega : b ≤ b + k) (by omega)
  have page := adjacent.page b (by omega)
  rw [← Nat.add_right_comm a b 1, Nat.add_assoc] at joined page
  rw [← joined, SubtreeRef.items, page, Nat.add_right_comm a 1]
  rfl

/-- The references that are read stand before those that are written. -/
theorem Splits.joinRefs_items (splits : Splits k b groups)
    (adjacent : Adjacent blkno n fun m => refs (a + 1 + m)) (inside : b ≤ n)
    (place : Nat) (room : a + 1 + n ≤ place) :
    (∀ other < place, joinRefs (a + 2) place 1 (groupEnds groups) refs other = refs other) ∧
      (range k).map (fun new =>
        (joinRefs (a + 2) place 1 (groupEnds groups) refs (place + new)).items) =
          groups.reverse.map (groupItems fun m => (refs (a + 1 + m)).items) := by
  induction splits with
  | one some =>
    refine ⟨fun other less => update_of_ne less.ne _ _, ?_⟩
    have first := adjacent.newRef_items some inside
    simpa [joinRefs, groupEnds] using first
  | @more k j rest i pre some ih =>
    obtain ⟨frame, items⟩ := ih (by omega)
    obtain ⟨length, last⟩ := pre.groupEnds_eq
    have ends : groupEnds ((j, i) :: rest) = groupEnds rest ++ [i] := by simp [groupEnds]
    have group := adjacent.newRef_items some inside
    rw [ends, joinRefs_concat, length, last, Option.map_some, Option.getD_some, Nat.add_sub_cancel,
      frame (a + (j + 1)) (by omega), frame (a + i) (by omega)]
    refine ⟨fun other less => ?_, ?_⟩
    · rw [update_of_ne (by omega), frame other less]
    · rw [range_succ, map_append, reverse_cons, map_append, ← items]
      congr 1
      · refine map_congr_left fun new isIn => ?_
        rw [update_of_ne (by have := mem_range.mp isIn; omega)]
      · simpa using group

/-! ## The groups of the dynamic program -/

theorem fillEnds_other (prevIdx : Nat → Nat → Nat) (k i : Nat) (ends : Nat → Nat)
    (behind : k ≤ m) (some : 0 < m) : fillEnds prevIdx k i ends m = ends m := by
  induction k, i, ends using fillEnds.induct prevIdx with
  | case1 k i ends ih => rw [fillEnds, ih (by omega), update_of_ne (by omega)]
  | case2 k i ends few => rw [fillEnds.eq_2 _ _ _ _ few, update_of_ne (by omega)]

theorem fillEnds_eq (prevIdx : Nat → Nat → Nat) (k i : Nat) (ends : Nat → Nat) :
    (range (k + 1)).map (fillEnds prevIdx (k + 1) i ends) =
      groupEnds (groupsOf prevIdx (k + 1) i) := by
  induction k generalizing i ends with
  | zero => simp [fillEnds, groupsOf, groupEnds]
  | succ k ih =>
    rw [range_succ, map_append, fillEnds, ih, groupsOf, map_singleton,
      fillEnds_other _ _ _ _ le_rfl (Nat.succ_pos k), update_self]
    simp [groupEnds]

namespace Descents

variable {s next : Descents}

/-- The references and the estimates count the same partitions, and no entry behind them was
ever taken out of use. -/
structure Tidy (s : Descents) : Prop where
  counted : s.phasePartitions = s.parts.totalPartitions
  some : 2 ≤ s.parts.totalPartitions
  fresh : ∀ l, s.parts.totalPartitions ≤ l → s.used l = false

/-- In place of the partition `index`, which was cut into those of `next`, `final` has one
partition for each group. -/
structure Regrouped (s next final : Descents) (index k : Nat) (groups : List (Nat × Nat)) :
    Prop where
  splits : Splits k next.parts.currPartitions groups
  live : final.live = s.live.filter (· ≠ index) ++ range' next.parts.totalPartitions k
  items : (range' next.parts.totalPartitions k).map final.items =
    groups.reverse.map (groupItems fun new => next.items (s.parts.totalPartitions + new))
  whole : ((range' next.parts.totalPartitions k).map final.items).flatten =
    (s.parts.added next.parts).flatten
  once : ((range' next.parts.totalPartitions k).map final.items).flatten.Nodup
  tidy : final.Tidy

theorem continueDescent_spec {i : Sampling.Index α} {cmp : Option α → Option α → Ordering}
    (done : s.continueDescent i cmp nkeyatts partitionAttno index = some (true, next)) :
    continuePartition i cmp nkeyatts partitionAttno s.parts index = some (true, next.parts) ∧
      next.used = update s.used index true ∧ next.dpStartIdx = s.phasePartitions ∧
      next.phasePartitions = next.parts.totalPartitions := by
  obtain ⟨⟨found, parts⟩, cut, res⟩ := Option.map_eq_some_iff.mp done
  cases found <;> cases res
  exact ⟨cut, rfl, rfl, rfl⟩

theorem live_regrouped (tidy : s.Tidy) (inside : index < s.parts.totalPartitions) (n k : Nat) :
    (range' 1 (s.parts.totalPartitions + n + k - 1)).filter (fun l =>
        !retire s.parts.totalPartitions n (update s.used index true) l) =
      s.live.filter (· ≠ index) ++ range' (s.parts.totalPartitions + n) k := by
  have some := tidy.some
  have parts : range' 1 (s.parts.totalPartitions + n + k - 1) =
      range' 1 (s.parts.totalPartitions - 1) ++
        (range' s.parts.totalPartitions n ++ range' (s.parts.totalPartitions + n) k) := by
    rw [range'_append_1, show s.parts.totalPartitions + n + k - 1 =
      s.parts.totalPartitions - 1 + (n + k) by omega, ← range'_append_1,
      show 1 + (s.parts.totalPartitions - 1) = s.parts.totalPartitions by omega]
  rw [parts, filter_append, filter_append, live, unused, filter_filter]
  congr 1
  · refine filter_congr fun l isIn => ?_
    have low := mem_range'_1.mp isIn
    rw [retire, decide_eq_false (by omega), Bool.false_or, update_apply]
    by_cases cut : l = index <;> simp [cut]
  · have gone : (range' s.parts.totalPartitions n).filter (fun l =>
        !retire s.parts.totalPartitions n (update s.used index true) l) = [] := by
      refine filter_eq_nil_iff.mpr fun l isIn => ?_
      have := mem_range'_1.mp isIn
      simp [retire, this]
    have stay : (range' (s.parts.totalPartitions + n) k).filter (fun l =>
        !retire s.parts.totalPartitions n (update s.used index true) l) =
          range' (s.parts.totalPartitions + n) k := by
      refine filter_eq_self.mpr fun l isIn => ?_
      have high := mem_range'_1.mp isIn
      rw [retire, decide_eq_false (by omega), Bool.false_or, update_of_ne (by omega),
        tidy.fresh l (by omega)]
      rfl
    rw [gone, stay, nil_append]

theorem regrouped_of_splits (tidy : s.Tidy) (inside : index < s.parts.totalPartitions)
    {i : Sampling.Index α} {cmp : Option α → Option α → Ordering}
    (cut : continuePartition i cmp nkeyatts partitionAttno s.parts index = some (true, next.parts))
    (splits : Splits k next.parts.currPartitions groups)
    (refs : final.parts.refs = joinRefs s.parts.totalPartitions (next.parts.totalPartitions - 1) 1
      (groupEnds groups) next.parts.refs)
    (total : final.parts.totalPartitions = next.parts.totalPartitions + k)
    (used : final.used = retire s.parts.totalPartitions next.parts.currPartitions
      (update s.used index true))
    (counted : final.phasePartitions = final.parts.totalPartitions) :
    s.Regrouped next final index k groups := by
  obtain ⟨more, blkno, adjacent⟩ := continuePartition_adjacent cut
  obtain ⟨_, _, minoff, maxoff, -, -, all, -⟩ := continuePartition_added cut
  obtain ⟨first, start⟩ := Nat.exists_eq_add_of_le' tidy.some
  have isFirst : s.parts.totalPartitions - 1 = first + 1 := by omega
  have joined : (range' next.parts.totalPartitions k).map final.items =
      groups.reverse.map (groupItems fun new => next.items (s.parts.totalPartitions + new)) := by
    rw [isFirst] at adjacent
    have items := (splits.joinRefs_items adjacent le_rfl (next.parts.totalPartitions - 1)
      (by omega)).2
    rw [← start, ← refs] at items
    rw [range'_eq_map_range, map_map]
    refine Eq.trans (map_congr_left fun new _ => ?_) (items.trans ?_)
    · rw [comp_apply, Descents.items, Nat.sub_add_comm (by omega)]
    · refine map_congr_left fun group _ => congrArg (groupItems · group) (funext fun new => ?_)
      rw [Descents.items, Nat.sub_add_comm (by omega), isFirst]
  have whole : ((range' next.parts.totalPartitions k).map final.items).flatten =
      (s.parts.added next.parts).flatten := by
    rw [joined, splits.groupItems_flatten, Partitions.added, groupItems, Nat.sub_zero,
      range_eq_range', flatMap_def]
    refine congrArg flatten (map_congr_left fun new _ => ?_)
    rw [Descents.items, Nat.sub_add_comm (by omega)]
  refine ⟨splits, ?_, joined, whole, ?_, counted, by omega, fun l behind => ?_⟩
  · rw [live, unused, total, used, more]
    exact live_regrouped tidy inside _ _
  · rw [whole, all, rangeItems]
    exact Nodup.map (fun _ _ same => (Prod.mk.inj same).2) nodup_range'
  · rw [used, retire, decide_eq_false (by omega), Bool.false_or, update_of_ne (by omega),
      tidy.fresh l (by omega)]

variable {α K : Type} [Field K] [LinearOrder K] [IsStrictOrderedRing K]

/-- If the dynamic program joins partitions, but not all of them, and the arrays have room for the
groups, every group becomes one partition with exactly the items of the group.  Together they
have the items of the descent, each of them once and in order, and the partitions of the descent
are taken out of use. -/
theorem newPartitions_cover_iff {i : Sampling.Index α} {cmp : Option α → Option α → Ordering}
    {nkeyatts partitionAttno index : Nat} (seg : Nat → Nat → K) (stddev : Nat → K) (w : Weights K)
    (memory : Nat → Nat → Nat) (tidy : s.Tidy) (inside : index < s.parts.totalPartitions)
    (done : s.continueDescent i cmp nkeyatts partitionAttno index = some (true, next))
    (joins : 1 < (next.dpParts seg stddev w memory).1)
    (notAll : (next.dpParts seg stddev w memory).1 < next.parts.currPartitions) :
    (∃ grouped final, next.continueDescentDP seg stddev w memory = some grouped ∧
        grouped.setNewPartitions = some final ∧
        s.Regrouped next final index (next.dpParts seg stddev w memory).1
          (groupsOf (next.dpParts seg stddev w memory).2.prevIdx
            (next.dpParts seg stddev w memory).1 next.parts.currPartitions)) ↔
      next.parts.totalPartitions + (next.dpParts seg stddev w memory).1 ≤ maxRefs := by
  obtain ⟨cut, used, start, counted⟩ := continueDescent_spec done
  have splits := (searchParts_spec seg (fun k sigma => w.objective
    ((next.unused next.dpStartIdx).length + k)
    (sigma + ((next.unused next.dpStartIdx).map stddev).sum)) memory
    (show 0 < next.parts.currPartitions by omega)).2.splits
  change Splits (next.dpParts seg stddev w memory).1 _ (groupsOf
    (next.dpParts seg stddev w memory).2.prevIdx (next.dpParts seg stddev w memory).1 _) at splits
  unfold continueDescentDP
  generalize next.dpParts seg stddev w memory = found at joins notAll splits ⊢
  obtain ⟨k, t⟩ := found
  dsimp only at joins notAll splits ⊢
  rw [if_neg (by omega), if_neg (by omega), counted]
  split
  next large => exact iff_of_false (fun ⟨_, _, made, _⟩ => nomatch made) (by omega)
  next fits =>
    have room : ¬maxRefs < next.parts.totalPartitions - 1 + k := by omega
    refine iff_of_true ⟨_, _, rfl, if_neg room, ?_⟩ (by omega)
    obtain ⟨k, rfl⟩ := Nat.exists_eq_add_of_le' (show 1 ≤ k by omega)
    refine regrouped_of_splits tidy inside cut splits ?_ rfl ?_ rfl
    · rw [fillEnds_eq, start, tidy.counted]
    · rw [start, tidy.counted, used]

def threePivots : Sampling.Index Nat where
  root := some 1
  pages blkno := if blkno = 1 then
      some ⟨.internal [⟨⟨[], none⟩, 2, 5⟩, ⟨⟨[3], none⟩, 3, 5⟩, ⟨⟨[6], none⟩, 4, 5⟩], none, 1, false,
        Nat.le_of_ble_eq_true rfl⟩
    else none

/-- Only partition 1, with the pivots of the root, is in use. -/
def rootPartition (total : Nat) : Descents where
  parts := ⟨fun _ => ⟨1, 1, 3, 1, true⟩, total, 1, 1⟩
  used l := decide (1 < l ∧ l < total)
  phasePartitions := total
  dpStartIdx := 0
  splitIdx := 0
  dpPrevIdx := fun _ => 0
  dpKPartitions := 0
  continueDescentDp := false

/-- Costs where two of three partitions are best joined. -/
def valley (j i : Nat) : ℚ := if i - j = 2 then 0 else if i - j = 1 then 3 else 4

/-- The second and the third pivot are joined. -/
theorem three_pivots_regrouped : ∃ next grouped final,
    (rootPartition 2).continueDescent threePivots compare 1 1 1 = some (true, next) ∧
      next.continueDescentDP valley (fun _ => 1) ⟨1, 1⟩ (fun _ _ => 0) = some grouped ∧
      grouped.setNewPartitions = some final ∧ final.live = [5, 6] ∧
      [5, 6].map final.items = [[(1, 1)], [(1, 2), (1, 3)]] := by
  obtain ⟨next, done⟩ : ∃ next,
    (rootPartition 2).continueDescent threePivots compare 1 1 1 = some (true, next) := ⟨_, rfl⟩
  have groups : (next.dpParts valley (fun _ => 1) ⟨1, 1⟩ (fun _ _ => 0)).1 = 2 ∧
      next.parts.currPartitions = 3 ∧ next.parts.totalPartitions = 5 ∧
      (groupsOf (next.dpParts valley (fun _ => 1) ⟨1, 1⟩ (fun _ _ => 0)).2.prevIdx 2 3).reverse.map
        (groupItems fun new => next.items (2 + new)) = [[(1, 1)], [(1, 2), (1, 3)]] := by
    cases done
    decide +kernel
  obtain ⟨isK, isN, isTotal, items⟩ := groups
  have tidy : (rootPartition 2).Tidy :=
    ⟨rfl, le_rfl, fun l behind => decide_eq_false fun within => by
      have : 2 ≤ l := behind
      omega⟩
  obtain ⟨grouped, final, isGrouped, isFinal, regrouped⟩ :=
    (newPartitions_cover_iff valley (fun _ => 1) ⟨1, 1⟩ (fun _ _ => 0) tidy (by decide) done
      (by omega) (by omega)).mpr (by rw [isTotal, isK]; decide)
  have live := regrouped.live
  have made := regrouped.items
  rw [isK, isTotal] at live made
  rw [isN] at made
  exact ⟨next, grouped, final, done, isGrouped, isFinal, live, made.trans items⟩

/-- The references of the descent still fit, the estimates of the groups do not. -/
theorem full_arrays_overrun : ∃ next,
    (rootPartition 9997).continueDescent threePivots compare 1 1 1 = some (true, next) ∧
      next.parts.currPartitions = 3 ∧
      (next.dpParts valley (fun _ => 1) ⟨1, 1⟩ (fun _ _ => 0)).1 = 2 ∧
      next.continueDescentDP valley (fun _ => 1) ⟨1, 1⟩ (fun _ _ => 0) = none := by
  obtain ⟨next, done⟩ : ∃ next,
    (rootPartition 9997).continueDescent threePivots compare 1 1 1 = some (true, next) := ⟨_, rfl⟩
  have groups : next.parts.currPartitions = 3 ∧ next.phasePartitions = 10000 ∧
      (next.dpParts valley (fun _ => 1) ⟨1, 1⟩ (fun _ _ => 0)).1 = 2 := by
    cases done
    decide +kernel
  obtain ⟨isN, isTotal, isK⟩ := groups
  refine ⟨next, done, isN, isK, ?_⟩
  unfold continueDescentDP
  simp [isK, isN, isTotal, maxRefs]

end Descents

end PgAqp.Progressive
