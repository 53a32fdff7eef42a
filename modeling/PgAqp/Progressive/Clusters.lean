import PgAqp.Progressive.Stratify

/-!
# Clusters of sampled keys

After the first phase of a scan with a second predicate, `aqp_statis_dpinfo` turns the
keys it has sampled into intervals, at most a hundred, and `minimizethecost` joins
neighbouring intervals to clusters.
-/

namespace PgAqp.Progressive

open List Function

/-! ## From keys to intervals -/

/-- A node of the tree of sampled keys.  A node is made for a sample. -/
structure DpInfoTreeNode (κ : Type) where
  key : κ
  countP1 : Nat
  countP1P2 : Nat
  counted : 0 < countP1

structure DpInfo (κ : Type) where
  lowerKey : Option κ
  upperKey : Option κ
  countP1 : Nat
  countP1P2 : Nat

namespace DpInfo

variable {κ : Type}

def zero : DpInfo κ := ⟨none, none, 0, 0⟩

/-- The entry for one key. -/
def ofNode (node : DpInfoTreeNode κ) : DpInfo κ :=
  ⟨some node.key, some node.key, node.countP1, node.countP1P2⟩

/-- The body of the loop for the key at place `i`. -/
def add (per i : Nat) (node : DpInfoTreeNode κ) (interval : DpInfo κ) : DpInfo κ where
  lowerKey := if i % per = 0 then some node.key else interval.lowerKey
  upperKey := if i % per ≠ 0 ∧ i % per = per - 1 then some node.key else interval.upperKey
  countP1 := interval.countP1 + node.countP1
  countP1P2 := interval.countP1P2 + node.countP1P2

def has [LinearOrder κ] (key : κ) (interval : DpInfo κ) : Bool :=
  interval.lowerKey.any (· ≤ key) && interval.upperKey.any (key ≤ ·)

end DpInfo

section

variable {κ : Type}

/-- The loop over the keys, from place `i` on.  It returns `info_interval` and `count_interval`. -/
def fillIntervals (per : Nat) :
    Nat → List (DpInfoTreeNode κ) → (Nat → DpInfo κ) → Nat → (Nat → DpInfo κ) × Nat
  | _, [], ivs, count => (ivs, count)
  | i, node :: rest, ivs, _ =>
    fillIntervals per (i + 1) rest
      (update ivs (i / per) ((ivs (i / per)).add per i node)) (i / per)

/-- What `aqp_statis_dp_calculate` is given, if an interval has `per` keys. -/
def statisDpinfo (per : Nat) (nodes : List (DpInfoTreeNode κ)) : List (DpInfo κ) :=
  if nodes.length < 100 then nodes.map .ofNode
  else
    let (ivs, count) := fillIntervals per 0 nodes (fun _ => .zero) 0
    (range count).map ivs

/-- Every key is in one interval, every interval has its bounds, and no sample is lost. -/
structure Describes [LinearOrder κ] (nodes : List (DpInfoTreeNode κ))
    (ivs : List (DpInfo κ)) : Prop where
  once : ∀ node ∈ nodes, ivs.countP (·.has node.key) = 1
  bounds : ∀ interval ∈ ivs, interval.lowerKey.isSome ∧ interval.upperKey.isSome
  samples : (ivs.map (·.countP1)).sum = (nodes.map (·.countP1)).sum

theorem ofNode_describes [LinearOrder κ] {nodes : List (DpInfoTreeNode κ)}
    (sorted : nodes.Pairwise (·.key < ·.key)) : Describes nodes (nodes.map .ofNode) where
  once := by
    intro node isIn
    have diff : (nodes.map (·.key)).Nodup := pairwise_map.mpr (sorted.imp fun less => less.ne)
    rw [countP_map]
    have counted := count_eq_one_of_mem diff (mem_map_of_mem isIn)
    rw [count, countP_map] at counted
    rw [← counted]
    refine countP_congr fun other _ => ?_
    simp only [DpInfo.has, DpInfo.ofNode, comp_apply, Option.any_some, Bool.and_eq_true,
      decide_eq_true_eq, beq_iff_eq]
    exact le_antisymm_iff.symm
  bounds := by
    intro interval isIn
    obtain ⟨node, -, rfl⟩ := mem_map.mp isIn
    exact ⟨rfl, rfl⟩
  samples := by rw [map_map]; rfl

variable {ivs : Nat → DpInfo κ}

/-- The samples of the first `n` intervals. -/
def samplesBelow (ivs : Nat → DpInfo κ) (n : Nat) : Nat :=
  ((range n).map fun j => (ivs j).countP1).sum

theorem samplesBelow_add (i : Nat) (node : DpInfoTreeNode κ) (inside : i / per < n) :
    samplesBelow (update ivs (i / per) ((ivs (i / per)).add per i node)) n =
      samplesBelow ivs n + node.countP1 := by
  induction n with
  | zero => exact absurd inside (Nat.not_lt_zero _)
  | succ n ih =>
    have last (ivs : Nat → DpInfo κ) :
        samplesBelow ivs (n + 1) = samplesBelow ivs n + (ivs n).countP1 := by
      simp [samplesBelow, range_succ]
    rw [last, last]
    rcases Nat.lt_or_eq_of_le (Nat.le_of_lt_succ inside) with below | here
    · rw [ih below, update_of_ne below.ne']
      omega
    · have others : samplesBelow (update ivs (i / per)
          ((ivs (i / per)).add per i node)) n = samplesBelow ivs n := by
        refine congrArg sum (map_congr_left fun j isIn => ?_)
        rw [update_of_ne (here ▸ (mem_range.mp isIn).ne)]
      rw [others, here, update_self, DpInfo.add, Nat.add_assoc]

/-- All samples are in the intervals up to the last one, which has some of them. -/
theorem fillIntervals_samples (per : Nat) (ivs : Nat → DpInfo κ) (nonempty : nodes ≠ [])
    (i count : Nat) :
    samplesBelow (fillIntervals per i nodes ivs count).1
        ((fillIntervals per i nodes ivs count).2 + 1) =
      samplesBelow ivs ((fillIntervals per i nodes ivs count).2 + 1) + (nodes.map (·.countP1)).sum ∧
      i / per ≤ (fillIntervals per i nodes ivs count).2 ∧
      0 < ((fillIntervals per i nodes ivs count).1
        (fillIntervals per i nodes ivs count).2).countP1 := by
  induction nodes generalizing ivs i count with
  | nil => exact absurd rfl nonempty
  | cons node rest ih =>
    rw [fillIntervals]
    rcases eq_or_ne rest [] with rfl | some
    · refine ⟨?_, le_rfl, ?_⟩
      · simpa [fillIntervals] using samplesBelow_add i node (Nat.lt_succ_self _)
      · simp only [fillIntervals, update_self, DpInfo.add]
        exact Nat.add_pos_right _ node.counted
    · obtain ⟨sum, later, positive⟩ := ih _ some (i + 1) (i / per)
      have pre := (Nat.div_le_div_right (Nat.le_succ i)).trans later
      refine ⟨?_, pre, positive⟩
      rw [sum, samplesBelow_add i node (Nat.lt_succ_of_le pre), map_cons, sum_cons, Nat.add_assoc]

end

/-- The last interval is never handed on, so only fewer than a hundred keys are described. -/
theorem statisDpinfo_describes_iff {κ : Type} [LinearOrder κ] (per : Nat)
    (nodes : List (DpInfoTreeNode κ)) (sorted : nodes.Pairwise (·.key < ·.key)) :
    Describes nodes (statisDpinfo per nodes) ↔ nodes.length < 100 := by
  constructor
  · intro describes
    by_contra many
    have nonempty : nodes ≠ [] := length_pos_iff.mp (by omega)
    obtain ⟨sum, -, positive⟩ :=
      fillIntervals_samples per (fun _ => .zero) nonempty 0 0
    have all := describes.samples
    rw [statisDpinfo, if_neg many, map_map] at all
    have none (n : Nat) : samplesBelow (fun _ => (DpInfo.zero : DpInfo κ)) n = 0 := by
      simp [samplesBelow, DpInfo.zero]
    rw [none, samplesBelow, range_succ, map_append, sum_append] at sum
    change ((range _).map fun j => _).sum = _ at all
    simp only [map_cons, map_nil, sum_cons, sum_nil] at sum
    simp only [comp_apply] at all
    omega
  · intro few
    rw [statisDpinfo, if_pos few]
    exact ofNode_describes sorted

/-- `n` keys with one sample each. -/
def distinctKeys (n : Nat) : List (DpInfoTreeNode Nat) := (range n).map (⟨·, 1, 0, Nat.one_pos⟩)

theorem three_keys_described : Describes (distinctKeys 3) (statisDpinfo 1 (distinctKeys 3)) :=
  (statisDpinfo_describes_iff 1 (distinctKeys 3) (by decide)).mpr (by decide)

/-- A hundred keys, two in an interval: of fifty intervals, 49 are handed on. -/
theorem hundred_keys_lost : (statisDpinfo (100 / 100 + 1) (distinctKeys 100)).length = 49 ∧
    ((statisDpinfo (100 / 100 + 1) (distinctKeys 100)).map (·.countP1)).sum = 98 ∧
    (statisDpinfo (100 / 100 + 1) (distinctKeys 100)).countP (·.has 99) = 0 := by
  decide +kernel

/-! ## From intervals to clusters -/

section

variable {K : Type} [Field K] [LinearOrder K] (seg : Nat → Nat → K)

/-- The row of `dp` and `index` for one cluster more.  Every entry is computed from the row
before. -/
def clusterRow (k : Nat) (t : Tables K) : Tables K :=
  ⟨fun i => (t.place seg k i).cost i, fun k' i => (t.place seg k i).prevIdx k' i⟩

/-- The rows up to `m + 1` clusters; `index` is zero at first. -/
def clusterRows : Nat → Tables K
  | 0 => onePart seg fun _ _ => 0
  | m + 1 => clusterRow seg (m + 1) (clusterRows m)

/-- The number `outputcnt` of clusters and `dpoutput`, the last cluster first.  With four
intervals or more the loop ends in the fourth row, and three clusters are made. -/
def minimizethecost (n : Nat) : Nat × List (Nat × Nat) :=
  let kn := if 4 ≤ n then 3 else n
  let res := groupsOf (clusterRows seg (min n 4 - 1)).prevIdx kn n
  let cal := totalCost seg res
  (if cal = 0 then 1 else kn, res)

variable {seg}

theorem Splits.length (splits : Splits k i groups) : groups.length = k := by
  induction splits with
  | one => rfl
  | more pre some ih => rw [length_cons, ih]

theorem Splits.eq_whole (splits : Splits 1 i groups) : groups = [(0, i)] := by
  cases splits with
  | one => rfl
  | more pre => exact absurd pre.le.1 (by omega)

theorem place_rows (t : Tables K) (i : Nat) (small : k' ≤ k) :
    (t.place seg k i).prevIdx k' = t.prevIdx k' := by
  unfold Tables.place
  split
  · rfl
  · exact update_of_ne (by omega) _ _

theorem clusterRow_groups (t : Tables K) (i : Nat) (small : k' ≤ k) :
    groupsOf (clusterRow seg k t).prevIdx k' i = groupsOf t.prevIdx k' i :=
  groupsOf_congr (fun _ smaller => funext fun i => congrFun (place_rows t i (smaller.trans small)) i) i

variable [IsStrictOrderedRing K]

theorem clusterRows_optimal (m : Nat) (enough : m + 1 ≤ i) :
    OptimalAt seg (clusterRows seg m) (m + 1) i := by
  induction m generalizing i with
  | zero => exact onePart_optimal _ enough
  | succ m ih =>
    have placed : OptimalAt seg ((clusterRows seg m).place seg (m + 1) i) (m + 2) i :=
      place_optimal (fun _ low _ => ih low) (by omega) enough
    refine placed.congr rfl ?_
    -- the pointer at `i` is that of the new row, those behind it are older
    have older (j : Nat) : groupsOf (clusterRow seg (m + 1) (clusterRows seg m)).prevIdx (m + 1) j =
        groupsOf ((clusterRows seg m).place seg (m + 1) i).prevIdx (m + 1) j := by
      rw [clusterRow_groups _ _ le_rfl]
      exact groupsOf_congr (fun _ small => (place_rows _ i small).symm) j
    rw [groupsOf, groupsOf, clusterRows, older]
    rfl

theorem minimizethecost_result (seg : Nat → Nat → K) (n : Nat) (some : 0 < n) :
    ∃ t : Tables K, OptimalAt seg t (min n 3) n ∧
      (minimizethecost seg n).2 = groupsOf t.prevIdx (min n 3) n := by
  rcases Nat.lt_or_ge n 4 with few | many
  · obtain ⟨m, rfl⟩ := Nat.exists_eq_add_of_le' some
    refine ⟨clusterRows seg m, ?_, ?_⟩
    · rw [Nat.min_eq_left (by omega)]
      exact clusterRows_optimal m le_rfl
    · change groupsOf (clusterRows seg (min (m + 1) 4 - 1)).prevIdx (if 4 ≤ m + 1 then 3 else _) _ = _
      rw [if_neg (by omega), Nat.min_eq_left (by omega), Nat.min_eq_left (by omega)]
      rfl
  · refine ⟨clusterRows seg 2, ?_, ?_⟩
    · rw [Nat.min_eq_right (by omega)]
      exact clusterRows_optimal 2 (by omega)
    · change groupsOf (clusterRows seg (min n 4 - 1)).prevIdx (if 4 ≤ n then 3 else n) n = _
      rw [if_pos many, Nat.min_eq_right many, Nat.min_eq_right (by omega)]
      exact clusterRow_groups _ n le_rfl

end

/-- If all samples of the clusters agree, the count 1 is a flag: only the last cluster would be read. -/
theorem minimizethecost_optimal_iff {K : Type} [Field K] [LinearOrder K] [IsStrictOrderedRing K]
    (seg : Nat → Nat → K) (n : Nat) :
    (Splits (minimizethecost seg n).1 n ((minimizethecost seg n).2.take (minimizethecost seg n).1) ∧
        ∀ groups, Splits (minimizethecost seg n).1 n groups →
          totalCost seg ((minimizethecost seg n).2.take (minimizethecost seg n).1) ≤
            totalCost seg groups) ↔
      n = 1 ∨ 2 ≤ n ∧ leastCost seg n (min n 3) ≠ 0 := by
  rcases Nat.eq_zero_or_pos n with rfl | some
  · refine ⟨fun optimal => absurd optimal.1.le ?_, by omega⟩
    simp [minimizethecost, groupsOf, totalCost]
  obtain ⟨t, optimal, res⟩ := minimizethecost_result seg n some
  have count : (minimizethecost seg n).1 = if leastCost seg n (min n 3) = 0 then 1 else min n 3 := by
    have kn : (if 4 ≤ n then 3 else n) = min n 3 := by split <;> omega
    rw [optimal.leastCost_eq, ← optimal.cost, ← res, ← kn]
    rfl
  have whole : Splits (min n 3) n ((minimizethecost seg n).2.take (min n 3)) ∧
      ∀ groups, Splits (min n 3) n groups →
        totalCost seg ((minimizethecost seg n).2.take (min n 3)) ≤ totalCost seg groups := by
    rw [res, take_of_length_le optimal.splits.length.le, optimal.cost]
    exact ⟨optimal.splits, optimal.least⟩
  rw [count]
  split
  next zero =>
    rcases Nat.lt_or_eq_of_le some with several | one
    · refine ⟨fun one => ?_, fun good => ?_⟩
      · obtain ⟨k, isKn⟩ : ∃ k, min n 3 = k + 2 := Nat.exists_eq_add_of_le' (by omega)
        have splits := optimal.splits
        rw [res, isKn] at one
        rw [isKn] at splits
        cases splits with
        | more pre =>
          have positive := pre.le
          have first := congrArg (·.map Prod.fst) one.1.eq_whole
          simp [groupsOf] at first
          omega
      · exact absurd zero (good.resolve_left (by omega)).2
    · refine iff_of_true ?_ (.inl one.symm)
      have kn : min n 3 = 1 := by omega
      rw [kn] at whole
      exact whole
  next positive =>
    exact iff_of_true whole (by
      rcases Nat.lt_or_eq_of_le some with several | one
      · exact .inr ⟨several, positive⟩
      · exact .inl one.symm)

/-- Three intervals of some cost are three clusters. -/
theorem three_costly_clusters :
    minimizethecost (fun _ _ => (1 : ℚ)) 3 = (3, [(2, 3), (1, 2), (0, 1)]) ∧
      Splits 3 3 [(2, 3), (1, 2), (0, 1)] := by
  have made : minimizethecost (fun _ _ => (1 : ℚ)) 3 = (3, [(2, 3), (1, 2), (0, 1)]) := by
    decide +kernel
  have least : OptimalAt (fun _ _ => (1 : ℚ)) (clusterRows _ 2) 3 3 := clusterRows_optimal 2 le_rfl
  have costly : leastCost (fun _ _ => (1 : ℚ)) 3 3 ≠ 0 :=
    least.leastCost_eq.trans_ne (by decide +kernel)
  have optimal := (minimizethecost_optimal_iff (fun _ _ => (1 : ℚ)) 3).mpr (.inr ⟨by decide, costly⟩)
  rw [made] at optimal
  exact ⟨made, optimal.1⟩

/-- Two intervals without cost: two clusters are made, and only the second is reported. -/
theorem zero_cost_lost : minimizethecost (fun _ _ => (0 : ℚ)) 2 = (1, [(1, 2), (0, 1)]) ∧
    ¬Splits 1 2 [(1, 2)] :=
  ⟨by decide +kernel, fun splits => absurd splits.eq_whole (by decide)⟩

end PgAqp.Progressive
