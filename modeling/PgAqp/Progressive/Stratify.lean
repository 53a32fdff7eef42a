import Mathlib

/-!
# Stratification by dynamic programming

`aqp_gpsa_compute_metainfo` joins neighbouring intervals to the parts of the next
phase.  For one more part at a time it computes the least costs of all prefixes,
in place and with back pointers, and it stops when the objective is no longer
below that of one part.
-/

namespace PgAqp.Progressive

open List Function

/-- Contiguous nonempty groups `(lower, upper]` of the first `i` intervals, the last one first. -/
inductive Splits : Nat → Nat → List (Nat × Nat) → Prop where
  | one (some : 0 < i) : Splits 1 i [(0, i)]
  | more (pre : Splits k j groups) (some : j < i) : Splits (k + 1) i ((j, i) :: groups)

theorem Splits.le (splits : Splits k i groups) : 1 ≤ k ∧ k ≤ i := by
  induction splits with
  | one some => exact ⟨le_rfl, some⟩
  | more pre some ih => omega

variable {K : Type} [Field K] [LinearOrder K]

/-- `gpsa_opt_cost` and `gpsa_opt_prev_idx`.  The cost of the first `i` intervals is entry `i - 1`
of its array, and the back pointers for `k` parts are row `k - 2`. -/
structure Tables (K : Type) where
  cost : Nat → K
  prevIdx : Nat → Nat → Nat

/-- `var_coefficient` and `aqp_dp_linear_coefficient`. -/
structure Weights (K : Type) where
  varCoefficient : K
  perPartCost : K

def Weights.objective (w : Weights K) (k : Nat) (sigma : K) : K :=
  w.varCoefficient * sigma * (w.varCoefficient * sigma) + w.perPartCost * k

variable (seg : Nat → Nat → K)

def totalCost (groups : List (Nat × Nat)) : K := (groups.map fun group => seg group.1 group.2).sum

/-- The cost of the first `i` intervals, if the last part begins behind interval `j`. -/
def candidate (cost : Nat → K) (i j : Nat) : K := seg j i + cost j

/-- The loop over `j` for one part more than `k`; it keeps the first `j` of least cost. -/
def Tables.place (k i : Nat) (t : Tables K) : Tables K :=
  match (range' k (i - k)).argmin (candidate seg t.cost i) with
  | none => t
  | some j =>
    ⟨update t.cost i (candidate seg t.cost i j),
      update t.prevIdx (k + 1) (update (t.prevIdx (k + 1)) i j)⟩

/-- The loop over `i`, from the longest prefix down to `k + 1`. -/
def sweep (k : Nat) : Nat → Tables K → Tables K
  | 0, t => t
  | steps + 1, t => sweep k steps (t.place seg k (k + 1 + steps))

variable (n : Nat)

/-- All costs for one part more. -/
def nextLayer (k : Nat) (t : Tables K) : Tables K :=
  sweep seg k (n - 1 - k) (t.place seg k n)

def tryParts (objective : Nat → K → K) (minCost : K) : Nat → Nat → Tables K → Nat × Tables K
  | 0, k, t => (k, t)
  | fuel + 1, k, t =>
    if minCost ≤ objective (k + 1) ((t.place seg k n).cost n) then
      (k, ⟨t.cost, (t.place seg k n).prevIdx⟩)
    else tryParts objective minCost fuel (k + 1) (nextLayer seg n k t)

/-- One part.  The back pointers are what the memory holds. -/
def onePart (memory : Nat → Nat → Nat) : Tables K := ⟨seg 0, memory⟩

/-- The tables for `m + 1` parts. -/
def layer (memory : Nat → Nat → Nat) : Nat → Tables K
  | 0 => onePart seg memory
  | m + 1 => nextLayer seg n (m + 1) (layer memory m)

/-- The number of parts and the tables when the loop ends. -/
def searchParts (objective : Nat → K → K) (memory : Nat → Nat → Nat) : Nat × Tables K :=
  tryParts seg n objective (objective 1 (seg 0 n)) (n - 1) 1 (onePart seg memory)

def stratify (w : Weights K) (memory : Nat → Nat → Nat) : Nat × Tables K :=
  searchParts seg n w.objective memory

/-- The parts that the back pointers give, the last one first. -/
def groupsOf (prevIdx : Nat → Nat → Nat) : Nat → Nat → List (Nat × Nat)
  | 0, _ => []
  | 1, i => [(0, i)]
  | k + 2, i => (prevIdx (k + 2) i, i) :: groupsOf prevIdx (k + 1) (prevIdx (k + 2) i)

/-! ## Every layer is optimal -/

variable {seg n}

theorem groupsOf_congr {prev prev' : Nat → Nat → Nat} (same : ∀ k' ≤ k, prev k' = prev' k')
    (i : Nat) : groupsOf prev k i = groupsOf prev' k i := by
  induction k generalizing i with
  | zero => rfl
  | succ k ih =>
    cases k with
    | zero => rfl
    | succ k => rw [groupsOf, groupsOf, same (k + 2) le_rfl, ih fun k' small => same k' (by omega)]

theorem groupsOf_update (prev : Nat → Nat → Nat) (row : Nat → Nat) (small : k' ≤ k) (i : Nat) :
    groupsOf (update prev (k + 1) row) k' i = groupsOf prev k' i :=
  groupsOf_congr (fun _ smaller => update_of_ne (by omega) _ _) i

/-- The back pointers of the first `i` intervals lead to `k` parts of least cost. -/
structure OptimalAt (seg : Nat → Nat → K) (t : Tables K) (k i : Nat) : Prop where
  splits : Splits k i (groupsOf t.prevIdx k i)
  cost : totalCost seg (groupsOf t.prevIdx k i) = t.cost i
  least : ∀ groups, Splits k i groups → t.cost i ≤ totalCost seg groups

theorem OptimalAt.congr {t t' : Tables K} (optimal : OptimalAt seg t k i)
    (cost : t'.cost i = t.cost i) (groups : groupsOf t'.prevIdx k i = groupsOf t.prevIdx k i) :
    OptimalAt seg t' k i :=
  ⟨groups ▸ optimal.splits, groups ▸ cost ▸ optimal.cost, cost ▸ optimal.least⟩

theorem onePart_optimal (memory : Nat → Nat → Nat) (some : 0 < i) :
    OptimalAt seg (onePart seg memory) 1 i where
  splits := .one some
  cost := by simp [groupsOf, totalCost, onePart]
  least := by
    intro groups splits
    cases splits with
    | one => simp [totalCost, onePart]
    | more pre => exact absurd pre.le.1 (by omega)

theorem place_other {t : Tables K} (optimal : OptimalAt seg t k' i') (different : i' ≠ i)
    (layer : k' ≤ k + 1) : OptimalAt seg (t.place seg k i) k' i' := by
  unfold Tables.place
  split
  · exact optimal
  · refine optimal.congr (update_of_ne different _ _) ?_
    rcases Nat.lt_or_eq_of_le layer with small | rfl
    · exact groupsOf_update _ _ (Nat.le_of_lt_succ small) _
    · cases k with
      | zero => rfl
      | succ k => simp only [groupsOf, update_self, update_of_ne different, groupsOf_update, le_rfl]

variable [IsStrictOrderedRing K]

theorem place_optimal {t : Tables K} (below : ∀ j, k ≤ j → j < i → OptimalAt seg t k j)
    (some : 1 ≤ k) (less : k < i) : OptimalAt seg (t.place seg k i) (k + 1) i := by
  obtain ⟨k, rfl⟩ := Nat.exists_eq_add_of_le' some
  unfold Tables.place
  split
  next none =>
    rw [argmin_eq_none, range'_eq_nil_iff] at none
    omega
  next j found =>
    have inRange := mem_range'_1.mp (argmin_mem found)
    have inner := below j (by omega) (by omega)
    refine ⟨?_, ?_, ?_⟩
    · simp only [groupsOf, update_self, groupsOf_update, le_rfl]
      exact .more inner.splits (by omega)
    · simp only [groupsOf, update_self, groupsOf_update, le_rfl, totalCost, map_cons, sum_cons,
        candidate]
      rw [← inner.cost, totalCost]
    · intro other splits
      change update t.cost i _ i ≤ _
      rw [update_self]
      cases splits with
      | @more _ j' rest _ pre end_ =>
        have least := (below j' pre.le.2 end_).least rest pre
        have chosen : candidate seg t.cost i j ≤ candidate seg t.cost i j' :=
          le_of_mem_argmin (mem_range'_1.mpr (by have := pre.le; omega)) found
        refine chosen.trans ?_
        rw [totalCost, map_cons, sum_cons]
        exact add_le_add_right least _

/-- During the sweep the long prefixes have one part more than the short ones. -/
theorem sweep_optimal {t : Tables K} (some : 1 ≤ k)
    (short : ∀ i, k ≤ i → i < k + 1 + steps → OptimalAt seg t k i)
    (long : ∀ i, k + 1 + steps ≤ i → i ≤ n → OptimalAt seg t (k + 1) i) :
    ∀ i, k + 1 ≤ i → i ≤ n → OptimalAt seg (sweep seg k steps t) (k + 1) i := by
  induction steps generalizing t with
  | zero => exact long
  | succ steps ih =>
    apply ih
    · intro i low high
      exact place_other (short i low (by omega)) (by omega) (by omega)
    · intro i low high
      rcases Nat.lt_or_eq_of_le low with above | rfl
      · exact place_other (long i (by omega) high) (by omega) le_rfl
      · exact place_optimal (fun j low high => short j low (by omega)) some (by omega)

theorem nextLayer_optimal {t : Tables K} (some : 1 ≤ k) (less : k < n)
    (optimal : ∀ i, k ≤ i → i ≤ n → OptimalAt seg t k i) :
    ∀ i, k + 1 ≤ i → i ≤ n → OptimalAt seg (nextLayer seg n k t) (k + 1) i := by
  apply sweep_optimal some
  · intro i low high
    exact place_other (optimal i low (by omega)) (by omega) (by omega)
  · intro i low high
    obtain rfl : i = n := by omega
    exact place_optimal (fun j low high => optimal j low (by omega)) some less

theorem layer_optimal (memory : Nat → Nat → Nat) (less : m < n) :
    ∀ i, m + 1 ≤ i → i ≤ n → OptimalAt seg (layer seg n memory m) (m + 1) i := by
  induction m with
  | zero => exact fun _ low _ => onePart_optimal memory low
  | succ m ih => exact nextLayer_optimal (by omega) less (ih (by omega))

/-! ## The number of parts -/

/-- The least cost of `k` parts. -/
noncomputable def leastCost (seg : Nat → Nat → K) (n k : Nat) : K :=
  Classical.epsilon fun cost => IsLeast (Set.image (totalCost seg) {groups | Splits k n groups}) cost

omit [IsStrictOrderedRing K] in
theorem OptimalAt.leastCost_eq {t : Tables K} (optimal : OptimalAt seg t k n) :
    leastCost seg n k = t.cost n := by
  have least : IsLeast (Set.image (totalCost seg) {groups | Splits k n groups}) (t.cost n) :=
    ⟨⟨_, optimal.splits, optimal.cost⟩, Set.forall_mem_image.mpr fun groups => optimal.least groups⟩
  exact (Classical.epsilon_spec ⟨_, least⟩ : IsLeast _ (leastCost seg n k)).unique least

/-- The objectives of 2 to `m` parts of least cost are below that of one part. -/
def BelowOnePart (objective : Nat → K → K) (seg : Nat → Nat → K) (n m : Nat) : Prop :=
  ∀ k, 2 ≤ k → k ≤ m → objective k (leastCost seg n k) < objective 1 (seg 0 n)

/-- `k` parts are where the search ends. -/
def EndsAtParts (objective : Nat → K → K) (seg : Nat → Nat → K) (n k : Nat) : Prop :=
  (1 ≤ k ∧ k ≤ n) ∧ BelowOnePart objective seg n k ∧
    (k < n → objective 1 (seg 0 n) ≤ objective (k + 1) (leastCost seg n (k + 1)))

variable {objective : Nat → K → K}

theorem tryParts_spec {t : Tables K} (some : 1 ≤ k) (left : k + fuel = n)
    (optimal : ∀ i, k ≤ i → i ≤ n → OptimalAt seg t k i) (below : BelowOnePart objective seg n k) :
    EndsAtParts objective seg n (tryParts seg n objective (objective 1 (seg 0 n)) fuel k t).1 ∧
      OptimalAt seg (tryParts seg n objective (objective 1 (seg 0 n)) fuel k t).2
        (tryParts seg n objective (objective 1 (seg 0 n)) fuel k t).1 n := by
  induction fuel generalizing k t with
  | zero =>
    unfold tryParts
    exact ⟨⟨⟨some, by omega⟩, below, fun less => by omega⟩, optimal n (by omega) le_rfl⟩
  | succ fuel ih =>
    have placed : OptimalAt seg (t.place seg k n) (k + 1) n :=
      place_optimal (fun j low high => optimal j low (by omega)) some (by omega)
    unfold tryParts
    split
    next stops =>
      rw [← placed.leastCost_eq] at stops
      refine ⟨⟨⟨some, by omega⟩, below, fun _ => stops⟩, ?_⟩
      have same : OptimalAt seg t k n := optimal n (by omega) le_rfl
      refine same.congr rfl ?_
      unfold Tables.place
      split
      · rfl
      · exact groupsOf_update _ _ le_rfl n
    next goes =>
      rw [← placed.leastCost_eq] at goes
      refine ih (by omega) (by omega) (nextLayer_optimal some (by omega) optimal) ?_
      intro m low high
      rcases Nat.lt_or_eq_of_le high with small | rfl
      · exact below m low (by omega)
      · exact lt_of_not_ge goes

theorem searchParts_spec (seg : Nat → Nat → K) (objective : Nat → K → K)
    (memory : Nat → Nat → Nat) (some : 0 < n) :
    EndsAtParts objective seg n (searchParts seg n objective memory).1 ∧
      OptimalAt seg (searchParts seg n objective memory).2
        (searchParts seg n objective memory).1 n :=
  tryParts_spec le_rfl (by omega) (fun _ low _ => onePart_optimal memory low)
    fun m low high => by omega

theorem stratify_spec (seg : Nat → Nat → K) (w : Weights K) (memory : Nat → Nat → Nat)
    (some : 0 < n) : EndsAtParts w.objective seg n (stratify seg n w memory).1 ∧
      OptimalAt seg (stratify seg n w memory).2 (stratify seg n w memory).1 n :=
  searchParts_spec seg w.objective memory some

/-- The parts of the stratification are contiguous and cover all intervals, and no other
partition into as many parts costs less. -/
theorem stratify_optimal (seg : Nat → Nat → K) (n : Nat) (w : Weights K)
    (memory : Nat → Nat → Nat) (some : 0 < n) :
    Splits (stratify seg n w memory).1 n
        (groupsOf (stratify seg n w memory).2.prevIdx (stratify seg n w memory).1 n) ∧
      ∀ groups, Splits (stratify seg n w memory).1 n groups → totalCost seg
            (groupsOf (stratify seg n w memory).2.prevIdx (stratify seg n w memory).1 n) ≤
          totalCost seg groups := by
  obtain ⟨splits, cost, least⟩ := (stratify_spec seg w memory some).2
  exact ⟨splits, fun groups other => cost ▸ least groups other⟩

/-- Costs where a part with the first two intervals is expensive. -/
def skewed (j i : Nat) : ℚ := if j = 0 ∧ 1 < i then 10 else (i - j : Nat)

/-- Three intervals become three parts. -/
theorem skewed_optimal : (stratify skewed 3 ⟨1, 1⟩ fun _ _ => 0).1 = 3 ∧
    ∀ groups, Splits (stratify skewed 3 ⟨1, 1⟩ fun _ _ => 0).1 3 groups →
      totalCost skewed (groupsOf (stratify skewed 3 ⟨1, 1⟩ fun _ _ => 0).2.prevIdx
        (stratify skewed 3 ⟨1, 1⟩ fun _ _ => 0).1 3) ≤ totalCost skewed groups :=
  ⟨by decide +kernel, (stratify_optimal skewed 3 ⟨1, 1⟩ _ (by decide)).2⟩

omit [IsStrictOrderedRing K] in
theorem EndsAtParts.le_iff (ends : EndsAtParts objective seg n k) (inside : m ≤ n) :
    m ≤ k ↔ BelowOnePart objective seg n m := by
  obtain ⟨range, below, stops⟩ := ends
  refine ⟨fun small i low high => below i low (by omega), fun allBelow => ?_⟩
  by_contra large
  exact absurd (allBelow (k + 1) (by omega) (by omega)) (not_lt_of_ge (stops (by omega)))

/-- `min_cost` stays the objective of one part, so the number of parts that is chosen has the
least objective of those tried only if every number of parts that can be passed is followed by
one that is no worse and that the search reaches as well. -/
theorem stratify_objective_iff (seg : Nat → Nat → K) (n : Nat) (w : Weights K)
    (memory : Nat → Nat → Nat) (some : 0 < n) :
    (∀ m < (stratify seg n w memory).1,
        w.objective (stratify seg n w memory).1 ((stratify seg n w memory).2.cost n) ≤
          w.objective (m + 1) ((layer seg n memory m).cost n)) ↔
      ∀ m, 1 ≤ m → m < n → BelowOnePart w.objective seg n (m + 1) →
        ∃ k, m < k ∧ k ≤ n ∧ BelowOnePart w.objective seg n k ∧
          w.objective k (leastCost seg n k) ≤ w.objective m (leastCost seg n m) := by
  obtain ⟨ends, optimal⟩ := stratify_spec seg w memory some
  have layers {m : Nat} (less : m < (stratify seg n w memory).1) :
      leastCost seg n (m + 1) = (layer seg n memory m).cost n := by
    have inside : m < n := less.trans_le ends.1.2
    exact (layer_optimal memory inside n inside le_rfl).leastCost_eq
  rw [← optimal.leastCost_eq]
  constructor
  · intro least m positive less below
    obtain ⟨m, rfl⟩ := Nat.exists_eq_add_of_le' positive
    have passed := (ends.le_iff less).mpr below
    refine ⟨_, passed, ends.1.2, (ends.le_iff ends.1.2).mp le_rfl, ?_⟩
    rw [layers (by omega)]
    exact least m (by omega)
  · intro improves m less
    rw [← layers less]
    -- downwards from the number that is chosen, which is the last one that is reached
    induction left : (stratify seg n w memory).1 - m using Nat.strong_induction_on
      generalizing m with
    | _ left ih =>
      by_cases last : m + 1 = (stratify seg n w memory).1
      · rw [last]
      · have inside := ends.1.2
        obtain ⟨k, more, kInside, below, better⟩ :=
          improves (m + 1) (by omega) (by omega) ((ends.le_iff (by omega)).mp (by omega))
        have reached := (ends.le_iff kInside).mpr below
        obtain ⟨k, rfl⟩ := Nat.exists_eq_add_of_le' (show 1 ≤ k by omega)
        exact (ih _ (by omega) k (by omega) rfl).trans better

/-- Two intervals become two parts, and that is best. -/
theorem skewed_two_least : 0 < 2 ∧ ∀ m, 1 ≤ m → m < 2 →
    BelowOnePart (Weights.objective ⟨1, 1⟩) skewed 2 (m + 1) →
    ∃ k, m < k ∧ k ≤ 2 ∧ BelowOnePart (Weights.objective ⟨1, 1⟩) skewed 2 k ∧
      Weights.objective ⟨1, 1⟩ k (leastCost skewed 2 k) ≤
        Weights.objective ⟨1, 1⟩ m (leastCost skewed 2 m) :=
  ⟨by decide,
    (stratify_objective_iff skewed 2 ⟨1, 1⟩ (fun _ _ => 0) (by decide)).mp (by decide +kernel)⟩

/-- The objectives of one, two and three parts are 101, 11 and 12, and three are chosen. -/
theorem skewed_three_not_least : ¬ ∀ m < (stratify skewed 3 ⟨1, 1⟩ fun _ _ => 0).1,
    Weights.objective ⟨1, 1⟩ (stratify skewed 3 ⟨1, 1⟩ fun _ _ => 0).1
        ((stratify skewed 3 ⟨1, 1⟩ fun _ _ => 0).2.cost 3) ≤
      Weights.objective ⟨1, 1⟩ (m + 1) ((layer skewed 3 (fun _ _ => 0) m).cost 3) := by
  decide +kernel

end PgAqp.Progressive
