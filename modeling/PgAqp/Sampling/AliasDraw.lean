import PgAqp.Sampling.Alias

/-!
# Drawing from an alias structure

The units of a bucket are numbered from zero, and the extra unit of the first buckets is
`Q + 1`.  A unit up to the cutoff belongs to the item of the bucket, so that an item with a
cutoff below `Q` is drawn once too often.
-/

namespace PgAqp.Sampling

open Finset AliasU64

def AliasU64.lookup (t : AliasU64) (i r : Nat) : Nat :=
  if t.cutoffs i < r then t.aliases i else i

/-- `aqp_alias_u64_sample_unif_u64`.  There is no result for a division by zero. -/
def aliasSample (t : AliasU64) (x : Nat) : Option Nat :=
  if x < t.r then some (t.lookup x (t.q + 1))
  else if t.q = 0 then none
  else some (t.lookup ((x - t.r) / t.q) ((x - t.r) % t.q))

/-- How many of the numbers below `total` draw an item. -/
def draws (t : AliasU64) (total item : Nat) : Nat :=
  ∑ x ∈ range total, if aliasSample t x = some item then 1 else 0

/-- How many units of a bucket belong to its own item. -/
def AliasU64.kept (t : AliasU64) (b : Nat) : Nat :=
  min t.q (t.cutoffs b + 1) + if b < t.r ∧ t.q < t.cutoffs b then 1 else 0

variable {ws : Nat → Nat} {n fuel k : Nat}

theorem sum_div_mod (f : Nat → Nat → Nat) (n q : Nat) :
    ∑ x ∈ range (n * q), f (x / q) (x % q) = ∑ b ∈ range n, ∑ i ∈ range q, f b i := by
  induction n with
  | zero => simp
  | succ n ih =>
    rw [Nat.succ_mul, sum_range_add, ih, sum_range_succ]
    refine congrArg _ (sum_congr rfl fun i mem => ?_)
    have small := mem_range.mp mem
    rw [Nat.mul_comm, Nat.mul_add_div (by omega), Nat.div_eq_of_lt small, Nat.mul_add_mod,
      Nat.mod_eq_of_lt small, Nat.add_zero]

theorem sum_lookup (t : AliasU64) (b k q : Nat) :
    ∑ i ∈ range q, (if t.lookup b i = k then 1 else 0) =
      (if b = k then min q (t.cutoffs b + 1) else 0) +
        if t.aliases b = k then q - min q (t.cutoffs b + 1) else 0 := by
  induction q with
  | zero => simp
  | succ q ih =>
    rw [sum_range_succ, ih, lookup]
    split_ifs <;> omega

theorem draws_eq (within : t.r ≤ n) (k : Nat) :
    draws t (n * t.q + t.r) k = ∑ b ∈ range n, ((if b = k then t.kept b else 0) +
      if t.aliases b = k then getBucketWeight t.q t.r b - t.kept b else 0) := by
  have extra : ∑ b ∈ range n, (if b < t.r then
      (if t.lookup b (t.q + 1) = k then 1 else 0) else 0) =
        ∑ x ∈ range t.r, if aliasSample t x = some k then 1 else 0 := by
    rw [← sum_filter]
    refine sum_congr (by ext b; simp; omega) fun x mem => ?_
    simp [aliasSample, mem_range.mp mem]
  have plain : ∑ b ∈ range n, ∑ i ∈ range t.q, (if t.lookup b i = k then 1 else 0) =
      ∑ x ∈ range (n * t.q), if aliasSample t (t.r + x) = some k then 1 else 0 := by
    rw [← sum_div_mod fun b i => if t.lookup b i = k then 1 else 0]
    refine sum_congr rfl fun x mem => ?_
    have notZero : t.q ≠ 0 := by
      rintro isZero
      simp [isZero] at mem
    simp [aliasSample, notZero]
  rw [draws, Nat.add_comm, sum_range_add, ← extra, ← plain, ← sum_add_distrib]
  refine sum_congr rfl fun b _ => ?_
  rw [sum_lookup, lookup, kept, getBucketWeight]
  split_ifs <;> omega

variable {final : AliasState}

theorem draws_table (final : AliasState) (ws : Nat → Nat) (items : 0 < n) (k : Nat) :
    draws (final.table ws n) (∑ i ∈ range n, ws i) k =
      ∑ b ∈ range n, ((if b = k then (final.table ws n).kept b else 0) +
        if final.aliases b = k then capacity ws n b - (final.table ws n).kept b
        else 0) := by
  rw [← Nat.div_add_mod (∑ i ∈ range n, ws i) n]
  exact draws_eq ((Nat.mod_lt _ items).le) k

theorem draws_own (ws : Nat → Nat) (inside : k < n) (noTarget : ∀ b, final.aliases b ≠ k) :
    draws (final.table ws n) (∑ i ∈ range n, ws i) k = (final.table ws n).kept k := by
  rw [draws_table final ws (by omega)]
  simp [noTarget, inside]

/-- An item below the average that is left alone is drawn once too often. -/
theorem draws_light (inside : k < n) (less : ws k < average ws n)
    (same : final.weights k = ws k ∧ ∀ b, final.aliases b ≠ k) :
    draws (final.table ws n) (∑ i ∈ range n, ws i) k ≠ ws k := by
  have cutoff : (final.table ws n).cutoffs k = ws k := same.1
  have q : (final.table ws n).q = average ws n := rfl
  rw [draws_own ws inside same.2, kept, cutoff, q]
  omega

theorem kept_eq (least : average ws n ≤ final.weights k)
    (most : final.weights k ≤ capacity ws n k) :
    (final.table ws n).kept k = final.weights k := by
  unfold capacity getBucketWeight at most
  unfold kept AliasState.table
  dsimp only
  split_ifs at most ⊢ <;> omega

theorem kept_le (final : AliasState) (ws : Nat → Nat) (n k : Nat) :
    (final.table ws n).kept k ≤ capacity ws n k := by
  unfold capacity getBucketWeight kept AliasState.table
  dsimp only
  split_ifs <;> omega

/-- Without truncation the draws are exact if no weight is below the average. -/
theorem draws_exact_iff_of_small (items : 0 < n) (isUint32 : n < 4294967296)
    (small : average ws n + 1 < 4294967296) (enough : n ≤ fuel) :
    ∃ final : AliasState, aliasCreate fuel ws n = some (final.table ws n) ∧
      ((∀ i < n, draws (final.table ws n) (∑ i ∈ range n, ws i) i = ws i) ↔
        ∀ i < n, average ws n ≤ ws i) := by
  obtain ⟨final, heavy, built, done, inv⟩ := aliasCreate_balanced items isUint32 small enough
  refine ⟨final, built, fun exact k inside => ?_, fun all k inside => ?_⟩
  · by_contra less
    have light := (Nat.lt_of_not_le less).trans_le (capacity_near ws n k).1
    exact draws_light inside (Nat.lt_of_not_le less) (done.untouched k inside light)
      (exact k inside)
  · have kept (b : Nat) (below : b ∈ range n) : (final.table ws n).kept b = final.weights b :=
      kept_eq (inv.least all b (mem_range.mp below)) (inv.cutoff_le done (mem_range.mp below))
    rw [draws_table final ws items, ← inv.conserved k inside, AliasState.held,
      sum_congr rfl fun b below => by rw [kept b below], sum_add_distrib, sum_ite_eq',
      if_pos (mem_range.mpr inside)]

/-- Some item is too light, or the pairing loop has left the arrays alone. -/
def LightOrSame (ws target : Nat → Nat) (n : Nat) (s : AliasState) : Prop :=
  (∃ k < n, ws k < target k) ∨ s.weights = ws ∧ s.aliases = fun _ => noAlias

/-- With truncation they are exact if every bucket is filled by its own item. -/
theorem draws_exact_iff_of_large (items : 0 < n) (isUint32 : n < 4294967296)
    (fits : ∑ i ∈ range n, ws i < 18446744073709551616)
    (large : 4294967296 ≤ average ws n + 1) (enough : n ≤ fuel) :
    ∃ final : AliasState, aliasCreate fuel ws n = some (final.table ws n) ∧
      ((∀ i < n, draws (final.table ws n) (∑ i ∈ range n, ws i) i = ws i) ↔
        ∀ i < n, ws i = capacity ws n i) := by
  obtain ⟨final, heavy, built, done, kept⟩ := aliasCreate_spec
    (LightOrSame ws (fun k => capacity ws n k % 4294967296) n) items isUint32 fits enough
    (fun s same aliases => .inr ⟨same, aliases⟩) (by
      rintro s next i j iInside - (light | ⟨same, -⟩) pair
      · exact .inl light
      · exact .inl ⟨i, iInside, same ▸ pair.fromLight.1⟩)
  refine ⟨final, built, ?_⟩
  rcases kept with ⟨k, inside, light⟩ | ⟨same, aliases⟩
  · -- a truncated bucket weight is not above the average
    have near := capacity_near ws n k
    have less : ws k < average ws n := by
      dsimp only at light
      omega
    constructor
    · exact fun exact => absurd (exact k inside)
        (draws_light inside less (done.untouched k inside light))
    · intro equal
      have := equal k inside
      omega
  · have own (k : Nat) (inside : k < n) := draws_own ws inside
      (fun b => by rw [aliases]; simp only [noAlias]; omega : ∀ b, final.aliases b ≠ k)
    constructor
    · intro exact
      have below : ∀ i ∈ range n, ws i ≤ capacity ws n i := fun i mem => by
        rw [← exact i (mem_range.mp mem), own i (mem_range.mp mem)]
        exact kept_le final ws n i
      exact fun i inside => (sum_eq_sum_iff_of_le below).mp (sum_capacity items).symm i
        (mem_range.mpr inside)
    · intro equal i inside
      have := capacity_near ws n i
      rw [own i inside, kept_eq, same]
      · rw [same, equal i inside]
        exact this.1
      · rw [same, equal i inside]

/-- Every item is drawn as often as its weight says exactly if no weight is below the average
`Q`, and the bucket weights are not truncated or the weights are those of the buckets. -/
theorem alias_draws_exact_iff (items : 0 < n) (isUint32 : n < 4294967296)
    (fits : ∑ i ∈ range n, ws i < 18446744073709551616) (enough : n ≤ fuel) :
    ∃ t, aliasCreate fuel ws n = some t ∧ ((∀ i < n, draws t (∑ i ∈ range n, ws i) i = ws i) ↔
        (∀ i < n, average ws n ≤ ws i) ∧
          (average ws n + 1 < 4294967296 ∨ ∀ i < n, ws i = capacity ws n i)) := by
  by_cases small : average ws n + 1 < 4294967296
  · obtain ⟨final, built, exact⟩ := draws_exact_iff_of_small items isUint32 small enough
    exact ⟨_, built, exact.trans (by simp [small])⟩
  · obtain ⟨final, built, exact⟩ :=
      draws_exact_iff_of_large items isUint32 fits (Nat.le_of_not_lt small) enough
    refine ⟨_, built, exact.trans ⟨fun equal => ⟨fun i inside => ?_, .inr equal⟩, fun both => ?_⟩⟩
    · rw [equal i inside]
      exact (capacity_near ws n i).1
    · exact both.2.resolve_left small

/-- Three items with the weights 1, 2 and 1. -/
theorem alias_draws_three : ∃ t, aliasCreate 3 (fun i => if i = 1 then 2 else 1) 3 = some t ∧
      ∀ i < 3, draws t 4 i = if i = 1 then 2 else 1 := by
  obtain ⟨t, built, exact⟩ := alias_draws_exact_iff (by decide : 0 < 3) (by decide) (by decide :
      ∑ i ∈ range 3, (if i = 1 then 2 else 1) < 18446744073709551616) (Nat.le_refl 3)
  exact ⟨t, built, exact.mpr (by decide)⟩

/-- An item of weight zero is drawn once, and the item of weight two only once. -/
theorem alias_draws_weightless :
    ((aliasCreate 2 (fun i => 2 * i) 2).map fun t => (draws t 2 0, draws t 2 1)) = some (1, 1) := by
  decide

end PgAqp.Sampling
