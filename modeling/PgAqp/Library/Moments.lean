import Mathlib

/-!
# Mean and variance of a list

Over the rationals: the mean, the sum of the squared deviations from it, and the
variance of the mean that is estimated from them.  Everything follows from one
rule for appended lists.
-/

namespace PgAqp.Library

open List

def mean (xs : List ℚ) : ℚ := xs.sum / xs.length

/-- The sum of the squared deviations from `center`. -/
def deviations (center : ℚ) (xs : List ℚ) : ℚ := (xs.map fun x => (x - center) ^ 2).sum

def squares (xs : List ℚ) : ℚ := deviations (mean xs) xs

/-- The estimated variance of the mean. -/
def meanVar (xs : List ℚ) : ℚ := squares xs / (xs.length * (xs.length - 1))

variable {xs ys : List ℚ} (x center : ℚ)

theorem squares_nil : squares [] = 0 := rfl

theorem length_mul_mean (xs : List ℚ) : xs.length * mean xs = xs.sum := by
  cases xs with
  | nil => simp
  | cons x rest => exact mul_div_cancel₀ _ (by simp; positivity)

theorem deviations_eq (xs : List ℚ) :
    deviations center xs = squares xs + xs.length * (mean xs - center) ^ 2 := by
  have shift (middle : ℚ) : deviations center xs = deviations middle xs +
      2 * (middle - center) * (xs.sum - xs.length * middle) +
        xs.length * (middle - center) ^ 2 := by
    induction xs with
    | nil => simp [deviations]
    | cons x rest ih =>
      simp only [deviations, map_cons, sum_cons, length_cons, Nat.cast_succ] at ih ⊢
      rw [ih]
      ring
  rw [shift (mean xs), length_mul_mean, squares]
  ring

theorem length_mul_mean_append (xs ys : List ℚ) :
    (xs.length + ys.length) * mean (xs ++ ys) = xs.length * mean xs + ys.length * mean ys := by
  have whole := length_mul_mean (xs ++ ys)
  rw [length_append, Nat.cast_add, sum_append] at whole
  rw [whole, length_mul_mean, length_mul_mean]

theorem squares_append (some : xs ≠ []) (ys : List ℚ) :
    squares (xs ++ ys) = squares xs + squares ys +
      xs.length * ys.length * (mean xs - mean ys) ^ 2 / (xs.length + ys.length) := by
  have positive : (0 : ℚ) < xs.length + ys.length := by
    have := length_pos_iff.mpr some
    positivity
  have middle : mean (xs ++ ys) =
      (xs.length * mean xs + ys.length * mean ys) / (xs.length + ys.length) := by
    rw [← length_mul_mean_append, mul_div_cancel_left₀ _ positive.ne']
  have split : squares (xs ++ ys) =
      deviations (mean (xs ++ ys)) xs + deviations (mean (xs ++ ys)) ys := by
    simp [squares, deviations]
  rw [split, deviations_eq, deviations_eq, middle]
  field_simp
  ring

theorem squares_eq_meanVar (xs : List ℚ) :
    squares xs = meanVar xs * xs.length * (xs.length - 1) := by
  unfold meanVar
  match xs with
  | [] => simp [squares, deviations]
  | [x] => simp [squares, deviations, mean]
  | x :: y :: rest =>
    have : (0 : ℚ) < rest.length + 1 := by positivity
    have : (0 : ℚ) < rest.length + 1 + 1 := by positivity
    simp only [length_cons, Nat.cast_add, Nat.cast_one, add_sub_cancel_right]
    field_simp

/-- One more value, as a stream of values updates mean and variance. -/
theorem mean_concat : mean (xs ++ [x]) = (xs.length * mean xs + x) / (xs.length + 1) := by
  have whole := length_mul_mean_append xs [x]
  have : (0 : ℚ) < xs.length + 1 := by positivity
  have single : mean [x] = x := by simp [mean]
  rw [length_singleton, Nat.cast_one, single, one_mul] at whole
  rw [← whole, mul_div_cancel_left₀ _ this.ne']

theorem squares_concat : squares (xs ++ [x]) =
    squares xs + xs.length / (xs.length + 1) * (x - mean xs) ^ 2 := by
  have single : mean [x] = x ∧ squares [x] = 0 := by simp [mean, squares, deviations]
  rcases eq_or_ne xs [] with rfl | some
  · rw [nil_append, single.2]
    simp [squares, deviations]
  rw [squares_append some, single.1, single.2, length_singleton, Nat.cast_one]
  ring

theorem meanVar_concat (some : xs ≠ []) : meanVar (xs ++ [x]) =
    (x - mean xs) ^ 2 / (xs.length + 1) ^ 2 + (xs.length - 1) / (xs.length + 1) * meanVar xs := by
  have positive : (0 : ℚ) < xs.length := by
    have := length_pos_iff.mpr some
    positivity
  rw [meanVar, squares_concat, squares_eq_meanVar xs]
  simp only [length_append, length_singleton, Nat.cast_add, Nat.cast_one, add_sub_cancel_right]
  field_simp
  ring

theorem mean_zeros (count : Nat) : mean (replicate count 0) = 0 := by simp [mean]

theorem squares_zeros (count : Nat) : squares (replicate count 0) = 0 := by
  simp [squares, deviations, mean_zeros]

theorem mean_perm (same : xs.Perm ys) : mean xs = mean ys := by
  rw [mean, mean, same.sum_eq, same.length_eq]

theorem meanVar_perm (same : xs.Perm ys) : meanVar xs = meanVar ys := by
  rw [meanVar, meanVar, squares, squares, mean_perm same, same.length_eq, deviations, deviations,
    (same.map _).sum_eq]

end PgAqp.Library
