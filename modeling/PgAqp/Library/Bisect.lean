import Mathlib.Init

/-!
# Binary search

The loop that halves an interval until its ends meet.  For a test that stays true
once it is true, it finds the first number that passes.
-/

namespace PgAqp.Library.Bisect

/-- The loop; `fuel` bounds the number of turns. -/
def loop (test : Nat → Bool) : Nat → Nat → Nat → Nat
  | 0, low, _ => low
  | fuel + 1, low, high =>
    if low < high then
      if test (low + (high - low) / 2) then loop test fuel low (low + (high - low) / 2)
      else loop test fuel (low + (high - low) / 2 + 1) high
    else low

/-- Search the numbers from `low` on and below `high`. -/
def first (test : Nat → Bool) (low high : Nat) : Nat := loop test (high - low) low high

structure IsFirst (test : Nat → Bool) (low high res : Nat) : Prop where
  lower : low ≤ res
  upper : res ≤ high
  fails : ∀ i, low ≤ i → i < res → test i = false
  passes : ∀ i, res ≤ i → i < high → test i = true

def Rising (test : Nat → Bool) (low high : Nat) : Prop :=
  ∀ i later, low ≤ i → i ≤ later → later < high →
    test i = true → test later = true

theorem isFirst_empty (test : Nat → Bool) (empty : high = low) : IsFirst test low high low :=
  ⟨Nat.le_refl low, by omega, fun i _ _ => by omega, fun i _ _ => by omega⟩

theorem loop_isFirst (test : Nat → Bool) (fuel : Nat) :
    ∀ low high : Nat, low ≤ high → high - low ≤ fuel → Rising test low high →
      IsFirst test low high (loop test fuel low high) := by
  induction fuel with
  | zero =>
    intro low high ordered enough _
    exact isFirst_empty test (by omega)
  | succ fuel ih =>
    intro low high ordered enough rising
    unfold loop
    by_cases more : low < high
    · rw [if_pos more]
      by_cases atMid : test (low + (high - low) / 2)
      · -- everything from the middle on passes
        rw [if_pos atMid]
        obtain ⟨lower, upper, fails, passes⟩ := ih low (low + (high - low) / 2) (by omega)
          (by omega) (fun i later above upTo below => rising i later above upTo (by omega))
        refine ⟨lower, by omega, fails, fun i after below => ?_⟩
        by_cases left : i < low + (high - low) / 2
        · exact passes i after left
        · exact rising _ i (by omega) (by omega) below atMid
      · -- everything up to the middle fails
        rw [if_neg atMid]
        obtain ⟨lower, upper, fails, passes⟩ := ih (low + (high - low) / 2 + 1) high (by omega)
          (by omega) (fun i later above upTo below => rising i later (by omega) upTo below)
        refine ⟨by omega, upper, fun i above pre => ?_, passes⟩
        by_cases left : i ≤ low + (high - low) / 2
        · exact Bool.eq_false_iff.mpr fun passed => atMid (rising i _ above left (by omega) passed)
        · exact fails i (by omega) pre
    · rw [if_neg more]
      exact isFirst_empty test (by omega)

theorem first_isFirst (ordered : low ≤ high)
    (rising : Rising test low high) : IsFirst test low high (first test low high) :=
  loop_isFirst test _ low high ordered Nat.le.refl rising

end PgAqp.Library.Bisect
