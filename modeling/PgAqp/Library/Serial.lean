import Mathlib.Data.Nat.Basic

/-!
# Serial numbers

A counter that wraps around at 32 bits is compared by the sign of a difference.
Numbers that lie less than half the range apart are compared as if they had
never wrapped.
-/

namespace PgAqp.Library.Serial

open BitVec

def precedes (first second : BitVec 32) : Bool := (first - second).slt 0

/-- Two counters that lie less than half the range apart. -/
def Near (first second : Nat) : Prop :=
  first < second + 2147483648 ∧ second < first + 2147483648
  deriving Decidable

variable {first second : Nat}

theorem Near.symm (near : Near first second) : Near second first := ⟨near.2, near.1⟩

/-- Near counters are compared in their own order. -/
theorem precedes_ofNat (near : Near first second) :
    precedes (.ofNat 32 first) (.ofNat 32 second) = decide (first < second) := by
  obtain ⟨below, above⟩ := near
  unfold precedes
  rw [slt_eq_decide]
  congr 1
  have zero : (0 : BitVec 32).toInt = 0 := rfl
  rw [zero, toInt_eq_toNat_cond, toNat_sub]
  simp only [toNat_ofNat, Nat.reducePow, eq_iff_iff]
  split <;> omega

theorem ofNat_eq_iff (near : Near first second) :
    BitVec.ofNat 32 first = BitVec.ofNat 32 second ↔ first = second := by
  obtain ⟨below, above⟩ := near
  constructor
  · intro same
    have toNat := congrArg BitVec.toNat same
    simp only [toNat_ofNat] at toNat
    omega
  · rintro rfl
    rfl

end PgAqp.Library.Serial
