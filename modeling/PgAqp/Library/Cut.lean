import Mathlib.Data.List.Basic
import Mathlib.Order.Lattice

/-!
# Cutting a linear order

An increasing list of boundaries cuts a linear order into one more cell than there are
boundaries.  A boundary belongs to the cell on its right.
-/

namespace PgAqp.Library.Cut

open List Option

variable {α : Type} [LinearOrder α]

/-- The value lies at or above the boundary on the left of the cell, and below the one on
its right. -/
def InCell (boundaries : List α) (cell : Nat) (value : α) : Prop :=
  (∀ left, 0 < cell → boundaries[cell - 1]? = some left → left ≤ value) ∧
    ∀ right, boundaries[cell]? = some right → value < right

variable {boundaries : List α}

omit [LinearOrder α] in
theorem getElem?_eq_getD (inside : pos < boundaries.length) (default : α) :
    boundaries[pos]? = some (boundaries.getD pos default) := by
  rw [getD_eq_getElem?_getD, getElem?_eq_getElem inside, getD_some]

theorem inCell_first (nonempty : 0 < boundaries.length) (default value : α) :
    InCell boundaries 0 value ↔ value < boundaries.getD 0 default := by
  simp only [InCell, getElem?_eq_getD nonempty default, Nat.lt_irrefl, false_implies,
    implies_true, true_and, some.injEq, forall_eq']

theorem inCell_last (nonempty : 0 < boundaries.length) (default value : α) :
    InCell boundaries boundaries.length value ↔
      boundaries.getD (boundaries.length - 1) default ≤ value := by
  have inside : boundaries.length - 1 < boundaries.length := Nat.sub_lt nonempty Nat.one_pos
  have beyond : boundaries[boundaries.length]? = none := getElem?_eq_none le_rfl
  simp only [InCell, nonempty, getElem?_eq_getD inside default, beyond, some.injEq,
    forall_eq', true_implies, reduceCtorEq, false_implies, implies_true, and_true]

theorem inCell_middle (positive : 0 < cell)
    (inside : cell < boundaries.length) (default value : α) :
    InCell boundaries cell value ↔
      boundaries.getD (cell - 1) default ≤ value ∧ value < boundaries.getD cell default := by
  have pre : cell - 1 < boundaries.length := (Nat.sub_le _ _).trans_lt inside
  simp only [InCell, positive, getElem?_eq_getD pre default,
    getElem?_eq_getD inside default, some.injEq, forall_eq', true_implies]

def cellOf : List α → α → Nat
  | [], _ => 0
  | first :: rest, value => if value < first then 0 else cellOf rest value + 1

theorem inCell_cons_zero (first : α) (rest : List α) (value : α) :
    InCell (first :: rest) 0 value ↔ value < first := by
  simp [InCell]

theorem inCell_cons_succ (increasing : (first :: rest).Pairwise (· < ·))
    (within : cell ≤ rest.length) (value : α) :
    InCell (first :: rest) (cell + 1) value ↔ first ≤ value ∧ InCell rest cell value := by
  have above := (pairwise_cons.mp increasing).1
  cases cell with
  | zero => simp [InCell]
  | succ cell =>
    have inside : cell < rest.length := within
    simp only [InCell, Nat.add_sub_cancel, getElem?_cons_succ, getElem?_eq_getElem inside]
    constructor
    · rintro ⟨leftOk, rightOk⟩
      have atLeft : rest[cell] ≤ value := leftOk _ (Nat.succ_pos _) rfl
      refine ⟨le_of_lt (lt_of_lt_of_le (above _ (getElem_mem inside)) atLeft), ?_, rightOk⟩
      exact fun left _ same => leftOk left (Nat.succ_pos _) same
    · rintro ⟨_, leftOk, rightOk⟩
      exact ⟨fun left _ same => leftOk left (Nat.succ_pos _) same, rightOk⟩

/-- Every value lies in exactly one cell. -/
theorem inCell_iff (increasing : boundaries.Pairwise (· < ·))
    (within : cell ≤ boundaries.length) (value : α) :
    InCell boundaries cell value ↔ cellOf boundaries value = cell := by
  induction boundaries generalizing cell with
  | nil =>
    cases Nat.le_zero.mp within
    simp [InCell, cellOf]
  | cons first rest ih =>
    cases cell with
    | zero =>
      rw [inCell_cons_zero, cellOf]
      split <;> simp_all
    | succ cell =>
      have inside : cell ≤ rest.length := Nat.le_of_succ_le_succ within
      rw [inCell_cons_succ increasing inside, ih increasing.of_cons inside, cellOf]
      split
      case isTrue below => simp [not_le.mpr below]
      case isFalse above => simp [not_lt.mp above]

theorem cellOf_le (boundaries : List α) (value : α) :
    cellOf boundaries value ≤ boundaries.length := by
  induction boundaries with
  | nil => exact le_rfl
  | cons first rest ih =>
    rw [cellOf]
    split
    · exact Nat.zero_le _
    · exact Nat.succ_le_succ ih

theorem cellOf_eq_zero_iff (first : α) (rest : List α) (value : α) :
    cellOf (first :: rest) value = 0 ↔ value < first := by
  rw [cellOf]
  split <;> simp_all

theorem cellOf_eq_length_iff (increasing : boundaries.Pairwise (· < ·))
    (isLast : boundaries.getLast? = some last) (value : α) :
    cellOf boundaries value = boundaries.length ↔ last ≤ value := by
  have nonempty : boundaries ≠ [] := by
    rintro rfl
    cases isLast
  have pos : boundaries[boundaries.length - 1]? = some last := by
    rw [← getLast?_eq_getElem?]
    exact isLast
  have beyond : boundaries[boundaries.length]? = none := getElem?_eq_none le_rfl
  rw [← inCell_iff increasing le_rfl]
  constructor
  · intro inside
    exact inside.1 last (length_pos_iff.mpr nonempty) pos
  · intro above
    refine ⟨fun left _ found => ?_, fun right found => ?_⟩
    · rw [pos] at found
      exact some.inj found ▸ above
    · rw [beyond] at found
      cases found

end PgAqp.Library.Cut
