import Mathlib.Data.List.Lex
import Mathlib.Data.Prod.Lex

/-!
# Keys and insertion scan keys

`_abt_compare` compares an insertion scan key with the key of a tuple.  A pivot may
have fewer attributes than the index, and no heap TID; what was truncated counts as
minus infinity.  The values of all columns are of one ordered type: the order of a
column's operator class, with `DESC` and the place of NULLs taken into account.
-/

namespace PgAqp.Sampling

open List Option Ordering

variable {α : Type} [LinearOrder α]

/-- The attributes of a tuple and its heap TID; in a pivot they may be truncated. -/
structure Key (α : Type) where
  attrs : List α
  heapTid : Option Nat
  deriving DecidableEq, Repr

/-- `ABTScanInsertData` of an index with the heap TID in its key space. -/
structure ScanInsert (α : Type) where
  scankeys : List α
  scantid : Option Nat
  nextkey : Bool
  pivotsearch : Bool
  deriving DecidableEq, Repr

/-- Compare the first `ncmpkey` attributes. -/
def compareAttrs : List α → List α → Ordering
  | scankey :: scankeys, attr :: attrs => (compare scankey attr).then (compareAttrs scankeys attrs)
  | _, _ => .eq

namespace ScanInsert

/-- `_abt_compare` with a tuple that is neither a posting list nor the first data item of an
internal page. -/
def compareKey (key : ScanInsert α) (tup : Key α) : Ordering :=
  (compareAttrs key.scankeys tup.attrs).then
    (if tup.attrs.length < key.scankeys.length then .gt
    else
      match key.scantid, tup.heapTid with
      | none, none =>
        if key.pivotsearch = false ∧ key.scankeys.length = tup.attrs.length then .gt else .eq
      | none, some _ => .eq
      | some _, none => .gt
      | some scantid, some heapTid => compare scantid heapTid)

/-- `result >= cmpval` for the comparison value that `nextkey` selects. -/
def passes (key : ScanInsert α) (res : Ordering) : Bool :=
  if key.nextkey then res.isGE else res.isGT

/-- The keys that `_abt_build_start_inskey` makes for the ends of a range. -/
structure IsBound (key : ScanInsert α) : Prop where
  scantid : key.scantid = none
  pivotsearch : key.pivotsearch = false

end ScanInsert

/-- `_abt_mkscankey_extended`, with `pivotsearch` set. -/
def mkscankey (tup : Option (Key α)) : ScanInsert α where
  scankeys := (tup.map Key.attrs).getD []
  scantid := tup.bind Key.heapTid
  nextkey := false
  pivotsearch := true

/-- The order of keys: truncated attributes and a truncated heap TID come first. -/
def Key.rank (key : Key α) : List α ×ₗ Nat := toLex (key.attrs, key.heapTid.elim 0 Nat.succ)

instance : LE (Key α) := ⟨fun first second => first.rank ≤ second.rank⟩

instance : LT (Key α) := ⟨fun first second => first.rank < second.rank⟩

instance (first second : Key α) : Decidable (first ≤ second) :=
  inferInstanceAs (Decidable (first.rank ≤ second.rank))

instance (first second : Key α) : Decidable (first < second) :=
  inferInstanceAs (Decidable (first.rank < second.rank))

theorem Key.ne_of_lt {first second : Key α} (pre : first < second) : first ≠ second := by
  rintro rfl
  exact lt_irrefl first.rank pre

theorem Key.truncated_of_le
    (ordered : first.elim 0 Nat.succ ≤ second.elim 0 Nat.succ) (truncated : second = none) :
    first = none := by
  rw [truncated] at ordered
  cases first with
  | none => rfl
  | some tid => exact absurd ordered (Nat.not_succ_le_zero tid)

theorem Key.le_cases {first second : Key α} (ordered : first ≤ second) :
    first.attrs < second.attrs ∨ first.attrs = second.attrs ∧
      first.heapTid.elim 0 Nat.succ ≤ second.heapTid.elim 0 Nat.succ :=
  Prod.Lex.le_iff.mp ordered

theorem Key.le_cons (ordered : (⟨firstAttr :: firstAttrs, firstTid⟩ : Key α) ≤
      ⟨secondAttr :: secondAttrs, secondTid⟩) :
    firstAttr < secondAttr ∨
      firstAttr = secondAttr ∧ (⟨firstAttrs, firstTid⟩ : Key α) ≤ ⟨secondAttrs, secondTid⟩ := by
  cases Key.le_cases ordered with
  | inl pre =>
    cases cons_lt_cons_iff.mp pre with
    | inl differs => exact .inl differs
    | inr same => exact .inr ⟨same.1, Prod.Lex.le_iff.mpr (.inl same.2)⟩
  | inr same =>
    obtain ⟨attrs, tids⟩ := same
    cases attrs
    exact .inr ⟨rfl, Prod.Lex.le_iff.mpr (.inr ⟨rfl, tids⟩)⟩

theorem compareAttrs_self (attrs : List α) : compareAttrs attrs attrs = .eq := by
  induction attrs with
  | nil => rfl
  | cons attr attrs ih => rw [compareAttrs, ih, compare_eq_iff_eq.mpr rfl]; rfl

/-- The key that was read in the parent compares as equal with the same high key. -/
theorem compareKey_mkscankey (key : Key α) : (mkscankey (some key)).compareKey key = .eq := by
  obtain ⟨attrs, heapTid⟩ := key
  unfold ScanInsert.compareKey mkscankey
  simp only [map_some, getD_some, bind_some, compareAttrs_self, Nat.lt_irrefl, if_false]
  cases heapTid with
  | none => rfl
  | some tid => exact compare_eq_iff_eq.mpr rfl

namespace ScanInsert

/-- The key is an end of a range with these attributes. -/
def bound (scankeys : List α) (nextkey : Bool) : ScanInsert α := ⟨scankeys, none, nextkey, false⟩

omit [LinearOrder α] in
theorem IsBound.eq (isBound : key.IsBound) : key = bound key.scankeys key.nextkey := by
  obtain ⟨scankeys, scantid, nextkey, pivotsearch⟩ := key
  obtain ⟨rfl, rfl⟩ := isBound
  rfl

theorem compareKey_bound_nil (nextkey : Bool) (tup : Key α) : (bound [] nextkey).compareKey tup =
      if tup.attrs = [] ∧ tup.heapTid = none then .gt else .eq := by
  obtain ⟨attrs, heapTid⟩ := tup
  cases heapTid with
  | none => cases attrs <;> simp [bound, compareKey, compareAttrs]
  | some tid => cases attrs <;> simp [bound, compareKey, compareAttrs]

theorem compareKey_bound_cons (scankey attr : α) (scankeys attrs : List α) (nextkey : Bool)
    (heapTid : Option Nat) :
    (bound (scankey :: scankeys) nextkey).compareKey ⟨attr :: attrs, heapTid⟩ =
      (compare scankey attr).then ((bound scankeys nextkey).compareKey ⟨attrs, heapTid⟩) := by
  simp [bound, compareKey, compareAttrs, then_assoc]

theorem compareKey_bound_anti (nextkey : Bool) (scankeys : List α) :
    ∀ {first second : Key α}, first ≤ second → ((bound scankeys nextkey).compareKey second = .gt →
        (bound scankeys nextkey).compareKey first = .gt) ∧
      ((bound scankeys nextkey).compareKey first = .lt →
        (bound scankeys nextkey).compareKey second = .lt) := by
  induction scankeys with
  | nil =>
    intro first second ordered
    rw [compareKey_bound_nil, compareKey_bound_nil]
    have empty : second.attrs = [] ∧ second.heapTid = none →
        first.attrs = [] ∧ first.heapTid = none := by
      rintro ⟨noAttrs, noTid⟩
      cases Key.le_cases ordered with
      | inl pre => rw [noAttrs] at pre; exact absurd pre (not_lt_nil _)
      | inr same => exact ⟨same.1.trans noAttrs, Key.truncated_of_le same.2 noTid⟩
    constructor
    · intro isGt
      by_cases isEmpty : second.attrs = [] ∧ second.heapTid = none
      · exact if_pos (empty isEmpty)
      · rw [if_neg isEmpty] at isGt
        cases isGt
    · intro isLt
      split at isLt <;> cases isLt
  | cons scankey scankeys ih =>
    intro first second ordered
    obtain ⟨firstAttrs, firstTid⟩ := first
    obtain ⟨secondAttrs, secondTid⟩ := second
    cases firstAttrs with
    | nil => exact ⟨fun _ => rfl, fun isLt => by cases isLt⟩
    | cons firstAttr firstAttrs =>
      cases secondAttrs with
      | nil =>
        cases Key.le_cases ordered with
        | inl pre => exact absurd pre (not_lt_nil _)
        | inr same => cases same.1
      | cons secondAttr secondAttrs =>
        rw [compareKey_bound_cons, compareKey_bound_cons]
        cases Key.le_cons ordered with
        | inl pre =>
          cases order : compare scankey secondAttr with
          | lt => exact ⟨fun isGt => (by cases isGt), fun _ => rfl⟩
          | eq =>
            have same := compare_eq_iff_eq.mp order
            have after : compare scankey firstAttr = .gt := compare_gt_iff_gt.mpr (same ▸ pre)
            rw [after]
            exact ⟨fun _ => rfl, fun isLt => by cases isLt⟩
          | gt =>
            have after : compare scankey firstAttr = .gt :=
              compare_gt_iff_gt.mpr (pre.trans (compare_gt_iff_gt.mp order))
            rw [after]
            exact ⟨fun _ => rfl, fun isLt => by cases isLt⟩
        | inr same =>
          obtain ⟨rfl, rest⟩ := same
          cases compare scankey firstAttr with
          | lt => exact ⟨id, id⟩
          | eq => exact ih rest
          | gt => exact ⟨id, id⟩

variable {key : ScanInsert α}

omit [LinearOrder α] in
theorem passes_gt (key : ScanInsert α) : key.passes .gt := by
  unfold passes
  split <;> rfl

theorem passes_of_le (isBound : key.IsBound) (ordered : first ≤ second)
    (passed : key.passes (key.compareKey second)) :
    key.passes (key.compareKey first) := by
  have anti := compareKey_bound_anti key.nextkey key.scankeys ordered
  rw [← isBound.eq] at anti
  unfold passes at passed ⊢
  cases next : key.nextkey with
  | false =>
    rw [next] at passed
    exact isGT_iff_eq_gt.mpr (anti.1 (isGT_iff_eq_gt.mp passed))
  | true =>
    rw [next] at passed
    refine isGE_iff_ne_lt.mpr fun isLt => ?_
    exact isGE_iff_ne_lt.mp passed (anti.2 isLt)

end ScanInsert

end PgAqp.Sampling
