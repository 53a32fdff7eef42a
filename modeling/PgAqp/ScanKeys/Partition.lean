import PgAqp.ScanKeys.Exact
import PgAqp.Library.Cut

/-!
# When the partitions are the scan

The leftmost partition keeps the lower bound of the partition column and the rightmost one
the upper bound; a middle one has only its boundaries.
-/

namespace PgAqp.ScanKeys

open Library.Cut List Option

variable {α τ : Type} [LinearOrder α]

/-! ## Setting the boundaries -/

omit [LinearOrder α] in
theorem setArgument_append (front : List (ScanKey α τ)) (key : ScanKey α τ)
    (rest : List (ScanKey α τ)) (value : α) :
    setArgument (front ++ key :: rest) front.length value =
      front ++ { key with argument := value } :: rest := by
  induction front with
  | nil => rfl
  | cons first front ih => exact congrArg (first :: ·) ih

theorem accepts_mk (attno : Nat) (strategy : Strategy) (subtype : τ) (argument : α) (row : Row α) :
    (⟨attno, strategy, subtype, argument⟩ : ScanKey α τ).Accepts row ↔
      ∃ value, row attno = some value ∧ strategy.Holds value argument :=
  Iff.rfl

section

variable [DecidableEq τ] [Zero α] {i : Index τ} {m : Memory α τ} {bounds : Bounds α τ}
  {pasted : List (ScanKey α τ)}

def SharedHold (i : Index τ) (m : Memory α τ) (bounds : Bounds α τ)
    (pasted : List (ScanKey α τ)) (row : Row α) : Prop :=
  AllAccept (emittedKeys i m bounds).1 row ∧ AllAccept pasted row

/-- The bound of a side on the partition column holds. -/
def LowerHolds (m : Memory α τ) (bounds : Bounds α τ) (row : Row α) : Prop :=
  AllAccept (endKeys false bounds.lb m.lb (partitionAttno m bounds)) row

@[inherit_doc LowerHolds]
def UpperHolds (m : Memory α τ) (bounds : Bounds α τ) (row : Row α) : Prop :=
  AllAccept (endKeys false bounds.ub m.ub (partitionAttno m bounds)) row

variable (partitioned : isAllequi i m bounds = false)
include partitioned

theorem lmostPartitionKeys_accepts (boundary : α) (row : Row α) :
    AllAccept (setArgument (assembleKeys i m bounds pasted).lmostPartitionKeys
        (assembleKeys i m bounds pasted).ubIdxInLmostPartition boundary) row ↔
      SharedHold i m bounds pasted row ∧ LowerHolds m bounds row ∧
        ∃ value, row (partitionAttno m bounds) = some value ∧ value < boundary := by
  simp only [assembleKeys, partitioned, Bool.false_eq_true, if_false]
  rw [← length_append, append_assoc _ [_] pasted, singleton_append, setArgument_append]
  simp only [allAccept_append, allAccept_cons, accepts_mk, Strategy.Holds, SharedHold, LowerHolds]
  tauto

theorem rmostPartitionKeys_accepts (boundary : α) (row : Row α) :
    AllAccept (setArgument (assembleKeys i m bounds pasted).rmostPartitionKeys
        (assembleKeys i m bounds pasted).lbIdxInRmostPartition boundary) row ↔
      SharedHold i m bounds pasted row ∧ UpperHolds m bounds row ∧
        ∃ value, row (partitionAttno m bounds) = some value ∧ boundary ≤ value := by
  simp only [assembleKeys, partitioned, Bool.false_eq_true, if_false]
  rw [append_assoc _ [_] _, append_assoc _ _ pasted, append_assoc [_] _ pasted,
    singleton_append, setArgument_append]
  simp only [allAccept_append, allAccept_cons, accepts_mk, Strategy.Holds, SharedHold, UpperHolds]
  tauto

theorem partitionKeys_accepts (from_ to_ : α) (row : Row α) :
    AllAccept (setArgument (setArgument (assembleKeys i m bounds pasted).partitionKeys
        (assembleKeys i m bounds pasted).lbIdxInPartitionKeys from_)
        (assembleKeys i m bounds pasted).ubIdxInPartitionKeys to_) row ↔
      SharedHold i m bounds pasted row ∧
        ∃ value, row (partitionAttno m bounds) = some value ∧ from_ ≤ value ∧ value < to_ := by
  have next (front : List (ScanKey α τ)) (key : ScanKey α τ) :
      front.length + 1 = (front ++ [key]).length := by
    rw [length_append, length_singleton]
  simp only [assembleKeys, partitioned, Bool.false_eq_true, if_false]
  rw [append_assoc _ _ pasted, cons_append, singleton_append, setArgument_append,
    next _ ⟨partitionAttno m bounds, .greaterEqual,
      i.atttypid (partitionAttno m bounds), from_⟩, append_cons,
    setArgument_append]
  simp only [allAccept_append, allAccept_cons, allAccept_nil, accepts_mk, Strategy.Holds,
    SharedHold, and_true]
  constructor
  · rintro ⟨⟨shared, value, found, above⟩, ⟨other, otherFound, under⟩, pastedHold⟩
    rw [found] at otherFound
    cases otherFound
    exact ⟨⟨shared, pastedHold⟩, value, found, above, under⟩
  · rintro ⟨⟨shared, pastedHold⟩, value, found, above, under⟩
    exact ⟨⟨shared, value, found, above⟩, ⟨value, found, under⟩, pastedHold⟩

theorem partitionScanKeys_accepts (nonempty : 0 < boundaries.length)
    (within : cell ≤ boundaries.length) (row : Row α) :
    AllAccept (partitionScanKeys (assembleKeys i m bounds pasted) boundaries cell) row ↔
      SharedHold i m bounds pasted row ∧
      ((cell = 0 → LowerHolds m bounds row) ∧
        (cell = boundaries.length → UpperHolds m bounds row)) ∧
      ∃ value, row (partitionAttno m bounds) = some value ∧ InCell boundaries cell value := by
  have notEmpty : boundaries.length ≠ 0 := Nat.pos_iff_ne_zero.mp nonempty
  rw [partitionScanKeys, if_neg notEmpty]
  by_cases first : cell = 0
  · subst first
    simp only [if_true, lmostPartitionKeys_accepts partitioned, inCell_first nonempty 0,
      true_implies, notEmpty.symm, false_implies, and_true]
  · rw [if_neg first]
    by_cases last : cell = boundaries.length
    · subst last
      simp only [if_true, rmostPartitionKeys_accepts partitioned, inCell_last nonempty 0, first,
        false_implies, true_implies, true_and]
    · have positive : 0 < cell := Nat.pos_of_ne_zero first
      have inside : cell < boundaries.length := Nat.lt_of_le_of_ne within last
      rw [if_neg last, partitionKeys_accepts partitioned]
      simp only [inCell_middle positive inside 0, first, last, false_implies, true_and]

theorem exists_partition_accepts_iff (nonempty : 0 < boundaries.length)
    (increasing : boundaries.Pairwise (· < ·)) (row : Row α) :
    (∃ cell ≤ boundaries.length, AllAccept
        (partitionScanKeys (assembleKeys i m bounds pasted) boundaries cell) row) ↔
      SharedHold i m bounds pasted row ∧
      ∃ value, row (partitionAttno m bounds) = some value ∧
        (cellOf boundaries value = 0 → LowerHolds m bounds row) ∧
        (cellOf boundaries value = boundaries.length → UpperHolds m bounds row) := by
  constructor
  · rintro ⟨cell, within, accepted⟩
    obtain ⟨shared, ends, value, found, inside⟩ :=
      (partitionScanKeys_accepts partitioned nonempty within row).mp accepted
    cases (inCell_iff increasing within value).mp inside
    exact ⟨shared, value, found, ends⟩
  · rintro ⟨shared, value, found, ends⟩
    refine ⟨cellOf boundaries value, cellOf_le boundaries value, ?_⟩
    refine (partitionScanKeys_accepts partitioned nonempty (cellOf_le boundaries value) row).mpr
      ⟨shared, ends, value, found, ?_⟩
    exact (inCell_iff increasing (cellOf_le boundaries value) value).mpr rfl

end

def PairwiseDisjoint [Zero α] (plan : Subplan α τ) (boundaries : List α) : Prop :=
  ∀ first ≤ boundaries.length, ∀ second ≤ boundaries.length, ∀ row,
    AllAccept (partitionScanKeys plan boundaries first) row →
    AllAccept (partitionScanKeys plan boundaries second) row → first = second

/-- Together the partitions select the rows of the scan. -/
def CoversScan [Zero α] (plan : Subplan α τ) (boundaries : List α) : Prop :=
  ∀ row, AllAccept plan.scanKeys row ↔
    ∃ cell ≤ boundaries.length, AllAccept (partitionScanKeys plan boundaries cell) row

section

variable [DecidableEq τ] (i : Index τ) (m : Memory α τ) (bounds : Bounds α τ)

/-- The partitions of a subplan that can be partitioned are disjoint and cover the scan. -/
def PartitionsExactly [Zero α] (clauses : List (Clause α τ)) (boundaries : List α) : Prop :=
  match buildScankeys i m clauses with
  | .stopped _ => True
  | .undefined => False
  | .subplan plan =>
    plan.allequi = false → PairwiseDisjoint plan boundaries ∧ CoversScan plan boundaries

/-! ## The exact condition -/

/-- The bounds of the partition column that the copy from the wrong array repeats in every
key set: it copies one key for each additional key that is left, and the bounds come after
the keys of the earlier columns. -/
def RepeatedHold (row : Row α) : Prop :=
  let left := (placedQuals m bounds).2.length
  let before := partitionAttno m bounds - 1
  (before < left → LowerHolds m bounds row) ∧
    (before + (endKeys false bounds.lb m.lb (partitionAttno m bounds)).length < left →
      UpperHolds m bounds row)

/-- The partitions treat the row as the scan does: a null is excluded by a bound, and a
value is inside the bounds where its partition does not ask for them. -/
def ColumnCovered (boundaries : List α) (row : Row α) : Prop :=
  match row (partitionAttno m bounds) with
  | none => LowerHolds m bounds row → ¬ UpperHolds m bounds row
  | some value => RepeatedHold m bounds row →
      (∀ first, boundaries.head? = some first → value < first →
        LowerHolds m bounds row → UpperHolds m bounds row) ∧
      (∀ last, boundaries.getLast? = some last → last ≤ value →
        UpperHolds m bounds row → LowerHolds m bounds row) ∧
      (∀ first, boundaries.head? = some first → first ≤ value →
        ∀ last, boundaries.getLast? = some last → value < last →
          LowerHolds m bounds row ∧ UpperHolds m bounds row)

/-- What merging leaves is covered: the copy is defined, and every row that the earlier
columns admit is treated as the scan treats it. -/
structure CoveredBounds (boundaries : List α) : Prop where
  copyable : Copyable i m bounds
  column : isAllequi i m bounds = false → boundaries ≠ [] → ∀ row,
    AllAccept (emittedKeys i m bounds).1 row → ColumnCovered m bounds boundaries row

def Covered (clauses : List (Clause α τ)) (boundaries : List α) : Prop :=
  ∀ bounds, foldQuals i ⟨[], [], []⟩ clauses = .ok bounds →
    LacksOperators i m bounds ∨ CoveredBounds i m bounds boundaries

end

/-! ## Both directions -/

theorem allAccept_take_of_short {keys : List (ScanKey α τ)} (short : keys.length ≤ 1)
    (count : Nat) (row : Row α) :
    AllAccept (keys.take count) row ↔ (0 < count → AllAccept keys row) := by
  cases count with
  | zero => simp
  | succ count =>
    rw [take_of_length_le (by omega)]
    simp

omit [LinearOrder α] in
theorem endKeys_short (allequi : Bool) (keys : List (ScanKey α τ)) (old : Nat → ScanKey α τ)
    (attno : Nat) : (endKeys allequi keys old attno).length ≤ 1 := by
  unfold endKeys
  split <;> simp

/-- The copied keys, for a row that the keys of the earlier columns accept: they repeat
the bounds as far as the copy reaches. -/
theorem copiedKeys_accepts_iff (length : front.length = placed + start)
    (lowerShort : lower.length ≤ 1) (upperShort : upper.length ≤ 1)
    (found : copiedKeys allequi (front ++ lower ++ upper) start left = some copied) {row : Row α}
    (accepted : AllAccept front row) :
    AllAccept copied row ↔ (placed < left → AllAccept lower row) ∧
      (placed + lower.length < left → AllAccept upper row) := by
  unfold copiedKeys at found
  split at found
  case isTrue nothing =>
    cases found
    simp [nothing]
  case isFalse =>
    obtain ⟨-, ⟨⟩⟩ := ite_none_left_eq_some.mp found
    have rest : (front.drop start).length = placed := by
      rw [length_drop, length]
      omega
    have frontAccepts : AllAccept ((front.drop start).take left) row := fun key mem =>
      accepted key (mem_of_mem_drop (mem_of_mem_take mem))
    rw [append_assoc, drop_append_of_le_length (by omega), take_append,
      take_append, rest, allAccept_append, allAccept_append,
      allAccept_take_of_short lowerShort, allAccept_take_of_short upperShort,
      and_iff_right frontAccepts]
    refine and_congr ?_ ?_
    · rw [Nat.sub_pos_iff_lt]
    · rw [Nat.sub_pos_iff_lt, Nat.lt_sub_iff_add_lt']

/-- The scan and the partitions agree on a row whose partition column has a value. -/
theorem covers_value_iff {cell count : Nat}
    (positive : 0 < count) (implied : lower ∧ upper → pasted) :
    (front ∧ lower ∧ upper ↔ (front ∧ pasted) ∧ (cell = 0 → lower) ∧ (cell = count → upper)) ↔
    (front → pasted → (cell = 0 → lower → upper) ∧ (cell = count → upper → lower) ∧
      (cell ≠ 0 → cell ≠ count → lower ∧ upper)) := by
  by_cases first : cell = 0
  · have notLast : cell ≠ count := by omega
    simp only [first, true_implies, ne_eq, not_true_eq_false, false_implies, and_true]
    rw [first] at notLast
    tauto
  · by_cases last : cell = count
    · simp only [last, true_implies, ne_eq, not_true_eq_false, false_implies, implies_true,
        and_true]
      rw [last] at first
      tauto
    · tauto

section

variable [DecidableEq τ] [Zero α]

omit [LinearOrder α] in
theorem assembleKeys_allequi (i : Index τ) (m : Memory α τ) (bounds : Bounds α τ)
    (pasted : List (ScanKey α τ)) :
    (assembleKeys i m bounds pasted).allequi = isAllequi i m bounds := by
  unfold assembleKeys
  cases isAllequi i m bounds <;> rfl

variable {pasted : List (ScanKey α τ)}

theorem partitions_disjoint {i : Index τ} {m : Memory α τ}
    (partitioned : isAllequi i m bounds = false) (increasing : boundaries.Pairwise (· < ·)) :
    PairwiseDisjoint (assembleKeys i m bounds pasted) boundaries := by
  intro first firstWithin second secondWithin row inFirst inSecond
  rcases Nat.eq_zero_or_pos boundaries.length with empty | nonempty
  · omega
  · obtain ⟨_, _, value, found, firstCell⟩ :=
      (partitionScanKeys_accepts partitioned nonempty firstWithin row).mp inFirst
    obtain ⟨_, _, other, otherFound, secondCell⟩ :=
      (partitionScanKeys_accepts partitioned nonempty secondWithin row).mp inSecond
    rw [found] at otherFound
    cases otherFound
    exact ((inCell_iff increasing firstWithin value).mp firstCell).symm.trans
      ((inCell_iff increasing secondWithin value).mp secondCell)

theorem buildScankeys_eq_subplan {i : Index τ} {m : Memory α τ}
    (built : buildScankeys i m clauses = .subplan plan) :
    ∃ bounds pasted, plan = assembleKeys i m bounds pasted := by
  unfold buildScankeys at built
  split at built
  · cases built
  case h_2 bounds _ =>
    unfold emitKeys at built
    split at built
    · cases built
    · split at built
      · cases built
      · cases built
        exact ⟨bounds, _, rfl⟩

theorem covers_row_iff {i : Index τ} {m : Memory α τ} {bounds : Bounds α τ}
    (pastedEq : pastedKeys i m bounds = some pasted) (partitioned : isAllequi i m bounds = false)
    (increasing : boundaries.Pairwise (· < ·)) (nonempty : boundaries ≠ []) (row : Row α) :
    (AllAccept (assembleKeys i m bounds pasted).scanKeys row ↔
      ∃ cell ≤ boundaries.length, AllAccept
        (partitionScanKeys (assembleKeys i m bounds pasted) boundaries cell) row) ↔
    (AllAccept (emittedKeys i m bounds).1 row → ColumnCovered m bounds boundaries row) := by
  have positive : 0 < boundaries.length := length_pos_iff.mpr nonempty
  have scanned : AllAccept (assembleKeys i m bounds pasted).scanKeys row ↔
      AllAccept (emittedKeys i m bounds).1 row ∧
        LowerHolds m bounds row ∧ UpperHolds m bounds row := by
    rw [assembleKeys_scanKeys, copiedKeys_accepts pastedEq, scanFront, partitioned,
      allAccept_append, allAccept_append, and_assoc]
    rfl
  -- the copied keys repeat bounds
  have repeated (holds : AllAccept (emittedKeys i m bounds).1 row) :
      AllAccept pasted row ↔ RepeatedHold m bounds row := by
    have positions := splitQuals_length (partitionAttno m bounds - 1) 1 bounds.quals
    rw [← placedQuals] at positions
    have found := pastedEq
    rw [pastedKeys, scanFront, emittedKeys_left, partitioned] at found
    have frontLength : (emittedKeys i m bounds).1.length = partitionAttno m bounds - 1 +
        (bounds.quals.length - (placedQuals m bounds).2.length) := by
      rw [emittedKeys_length]
      omega
    exact copiedKeys_accepts_iff frontLength (endKeys_short ..) (endKeys_short ..) found holds
  have shared : SharedHold i m bounds pasted row ↔
      AllAccept (emittedKeys i m bounds).1 row ∧ RepeatedHold m bounds row :=
    and_congr_right repeated
  rw [exists_partition_accepts_iff partitioned positive increasing row, scanned, shared]
  unfold ColumnCovered
  cases row (partitionAttno m bounds) with
  | none =>
    simp only [reduceCtorEq, false_and, exists_false, and_false, iff_false, not_and]
  | some value =>
    obtain ⟨first, rest, rfl⟩ := exists_cons_of_ne_nil nonempty
    obtain ⟨last, isLast⟩ : ∃ last, (first :: rest).getLast? = some last :=
      ⟨_, getLast?_eq_some_getLast (by simp)⟩
    have cellFirst := cellOf_eq_zero_iff first rest value
    have cellLast := cellOf_eq_length_iff increasing isLast value
    have implied : LowerHolds m bounds row ∧ UpperHolds m bounds row →
        RepeatedHold m bounds row := fun both => ⟨fun _ => both.1, fun _ => both.2⟩
    simp only [some.injEq, exists_eq_left', isLast, head?_cons, forall_eq']
    rw [covers_value_iff positive implied, cellFirst, cellLast]
    simp only [ne_eq, cellFirst, cellLast, not_lt, not_le]

/-- The partitions of the built subplan, for what merging leaves. -/
theorem emitKeys_covers_iff (i : Index τ) (m : Memory α τ) (bounds : Bounds α τ)
    (increasing : boundaries.Pairwise (· < ·)) :
    (match emitKeys i m bounds with
      | .stopped _ => True
      | .undefined => False
      | .subplan plan => plan.allequi = false →
        PairwiseDisjoint plan boundaries ∧ CoversScan plan boundaries) ↔
    LacksOperators i m bounds ∨ CoveredBounds i m bounds boundaries := by
  rcases emitKeys_cases i m bounds with ⟨lacks, res⟩ |
    ⟨has, ⟨notCopyable, res⟩ | ⟨copyable, pasted, pastedEq, res, -⟩⟩
  · rw [res]
    exact iff_of_true trivial (.inl lacks)
  · rw [res]
    refine iff_of_false id ?_
    rintro (lacks | covered)
    · exact has lacks
    · exact notCopyable covered.copyable
  · have onlyColumn : CoveredBounds i m bounds boundaries ↔ (isAllequi i m bounds = false →
        boundaries ≠ [] → ∀ row, AllAccept (emittedKeys i m bounds).1 row →
          ColumnCovered m bounds boundaries row) :=
      ⟨fun covered => covered.column, fun column => ⟨copyable, column⟩⟩
    rw [res, or_iff_right has, onlyColumn]
    dsimp only
    rw [assembleKeys_allequi]
    refine imp_congr_right fun partitioned => ?_
    rw [and_iff_right (partitions_disjoint partitioned increasing)]
    by_cases nonempty : boundaries = []
    · -- a single partition is scanned with the keys of the scan
      subst nonempty
      refine iff_of_true (fun row => ?_) fun never => absurd rfl never
      constructor
      · exact fun accepted => ⟨0, le_rfl, accepted⟩
      · rintro ⟨cell, _, accepted⟩
        exact accepted
    · rw [imp_iff_right nonempty]
      exact forall_congr' fun row => covers_row_iff pastedEq partitioned increasing nonempty row

end

end PgAqp.ScanKeys
