import PgAqp.ScanKeys.Merge
import Mathlib.Algebra.GroupWithZero.Nat

/-!
# When the scan keys are the qualifications

The bounds and the additional keys that merging leaves demand what the qualifications demand.
Emitting them may lose three things.  What is left of the additional keys is copied from the
wrong array.  On a column before the partition column one of its two bounds is emitted, and
where the constants of the column cannot be compared the other one may be stronger.  And the
entry of a bound array that is emitted may never have been written.
-/

namespace PgAqp.ScanKeys

open List Option

variable {α τ : Type}

/-! ## Emitting the additional keys -/

/-- The additional keys that are emitted with their columns, and the rest. -/
def splitQuals : Nat → Nat → List (ScanKey α τ) → List (ScanKey α τ) × List (ScanKey α τ)
  | 0, _, quals => ([], quals)
  | count + 1, attno, quals =>
    let rest := splitQuals count (attno + 1) (quals.dropWhile fun key => key.attno = attno)
    (quals.takeWhile (fun key => key.attno = attno) ++ rest.1, rest.2)

theorem splitQuals_append (count attno : Nat) (quals : List (ScanKey α τ)) :
    (splitQuals count attno quals).1 ++ (splitQuals count attno quals).2 = quals := by
  induction count generalizing attno quals with
  | zero => rfl
  | succ count ih => rw [splitQuals, append_assoc, ih, takeWhile_append_dropWhile]

theorem splitQuals_length (count attno : Nat) (quals : List (ScanKey α τ)) :
    (splitQuals count attno quals).1.length + (splitQuals count attno quals).2.length =
      quals.length := by
  rw [← length_append, splitQuals_append]

theorem emitPrefix_left (choose : Nat → ScanKey α τ) (count attno : Nat)
    (quals : List (ScanKey α τ)) :
    (emitPrefix choose count attno quals).2 = (splitQuals count attno quals).2 := by
  induction count generalizing attno quals with
  | zero => rfl
  | succ count ih => exact ih _ _

theorem emitPrefix_length (choose : Nat → ScanKey α τ) (count attno : Nat)
    (quals : List (ScanKey α τ)) :
    (emitPrefix choose count attno quals).1.length =
      count + (splitQuals count attno quals).1.length := by
  induction count generalizing attno quals with
  | zero => rfl
  | succ count ih =>
    simp only [emitPrefix, splitQuals, cons_append, length_cons, length_append, ih]
    omega

theorem emitPrefix_accepts [LinearOrder α] (choose : Nat → ScanKey α τ) (count attno : Nat)
    (quals : List (ScanKey α τ)) (row : Row α) :
    AllAccept (emitPrefix choose count attno quals).1 row ↔
      (∀ i < count, (choose (attno + i)).Accepts row) ∧
        AllAccept (splitQuals count attno quals).1 row := by
  induction count generalizing attno quals with
  | zero => simp [emitPrefix, splitQuals]
  | succ count ih =>
    have columns : (∀ i < count + 1, (choose (attno + i)).Accepts row) ↔
        (choose attno).Accepts row ∧ ∀ i < count, (choose (attno + 1 + i)).Accepts row := by
      constructor
      · intro all
        refine ⟨all 0 (Nat.succ_pos _), fun i below => ?_⟩
        have next := all (i + 1) (Nat.succ_lt_succ below)
        rwa [show attno + (i + 1) = attno + 1 + i by omega] at next
      · rintro ⟨first, rest⟩ i below
        cases i with
        | zero => exact first
        | succ i =>
          rw [show attno + (i + 1) = attno + 1 + i by omega]
          exact rest i (Nat.lt_of_succ_lt_succ below)
    simp only [emitPrefix, splitQuals, cons_append, allAccept_cons, allAccept_append, ih, columns]
    tauto

/-! ## Copying the rest -/

theorem copiedKeys_accepts [LinearOrder α]
    (found : copiedKeys allequi scanKeys pos remaining = some copied) (row : Row α) :
    AllAccept (scanKeys ++ copied) row ↔ AllAccept scanKeys row := by
  have inside : ∀ key ∈ copied, key ∈ scanKeys := by
    intro key mem
    unfold copiedKeys at found
    split at found
    · cases found
      cases mem
    · split at found
      · cases found
      · cases found
        exact mem_of_mem_drop (mem_of_mem_take mem)
  rw [allAccept_append]
  exact and_iff_left_of_imp fun accepted key mem => accepted key (inside key mem)

theorem copiedKeys_isSome_iff (allequi : Bool) (scanKeys : List (ScanKey α τ))
    (pos remaining : Nat) :
    (copiedKeys allequi scanKeys pos remaining).isSome ↔
      remaining = 0 ∨ (allequi = false ∧ pos + remaining ≤ scanKeys.length) := by
  unfold copiedKeys
  split
  case isTrue none => simp [none]
  case isFalse some =>
    split
    case isTrue outside =>
      simp only [isSome_none, Bool.false_eq_true, some, false_or, false_iff, not_and]
      intro partitioned
      rcases outside with allequi | short
      · rw [partitioned] at allequi
        cases allequi
      · omega
    case isFalse inside =>
      rw [not_or, Bool.not_eq_true] at inside
      simp only [isSome_some, some, false_or, true_iff]
      exact ⟨inside.1, by omega⟩

theorem assembleKeys_scanKeys [DecidableEq τ] [Zero α] (index : Index τ) (m : Memory α τ)
    (bounds : Bounds α τ) (pasted : List (ScanKey α τ)) :
    (assembleKeys index m bounds pasted).scanKeys = scanFront index m bounds ++ pasted := by
  unfold assembleKeys scanFront
  cases allequi : isAllequi index m bounds with
  | true => simp [endKeys]
  | false => simp

/-! ## The exact condition -/

section

variable [DecidableEq τ] (i : Index τ) (m : Memory α τ) (bounds : Bounds α τ)

/-- The additional keys that are emitted with the columns before the partition column, and
those that are left. -/
def placedQuals : List (ScanKey α τ) × List (ScanKey α τ) :=
  splitQuals (partitionAttno m bounds - 1) 1 bounds.quals

def lowerEnd : List (ScanKey α τ) :=
  endKeys (isAllequi i m bounds) bounds.lb m.lb (partitionAttno m bounds)

def upperEnd : List (ScanKey α τ) :=
  endKeys (isAllequi i m bounds) bounds.ub m.ub (partitionAttno m bounds)

/-- Copying the keys that are left from the wrong array has a defined result. -/
def Copyable : Prop :=
  (placedQuals m bounds).2.length = 0 ∨ (isAllequi i m bounds = false ∧
    (placedQuals m bounds).2.length ≤
      partitionAttno m bounds - 1 + ((lowerEnd i m bounds).length + (upperEnd i m bounds).length))

/-- The entry that is emitted for a column lies behind the bounds of its array. -/
def Unwritten (attno : Nat) : Prop :=
  if (boundAt bounds.lb m.lb attno).subtype = i.opcintype attno then bounds.lb.length < attno
  else bounds.ub.length < attno

/-- There is an error because the family has no operators for the boundaries. -/
def LacksOperators : Prop :=
  isAllequi i m bounds = false ∧ hasBoundaryOperators i (partitionAttno m bounds) = false

variable [LinearOrder α]

/-- What the emitted keys demand of a row: one key for each column before the partition column
with the additional keys of these columns, and the bounds of the partition column. -/
def EmittedHold (row : Row α) : Prop :=
  ((∀ c < partitionAttno m bounds - 1, (equalityKey i m bounds (1 + c)).Accepts row) ∧
    AllAccept (placedQuals m bounds).1 row) ∧
  AllAccept (lowerEnd i m bounds) row ∧ AllAccept (upperEnd i m bounds) row

/-- The bounds and the additional keys are represented: the copy has a defined result, the keys
that are emitted imply both bounds of every column and the additional keys that are left, and an
entry that was never written says nothing more than the rest. -/
structure RepresentedBounds : Prop where
  copyable : Copyable i m bounds
  sides : ∀ row, EmittedHold i m bounds row → AllAccept bounds.lb row ∧ AllAccept bounds.ub row
  left : ∀ row, EmittedHold i m bounds row → AllAccept (placedQuals m bounds).2 row
  unwritten : ∀ row, bounds.AcceptOn (fun _ => True) row →
    ∀ c < partitionAttno m bounds - 1, Unwritten i m bounds (1 + c) →
      (equalityKey i m bounds (1 + c)).Accepts row

/-- The keys of the scan, or the report of an empty result, say what the qualifications
say.  Where the builder rejects the list there are no keys; a copy without a defined
result says nothing. -/
def BuildsExactly [Zero α] (clauses : List (Clause α τ)) : Prop :=
  match buildScankeys i m clauses with
  | .stopped .emptyres => ∀ row, ¬ Satisfies clauses row
  | .stopped _ => True
  | .undefined => False
  | .subplan plan => ∀ row, AllAccept plan.scanKeys row ↔ Satisfies clauses row

def Represented (clauses : List (Clause α τ)) : Prop :=
  ∀ bounds, foldQuals i ⟨[], [], []⟩ clauses = .ok bounds →
    LacksOperators i m bounds ∨ RepresentedBounds i m bounds

end

/-! ## Both directions -/

section

variable [DecidableEq τ] {i : Index τ} {m : Memory α τ} {bounds : Bounds α τ}

omit [DecidableEq τ] in
theorem boundAt_mem {keys : List (ScanKey α τ)} (old : Nat → ScanKey α τ) (positive : 1 ≤ attno)
    (within : attno ≤ keys.length) : boundAt keys old attno ∈ keys := by
  have inside : attno - 1 < keys.reverse.length := by
    rw [length_reverse]
    omega
  rw [boundAt, getElem?_eq_getElem inside, getD_some]
  exact mem_reverse.mp (getElem_mem inside)

omit [DecidableEq τ] in
theorem endKeys_mem {keys : List (ScanKey α τ)} (positive : 1 ≤ attno)
    (mem : key ∈ endKeys allequi keys old attno) : key ∈ keys := by
  unfold endKeys at mem
  split at mem
  case isTrue bounded =>
    rw [mem_singleton.mp mem]
    exact boundAt_mem old positive (by omega)
  · cases mem

omit [DecidableEq τ] in
theorem partitionAttno_pos (m : Memory α τ) (bounds : Bounds α τ) :
    1 ≤ partitionAttno m bounds := by
  unfold partitionAttno
  dsimp only
  split <;> omega

theorem emittedKeys_length : (emittedKeys i m bounds).1.length =
    partitionAttno m bounds - 1 + (placedQuals m bounds).1.length :=
  emitPrefix_length ..

theorem emittedKeys_left : (emittedKeys i m bounds).2 = (placedQuals m bounds).2 :=
  emitPrefix_left ..

theorem pastedKeys_isSome_iff : (pastedKeys i m bounds).isSome ↔ Copyable i m bounds := by
  have positions := splitQuals_length (partitionAttno m bounds - 1) 1 bounds.quals
  rw [← placedQuals] at positions
  rw [pastedKeys, copiedKeys_isSome_iff, scanFront, length_append, length_append,
    emittedKeys_length, emittedKeys_left]
  refine or_congr Iff.rfl (and_congr_right fun _ => ?_)
  unfold lowerEnd upperEnd
  omega

variable [LinearOrder α]

theorem scanFront_accepts (row : Row α) :
    AllAccept (scanFront i m bounds) row ↔ EmittedHold i m bounds row := by
  rw [scanFront, allAccept_append, allAccept_append, emittedKeys, emitPrefix_accepts, and_assoc]
  rfl

/-- What is emitted is a bound, an additional key, or an entry that was never written. -/
theorem emittedHold_of_accepts (accepted : bounds.AcceptOn (fun _ => True) row)
    (unwritten : ∀ c < partitionAttno m bounds - 1, Unwritten i m bounds (1 + c) →
      (equalityKey i m bounds (1 + c)).Accepts row) : EmittedHold i m bounds row := by
  obtain ⟨lower, upper, quals⟩ := accepted
  have positive := partitionAttno_pos m bounds
  refine ⟨⟨fun c before => ?_, fun key mem => ?_⟩, fun key mem => ?_, fun key mem => ?_⟩
  · by_cases isUnwritten : Unwritten i m bounds (1 + c)
    · exact unwritten c before isUnwritten
    · unfold Unwritten at isUnwritten
      unfold equalityKey
      dsimp only
      split at isUnwritten
      case isTrue own =>
        rw [if_pos own]
        exact lower _ (boundAt_mem m.lb (by omega) (by omega)) trivial
      case isFalse other =>
        rw [if_neg other]
        exact upper _ (boundAt_mem m.ub (by omega) (by omega)) trivial
  · have inside := mem_append_left (placedQuals m bounds).2 mem
    rw [placedQuals, splitQuals_append] at inside
    exact quals key inside trivial
  · exact lower key (endKeys_mem positive mem) trivial
  · exact upper key (endKeys_mem positive mem) trivial

/-- The emitted keys are what merging leaves, exactly if that is represented. -/
theorem emittedHold_iff_accepts : (∀ row, EmittedHold i m bounds row ↔
      bounds.AcceptOn (fun _ => True) row) ↔
    (∀ row, EmittedHold i m bounds row → AllAccept bounds.lb row ∧ AllAccept bounds.ub row) ∧
    (∀ row, EmittedHold i m bounds row → AllAccept (placedQuals m bounds).2 row) ∧
    ∀ row, bounds.AcceptOn (fun _ => True) row →
      ∀ c < partitionAttno m bounds - 1, Unwritten i m bounds (1 + c) →
        (equalityKey i m bounds (1 + c)).Accepts row := by
  have quals := splitQuals_append (partitionAttno m bounds - 1) 1 bounds.quals
  simp only [Bounds.AcceptOn, ← allAccept_iff_acceptOn]
  constructor
  · intro exactly
    refine ⟨fun row holds => ⟨((exactly row).mp holds).1, ((exactly row).mp holds).2.1⟩,
      fun row holds key mem => ?_, fun row accepted c before _ => ?_⟩
    · exact ((exactly row).mp holds).2.2 key (quals ▸ mem_append_right _ mem)
    · exact ((exactly row).mpr accepted).1.1 c before
  · rintro ⟨both, left, unwritten⟩ row
    constructor
    · intro holds
      refine ⟨(both row holds).1, (both row holds).2, ?_⟩
      rw [← quals, allAccept_append]
      exact ⟨holds.1.2, left row holds⟩
    · intro accepted
      refine emittedHold_of_accepts ?_ (unwritten row accepted)
      simpa only [Bounds.AcceptOn, ← allAccept_iff_acceptOn] using accepted

variable [Zero α]

theorem emitKeys_cases (i : Index τ) (m : Memory α τ) (bounds : Bounds α τ) :
    (LacksOperators i m bounds ∧ emitKeys i m bounds = .stopped .error) ∨
    ¬ LacksOperators i m bounds ∧
      ((¬ Copyable i m bounds ∧ emitKeys i m bounds = .undefined) ∨
      (Copyable i m bounds ∧ ∃ pasted, pastedKeys i m bounds = some pasted ∧
        emitKeys i m bounds = .subplan (assembleKeys i m bounds pasted) ∧
        ∀ row, AllAccept (assembleKeys i m bounds pasted).scanKeys row ↔
          EmittedHold i m bounds row)) := by
  by_cases lacks : LacksOperators i m bounds
  · exact .inl ⟨lacks, if_pos lacks⟩
  refine .inr ⟨lacks, ?_⟩
  unfold LacksOperators at lacks
  rw [emitKeys, if_neg lacks, ← pastedKeys_isSome_iff]
  cases found : pastedKeys i m bounds with
  | none => exact .inl ⟨by simp, rfl⟩
  | some pasted =>
    refine .inr ⟨rfl, pasted, rfl, rfl, fun row => ?_⟩
    rw [assembleKeys_scanKeys, copiedKeys_accepts found, scanFront_accepts]

/-- Whatever the operator family lacks, a reported empty result is one. -/
theorem emptyres_sound (i : Index τ) (m : Memory α τ) (clauses : List (Clause α τ))
    (reported : buildScankeys i m clauses = .stopped .emptyres) :
    ∀ row, ¬ Satisfies clauses row := by
  have sound := (foldQuals_sound i clauses ⟨[], [], []⟩ sided_empty).2
  unfold buildScankeys at reported
  split at reported
  case h_1 stop stopped =>
    cases reported
    exact fun row => sound stopped row ⟨acceptOn_nil _ _, acceptOn_nil _ _, acceptOn_nil _ _⟩
  case h_2 bounds folded =>
    unfold emitKeys at reported
    split at reported
    · cases reported
    · split at reported <;> cases reported

end

/-! ## Columns with one key -/

section

variable [DecidableEq τ] [LinearOrder α] {i : Index τ} {m : Memory α τ} {bounds : Bounds α τ}

omit [DecidableEq τ] [LinearOrder α] in
theorem exists_boundAt {keys : List (ScanKey α τ)} (old : Nat → ScanKey α τ) (mem : key ∈ keys) :
    ∃ attno, 1 ≤ attno ∧ attno ≤ keys.length ∧ boundAt keys old attno = key := by
  obtain ⟨position, inside, found⟩ := mem_iff_getElem.mp (mem_reverse.mpr mem)
  rw [length_reverse] at inside
  refine ⟨position + 1, Nat.succ_pos position, inside, ?_⟩
  rw [boundAt, Nat.add_sub_cancel, getElem?_eq_getElem (by rwa [length_reverse]), getD_some, found]

omit [DecidableEq τ] [LinearOrder α] in
theorem length_le_partitionAttno (m : Memory α τ) (bounds : Bounds α τ) :
    bounds.lb.length ≤ partitionAttno m bounds ∧ bounds.ub.length ≤ partitionAttno m bounds := by
  unfold partitionAttno
  dsimp only
  split <;> omega

/-- Every column before the partition column has one key in both arrays, and no additional key
is left: then nothing is lost. -/
theorem representedBounds_of_agree (agree : ∀ c < partitionAttno m bounds - 1,
      1 + c ≤ bounds.lb.length ∧ 1 + c ≤ bounds.ub.length ∧
        boundAt bounds.lb m.lb (1 + c) = boundAt bounds.ub m.ub (1 + c))
    (partitioned : isAllequi i m bounds = false) (noneLeft : (placedQuals m bounds).2 = []) :
    RepresentedBounds i m bounds := by
  have within := length_le_partitionAttno m bounds
  have chosen (c : Nat) (before : c < partitionAttno m bounds - 1) :
      equalityKey i m bounds (1 + c) = boundAt bounds.lb m.lb (1 + c) ∧
        equalityKey i m bounds (1 + c) = boundAt bounds.ub m.ub (1 + c) := by
    unfold equalityKey
    dsimp only
    split
    · exact ⟨rfl, (agree c before).2.2⟩
    · exact ⟨(agree c before).2.2.symm, rfl⟩
  refine ⟨.inl (by rw [noneLeft, length_nil]), fun row holds => ⟨fun key mem => ?_,
    fun key mem => ?_⟩, fun row _ => noneLeft ▸ allAccept_nil row, fun row _ c before never => ?_⟩
  · obtain ⟨attno, positive, inside, rfl⟩ := exists_boundAt m.lb mem
    rcases Nat.lt_or_ge attno (partitionAttno m bounds) with before | last
    · have accepted := holds.1.1 (attno - 1) (by omega)
      rwa [(chosen (attno - 1) (by omega)).1, show 1 + (attno - 1) = attno by omega] at accepted
    · obtain rfl : attno = partitionAttno m bounds := by omega
      refine holds.2.1 _ ?_
      rw [lowerEnd, endKeys, partitioned, if_pos ⟨rfl, by omega⟩]
      exact mem_singleton.mpr rfl
  · obtain ⟨attno, positive, inside, rfl⟩ := exists_boundAt m.ub mem
    rcases Nat.lt_or_ge attno (partitionAttno m bounds) with before | last
    · have accepted := holds.1.1 (attno - 1) (by omega)
      rwa [(chosen (attno - 1) (by omega)).2, show 1 + (attno - 1) = attno by omega] at accepted
    · obtain rfl : attno = partitionAttno m bounds := by omega
      refine holds.2.2 _ ?_
      rw [upperEnd, endKeys, partitioned, if_pos ⟨rfl, by omega⟩]
      exact mem_singleton.mpr rfl
  · unfold Unwritten at never
    have written := agree c before
    split at never <;> omega

end

def twoColumns : Index Unit :=
  ⟨2, fun _ => (), fun _ => (), fun _ _ _ _ => true⟩

/-- Three types, and operators only for a left side of the columns' own type. -/
def ownTypeFirst : Index (Fin 3) :=
  ⟨2, fun _ => 0, fun _ => 0, fun _ left _ _ => left = 0⟩

def compareConst (attno : Nat) (strategy : Strategy) (subtype : τ) (value : Nat) : Clause Nat τ :=
  .opExpr attno strategy subtype (.const (some value))

/-- Bound arrays that hold the same key everywhere. -/
def filledWith (key : ScanKey Nat τ) : Memory Nat τ :=
  ⟨fun _ => key, fun _ => key⟩

end PgAqp.ScanKeys
