import PgAqp.ScanKeys.Build
import Mathlib.Tactic.Order
import Mathlib.Tactic.Tauto

/-!
# What the bounds mean

Merging a qualification keeps the conjunction of the bounds of one side, column by
column, and an empty sample space is reported only for a contradiction on one column.
-/

namespace PgAqp.ScanKeys

open List Option Strategy Merged

variable {α τ : Type} [LinearOrder α] (columns : Nat → Prop) (row : Row α)

def AcceptOn (keys : List (ScanKey α τ)) (row : Row α) : Prop :=
  ∀ key ∈ keys, columns key.attno → key.Accepts row

@[simp] theorem acceptOn_nil : AcceptOn columns ([] : List (ScanKey α τ)) row := by
  intro key mem
  cases mem

@[simp] theorem acceptOn_cons (key : ScanKey α τ)
    (keys : List (ScanKey α τ)) (row : Row α) : AcceptOn columns (key :: keys) row ↔
      (columns key.attno → key.Accepts row) ∧ AcceptOn columns keys row :=
  forall_mem_cons

@[simp] theorem acceptOn_append (first second : List (ScanKey α τ))
    (row : Row α) : AcceptOn columns (first ++ second) row ↔
      AcceptOn columns first row ∧ AcceptOn columns second row :=
  forall_mem_append

theorem AcceptOn.mono {keys : List (ScanKey α τ)} {row : Row α}
    (within : ∀ attno, small attno → large attno) (accepted : AcceptOn large keys row) :
    AcceptOn small keys row :=
  fun key mem inside => accepted key mem (within key.attno inside)

theorem allAccept_iff_acceptOn (keys : List (ScanKey α τ)) (row : Row α) :
    AllAccept keys row ↔ AcceptOn (fun _ => True) keys row := by
  constructor
  · intro accepted key mem _
    exact accepted key mem
  · intro accepted key mem
    exact accepted key mem trivial

@[simp] theorem allAccept_append (first second : List (ScanKey α τ)) (row : Row α) :
    AllAccept (first ++ second) row ↔ AllAccept first row ∧ AllAccept second row :=
  forall_mem_append

@[simp] theorem allAccept_cons (key : ScanKey α τ) (keys : List (ScanKey α τ)) (row : Row α) :
    AllAccept (key :: keys) row ↔ key.Accepts row ∧ AllAccept keys row :=
  forall_mem_cons

@[simp] theorem allAccept_nil : AllAccept ([] : List (ScanKey α τ)) row := by
  intro key mem
  cases mem

theorem ScanKey.Accepts.imp {strong weak : ScanKey α τ} {row : Row α}
    (column : strong.attno = weak.attno)
    (stronger : ∀ value, strong.strategy.Holds value strong.argument →
      weak.strategy.Holds value weak.argument)
    (accepted : strong.Accepts row) : weak.Accepts row := by
  obtain ⟨value, found, holds⟩ := accepted
  exact ⟨value, column ▸ found, stronger value holds⟩

/-! ## Strategies of one side -/

def Strategy.SameSide (first second : Strategy) : Prop :=
  (first.isLb = true ∧ second.isLb = true) ∨ (first.isUb = true ∧ second.isUb = true)

variable {op : Strategy} {last value : α} {i : Index τ} {key : ScanKey α τ}
  {merged : List (ScanKey α τ)} {bounds res : Bounds α τ}

/-- `c op₂ c'`, with `op₂` strict or `op` an equality: `x op c` is the stronger bound. -/
theorem Strategy.SameSide.stronger_of_holds (sameSide : op.SameSide old) (notEqual : old ≠ .equal)
    (strict : old.isStrict ∨ op = .equal) (compared : old.Holds new last)
    (holds : op.Holds value new) : old.Holds value last := by
  cases old <;> cases op <;>
    simp_all [Strategy.SameSide, isLb, isUb, isStrict, Strategy.Holds] <;> order

/-- `¬ c > c'`: the strict bound `x > c'` is the stronger one. -/
theorem Strategy.SameSide.weaker_of_not_holds
    (sameSide : op.SameSide old) (strict : old.isStrict) (notEqual : op ≠ .equal)
    (compared : ¬ old.Holds new last) (holds : old.Holds value last) : op.Holds value new := by
  cases old <;> cases op <;>
    simp_all [Strategy.SameSide, isLb, isUb, isStrict, Strategy.Holds] <;> order

/-- `c' op c`: the bound `x ≥ c'` is as strong as `x op c`. -/
theorem Strategy.SameSide.weaker_of_holds (sameSide : op.SameSide old) (notEqual : op ≠ .equal)
    (compared : op.Holds last new) (holds : old.Holds value last) : op.Holds value new := by
  cases old <;> cases op <;>
    simp_all [Strategy.SameSide, isLb, isUb, Strategy.Holds] <;> order

/-- `¬ c' op c`: the bound `x op c` is stronger than `x ≥ c'`. -/
theorem Strategy.SameSide.stronger_of_not_holds (sameSide : op.SameSide old)
    (notStrict : old.isStrict ≠ true) (notOld : old ≠ .equal) (notEqual : op ≠ .equal)
    (compared : ¬ op.Holds last new) (holds : op.Holds value new) : old.Holds value last := by
  cases old <;> cases op <;>
    simp_all [Strategy.SameSide, isLb, isUb, isStrict, Strategy.Holds] <;> order

/-! ## Merging into one side -/

/-- What an outcome of merging `key` into `bounds` has to mean. -/
def Merged.Sound (bounds : List (ScanKey α τ)) (key : ScanKey α τ) : Merged α τ → Prop
  | .used merged => ∀ columns row, AcceptOn columns merged row ↔
      AcceptOn columns bounds row ∧ (columns key.attno → key.Accepts row)
  | .unused => True
  | .emptyres => ∀ row, AcceptOn (fun attno => attno = key.attno) bounds row →
      ¬ key.Accepts row

theorem Merged.Sound.keep {last : ScanKey α τ} (column : last.attno = key.attno)
    (implied : ∀ value, last.strategy.Holds value last.argument →
      key.strategy.Holds value key.argument) :
    Merged.Sound (last :: pre) key (.used (last :: pre)) := by
  intro columns row
  simp only [acceptOn_cons]
  constructor
  · intro accepted
    exact ⟨accepted, fun inside => (accepted.1 (column ▸ inside)).imp column implied⟩
  · exact fun accepted => accepted.1

theorem Merged.Sound.replace {last : ScanKey α τ} (column : last.attno = key.attno)
    (implies : ∀ value, key.strategy.Holds value key.argument →
      last.strategy.Holds value last.argument) :
    Merged.Sound (last :: pre) key (.used (key :: pre)) := by
  intro columns row
  simp only [acceptOn_cons]
  constructor
  · rintro ⟨keyAccepts, beforeAccepts⟩
    exact ⟨⟨fun inside => (keyAccepts (column ▸ inside)).imp column.symm implies,
      beforeAccepts⟩, keyAccepts⟩
  · rintro ⟨⟨_, beforeAccepts⟩, keyAccepts⟩
    exact ⟨keyAccepts, beforeAccepts⟩

/-- An empty sample space is soundly reported where the last bound excludes the key. -/
theorem Merged.Sound.exclude {last : ScanKey α τ} (column : last.attno = key.attno)
    (excluded : ∀ value, last.strategy.Holds value last.argument →
      ¬ key.strategy.Holds value key.argument) :
    Merged.Sound (last :: pre) key .emptyres := by
  rintro row accepted ⟨value, found, holds⟩
  obtain ⟨other, otherFound, otherHolds⟩ := (acceptOn_cons _ _ _ _ |>.mp accepted).1 column
  rw [column, found] at otherFound
  cases otherFound
  exact excluded value otherHolds holds

variable {onSide : Bool}

theorem Merged.Sound.decide {bounds : List (ScanKey α τ)}
    (soundTrue : compared = some true → Merged.Sound bounds key whenTrue)
    (soundFalse : compared = some false → Merged.Sound bounds key whenFalse) :
    Merged.Sound bounds key (decide compared whenTrue whenFalse) := by
  rcases compared with _ | _ | _
  · trivial
  · exact soundFalse rfl
  · exact soundTrue rfl

omit [LinearOrder α] in
theorem Merged.decide_eq_used (used : decide compared whenTrue whenFalse = .used merged) :
    whenTrue = .used merged ∨ whenFalse = .used merged := by
  rcases compared with _ | _ | _
  · cases used
  · exact .inr used
  · exact .inl used

variable [DecidableEq τ]

theorem compareScankeyArgs_eq_some {larg rarg : α} {res : Bool}
    (compared : compareScankeyArgs i attno optype strat larg lefttype rarg righttype = some res) :
    res = decide (strat.Holds larg rarg) := by
  unfold compareScankeyArgs at compared
  split at compared
  · exact (some.inj compared).symm
  · split at compared
    · exact (some.inj compared).symm
    · cases compared

theorem mergeCurrentQual_sound (i : Index τ) (bounds : List (ScanKey α τ))
    (key : ScanKey α τ) (side : ∀ bound ∈ bounds, key.strategy.SameSide bound.strategy) :
    Merged.Sound bounds key (mergeCurrentQual i bounds key) := by
  cases bounds with
  | nil =>
    simp only [mergeCurrentQual]
    split
    · intro columns row
      simp
    · trivial
  | cons last pre =>
    have sameSide : key.strategy.SameSide last.strategy := side last mem_cons_self
    simp only [mergeCurrentQual]
    split
    case isFalse =>
      split
      · intro columns row
        simp only [acceptOn_cons]
        exact and_comm
      · trivial
    case isTrue column =>
      split
      case isTrue isEqual =>
        refine Merged.Sound.decide (fun compared => ?_) (fun compared => ?_)
        · have holds := of_decide_eq_true (compareScankeyArgs_eq_some compared).symm
          refine Merged.Sound.keep column fun value atLast => ?_
          rw [isEqual] at atLast
          exact atLast ▸ holds
        · have fails := of_decide_eq_false (compareScankeyArgs_eq_some compared).symm
          refine Merged.Sound.exclude column fun value atLast holds => fails ?_
          rw [isEqual] at atLast
          exact atLast ▸ holds
      case isFalse notEqual =>
        split
        case isTrue strict =>
          refine Merged.Sound.decide (fun compared => ?_) (fun compared => ?_)
          · have holds := of_decide_eq_true (compareScankeyArgs_eq_some compared).symm
            exact Merged.Sound.replace column fun value =>
              sameSide.stronger_of_holds notEqual strict holds
          · have fails := of_decide_eq_false (compareScankeyArgs_eq_some compared).symm
            split
            case isTrue isEqual =>
              refine Merged.Sound.exclude column fun value atLast atKey => fails ?_
              rw [isEqual] at atKey
              exact atKey ▸ atLast
            case isFalse keyNotEqual =>
              have lastStrict := strict.resolve_right keyNotEqual
              exact Merged.Sound.keep column fun value =>
                sameSide.weaker_of_not_holds lastStrict keyNotEqual fails
        case isFalse notStrict =>
          have keyNotEqual : key.strategy ≠ .equal := fun h => notStrict (.inr h)
          have lastNotStrict : last.strategy.isStrict ≠ true := fun h => notStrict (.inl h)
          refine Merged.Sound.decide (fun compared => ?_) (fun compared => ?_)
          · have holds := of_decide_eq_true (compareScankeyArgs_eq_some compared).symm
            exact Merged.Sound.keep column fun value => sameSide.weaker_of_holds keyNotEqual holds
          · have fails := of_decide_eq_false (compareScankeyArgs_eq_some compared).symm
            exact Merged.Sound.replace column fun value =>
              sameSide.stronger_of_not_holds lastNotStrict notEqual keyNotEqual fails

theorem mem_of_mergeCurrentQual {bounds : List (ScanKey α τ)}
    (used : mergeCurrentQual i bounds key = .used merged) :
    ∀ bound ∈ merged, bound = key ∨ bound ∈ bounds := by
  intro bound mem
  cases bounds with
  | nil =>
    simp only [mergeCurrentQual] at used
    split at used
    · cases used
      exact .inl (mem_singleton.mp mem)
    · cases used
  | cons last pre =>
    have kept (same : Merged.used (last :: pre) = .used merged) :
        bound = key ∨ bound ∈ last :: pre := by
      cases same
      exact .inr mem
    have replaced (same : Merged.used (key :: pre) = .used merged) :
        bound = key ∨ bound ∈ last :: pre := by
      cases same
      exact (mem_cons.mp mem).imp id (mem_cons_of_mem last)
    simp only [mergeCurrentQual] at used
    split at used
    · split at used
      · exact (decide_eq_used used).elim kept (fun never => by cases never)
      · split at used
        · refine (decide_eq_used used).elim replaced fun otherwise => ?_
          split at otherwise
          · cases otherwise
          · exact kept otherwise
        · exact (decide_eq_used used).elim kept replaced
    · split at used
      · cases used
        exact mem_cons.mp mem
      · cases used

/-! ## Merging into both sides -/

structure Sided (bounds : Bounds α τ) : Prop where
  lb : ∀ bound ∈ bounds.lb, bound.strategy.isLb = true
  ub : ∀ bound ∈ bounds.ub, bound.strategy.isUb = true

omit [LinearOrder α] [DecidableEq τ] in
theorem sided_empty : Sided (⟨[], [], []⟩ : Bounds α τ) where
  lb bound mem := by cases mem
  ub bound mem := by cases mem

/-- What the bounds and the additional keys demand on some of the columns. -/
def Bounds.AcceptOn (bounds : Bounds α τ) (row : Row α) : Prop :=
  ScanKeys.AcceptOn columns bounds.lb row ∧ ScanKeys.AcceptOn columns bounds.ub row ∧
    ScanKeys.AcceptOn columns bounds.quals row

/-- One side after a merge: only the key is new, and it is demanded if it was used. -/
theorem mergeSide_eq_some {bounds : List (ScanKey α τ)} {used : Bool}
    (side : onSide → ∀ bound ∈ bounds, key.strategy.SameSide bound.strategy)
    (found : mergeSide i onSide bounds key = some (merged, used)) :
    (∀ bound ∈ merged, (onSide ∧ bound = key) ∨ bound ∈ bounds) ∧
      ∀ columns row, AcceptOn columns merged row ↔
        AcceptOn columns bounds row ∧ (used → columns key.attno → key.Accepts row) := by
  have unchanged (same : some (bounds, false) = some (merged, used)) :
      (∀ bound ∈ merged, (onSide ∧ bound = key) ∨ bound ∈ bounds) ∧
        ∀ columns row, AcceptOn columns merged row ↔ AcceptOn columns bounds row ∧
          (used → columns key.attno → key.Accepts row) := by
    cases same
    exact ⟨fun bound mem => .inr mem, by simp⟩
  unfold mergeSide at found
  split at found
  case isFalse => exact unchanged found
  case isTrue isOn =>
    have sound := mergeCurrentQual_sound i bounds key (side isOn)
    cases out : mergeCurrentQual i bounds key with
    | unused =>
      rw [out] at found
      exact unchanged found
    | emptyres =>
      rw [out] at found
      cases found
    | used res =>
      rw [out] at found sound
      cases found
      refine ⟨fun bound mem => ?_, fun columns row => ?_⟩
      · exact (mem_of_mergeCurrentQual out bound mem).imp (fun same => ⟨isOn, same⟩) id
      · simpa using sound columns row

theorem mergeSide_eq_none {bounds : List (ScanKey α τ)}
    (side : onSide → ∀ bound ∈ bounds, key.strategy.SameSide bound.strategy)
    (stopped : mergeSide i onSide bounds key = none) :
    ∀ row, AcceptOn (fun attno => attno = key.attno) bounds row → ¬ key.Accepts row := by
  unfold mergeSide at stopped
  split at stopped
  case isFalse => cases stopped
  case isTrue isOn =>
    have sound := mergeCurrentQual_sound i bounds key (side isOn)
    cases out : mergeCurrentQual i bounds key with
    | unused =>
      rw [out] at stopped
      cases stopped
    | used res =>
      rw [out] at stopped
      cases stopped
    | emptyres =>
      rw [out] at sound
      exact sound

omit [LinearOrder α] [DecidableEq τ] in
theorem Sided.sameSide_lb (sided : Sided bounds)
    (isOn : key.strategy.isLb) : ∀ bound ∈ bounds.lb, key.strategy.SameSide bound.strategy :=
  fun bound mem => .inl ⟨isOn, sided.lb bound mem⟩

omit [LinearOrder α] [DecidableEq τ] in
theorem Sided.sameSide_ub (sided : Sided bounds)
    (isOn : key.strategy.isUb) : ∀ bound ∈ bounds.ub, key.strategy.SameSide bound.strategy :=
  fun bound mem => .inr ⟨isOn, sided.ub bound mem⟩

theorem mergeKey_eq_some (merged : mergeKey i bounds key = some res) :
    ∃ lower upper, mergeSide i key.strategy.isLb bounds.lb key = some (res.lb, lower) ∧
      mergeSide i key.strategy.isUb bounds.ub key = some (res.ub, upper) ∧
      res.quals = if lower || upper then bounds.quals else bounds.quals ++ [key] := by
  obtain ⟨⟨lb, lower⟩, lowerEq, rest⟩ := bind_eq_some_iff.mp merged
  obtain ⟨⟨ub, upper⟩, upperEq, rfl⟩ := map_eq_some_iff.mp rest
  exact ⟨lower, upper, lowerEq, upperEq, rfl⟩

theorem mergeKey_eq_none (stopped : mergeKey i bounds key = none) :
    mergeSide i key.strategy.isLb bounds.lb key = none ∨
      mergeSide i key.strategy.isUb bounds.ub key = none := by
  cases lowerEq : mergeSide i key.strategy.isLb bounds.lb key with
  | none => exact .inl rfl
  | some lower =>
    simp only [mergeKey, lowerEq, bind_some] at stopped
    exact .inr (map_eq_none_iff.mp stopped)

/-- Step: the bounds demand the key in addition if it was used, and it is kept as an
additional key otherwise. -/
theorem mergeKey_bounds (sided : Sided bounds) (merged : mergeKey i bounds key = some res) :
    Sided res ∧ ∃ used : Bool, (res.quals = if used then bounds.quals else bounds.quals ++ [key]) ∧
      ∀ columns row, AcceptOn columns res.lb row ∧ AcceptOn columns res.ub row ↔
        (AcceptOn columns bounds.lb row ∧ AcceptOn columns bounds.ub row) ∧
          (used → columns key.attno → key.Accepts row) := by
  obtain ⟨lower, upper, lowerEq, upperEq, qualsEq⟩ := mergeKey_eq_some merged
  obtain ⟨lowerMem, lowerAccepts⟩ := mergeSide_eq_some sided.sameSide_lb lowerEq
  obtain ⟨upperMem, upperAccepts⟩ := mergeSide_eq_some sided.sameSide_ub upperEq
  refine ⟨⟨fun bound mem => ?_, fun bound mem => ?_⟩, lower || upper, qualsEq,
    fun columns row => ?_⟩
  · rcases lowerMem bound mem with ⟨isOn, rfl⟩ | old
    · exact isOn
    · exact sided.lb bound old
  · rcases upperMem bound mem with ⟨isOn, rfl⟩ | old
    · exact isOn
    · exact sided.ub bound old
  · rw [lowerAccepts columns row, upperAccepts columns row, Bool.or_eq_true]
    tauto

/-- Step: merging a key adds the key to what is demanded, as a bound or in addition. -/
theorem mergeKey_accepts (sided : Sided bounds) (merged : mergeKey i bounds key = some res) :
    Sided res ∧ ∀ columns row, res.AcceptOn columns row ↔
      bounds.AcceptOn columns row ∧ (columns key.attno → key.Accepts row) := by
  obtain ⟨resultSided, used, qualsEq, boundsAccept⟩ := mergeKey_bounds sided merged
  refine ⟨resultSided, fun columns row => ?_⟩
  unfold Bounds.AcceptOn
  rw [← and_assoc, boundsAccept columns row, qualsEq]
  cases used <;> simp <;> tauto

/-- Step: an empty sample space is a contradiction with the bounds on the key's column. -/
theorem mergeKey_contradicts (sided : Sided bounds) (stopped : mergeKey i bounds key = none) :
    ∀ row, AcceptOn (fun attno => attno = key.attno) bounds.lb row →
      AcceptOn (fun attno => attno = key.attno) bounds.ub row → ¬ key.Accepts row := by
  intro row lowerAccepts upperAccepts
  rcases mergeKey_eq_none stopped with lowerStops | upperStops
  · exact mergeSide_eq_none sided.sameSide_lb lowerStops row lowerAccepts
  · exact mergeSide_eq_none sided.sameSide_ub upperStops row upperAccepts

/-! ## Over a list of qualifications -/

def Satisfies (clauses : List (Clause α τ)) (row : Row α) : Prop :=
  ∀ clause ∈ clauses, clause.Selects row

omit [DecidableEq τ] in
@[simp] theorem satisfies_cons (clause : Clause α τ) (rest : List (Clause α τ)) (row : Row α) :
    Satisfies (clause :: rest) row ↔ clause.Selects row ∧ Satisfies rest row :=
  forall_mem_cons

omit [DecidableEq τ] in
theorem selects_const_iff (varattno : Nat) (strategy : Strategy) (righttype : τ) (value : α)
    (row : Row α) :
    (Clause.opExpr varattno strategy righttype (.const (some value))).Selects row ↔
      (⟨varattno, strategy, righttype, value⟩ : ScanKey α τ).Accepts row := by
  constructor
  · rintro ⟨found, constant, foundEq, constantEq, holds⟩
    cases constantEq
    exact ⟨found, foundEq, holds⟩
  · rintro ⟨found, foundEq, holds⟩
    exact ⟨found, value, foundEq, rfl, holds⟩

/-- Run: whatever the operator family lacks, the bounds and the additional keys demand
what the qualifications demand, and a reported empty sample space is one. -/
theorem foldQuals_sound (i : Index τ) (clauses : List (Clause α τ)) (bounds : Bounds α τ)
    (sided : Sided bounds) :
    (∀ res, foldQuals i bounds clauses = .ok res → ∀ row, res.AcceptOn (fun _ => True) row ↔
        bounds.AcceptOn (fun _ => True) row ∧ Satisfies clauses row) ∧
    (foldQuals i bounds clauses = .error .emptyres → ∀ row,
      bounds.AcceptOn (fun _ => True) row → ¬ Satisfies clauses row) := by
  induction clauses generalizing bounds with
  | nil =>
    refine ⟨fun res folded row => ?_, fun folded => by cases folded⟩
    cases folded
    simp [Satisfies]
  | cons clause rest ih =>
    cases clause with
    | nullTest varattno isNull =>
      exact ⟨fun res folded => (by cases folded), fun folded => by cases folded⟩
    | opExpr varattno strategy righttype rightop =>
      simp only [foldQuals]
      split
      · exact ⟨fun res folded => (by cases folded), fun folded => by cases folded⟩
      · cases rightop with
        | expression value =>
          exact ⟨fun res folded => (by cases folded), fun folded => by cases folded⟩
        | const constant =>
          cases constant with
          | none =>
            refine ⟨fun res folded => (by cases folded), ?_⟩
            rintro - row - satisfied
            obtain ⟨_, _, _, never, _⟩ := satisfied _ mem_cons_self
            cases never
          | some scanvalue =>
            dsimp only
            cases merged : mergeKey i bounds ⟨varattno, strategy, righttype, scanvalue⟩ with
            | none =>
              refine ⟨fun res folded => (by cases folded), ?_⟩
              rintro - row ⟨lowerAccepts, upperAccepts, _⟩ satisfied
              have selected := (satisfies_cons _ _ _ |>.mp satisfied).1
              exact mergeKey_contradicts sided merged row (lowerAccepts.mono fun _ _ => trivial)
                (upperAccepts.mono fun _ _ => trivial)
                ((selects_const_iff _ _ _ _ _).mp selected)
            | some next =>
              obtain ⟨nextSided, nextAccepts⟩ := mergeKey_accepts sided merged
              obtain ⟨okSound, emptySound⟩ := ih next nextSided
              refine ⟨fun res folded row => ?_, fun folded row => ?_⟩
              · rw [okSound res folded row, nextAccepts, satisfies_cons, selects_const_iff]
                simp only [true_implies, and_assoc]
              · intro accepted satisfied
                obtain ⟨selected, restSatisfied⟩ := (satisfies_cons _ _ _).mp satisfied
                refine emptySound folded row ((nextAccepts _ _).mpr
                  ⟨accepted, fun _ => ?_⟩) restSatisfied
                exact (selects_const_iff _ _ _ _ _).mp selected

/-! ## On one column -/

/-- Run: the keys that were merged are what the bounds and the additional keys demand. -/
theorem mergeKeys_sound (i : Index τ) (keys : List (ScanKey α τ)) (sided : Sided bounds) :
    (∀ res, keys.foldlM (mergeKey i) bounds = some res → ∀ row, res.AcceptOn (fun _ => True) row ↔
        bounds.AcceptOn (fun _ => True) row ∧ AllAccept keys row) ∧
    (keys.foldlM (mergeKey i) bounds = none → ∀ row,
      bounds.AcceptOn (fun _ => True) row → ¬ AllAccept keys row) := by
  induction keys generalizing bounds with
  | nil =>
    refine ⟨fun res folded row => ?_, fun stopped => by cases stopped⟩
    cases folded
    simp
  | cons key rest ih =>
    rw [foldlM_cons]
    cases merged : mergeKey i bounds key with
    | none =>
      refine ⟨fun res folded => (by cases folded), fun _ row accepted all => ?_⟩
      exact mergeKey_contradicts sided merged row (accepted.1.mono fun _ _ => trivial)
        (accepted.2.1.mono fun _ _ => trivial) ((allAccept_cons key rest row).mp all).1
    | some next =>
      obtain ⟨nextSided, nextAccepts⟩ := mergeKey_accepts sided merged
      obtain ⟨okSound, emptySound⟩ := ih nextSided
      refine ⟨fun res folded row => ?_, fun stopped row accepted all => ?_⟩
      · rw [okSound res folded row, nextAccepts, allAccept_cons]
        simp only [true_implies, and_assoc]
      · obtain ⟨this, others⟩ := (allAccept_cons key rest row).mp all
        exact emptySound stopped row ((nextAccepts _ _).mpr ⟨accepted, fun _ => this⟩) others

/-- Qualifications `x op c` on one column, with constants of one type. -/
def columnKeys (attno : Nat) (type : τ) (quals : List (Strategy × α)) : List (ScanKey α τ) :=
  quals.map fun qual => ⟨attno, qual.1, type, qual.2⟩

/-- Whatever qualifications on a column were merged, and in whatever order, the bounds and the
additional keys accept what all of them accept, and only a contradiction is reported. -/
theorem mergeColumn_exact (i : Index τ) (attno : Nat) (type : τ) (quals : List (Strategy × α))
    (row : Row α) :
    match (columnKeys attno type quals).foldlM (mergeKey i) ⟨[], [], []⟩ with
    | some bounds =>
      bounds.AcceptOn (fun _ => True) row ↔ AllAccept (columnKeys attno type quals) row
    | none => ¬ AllAccept (columnKeys attno type quals) row := by
  obtain ⟨okSound, emptySound⟩ := mergeKeys_sound i (columnKeys attno type quals) sided_empty
  have start : Bounds.AcceptOn (fun _ => True) (⟨[], [], []⟩ : Bounds α τ) row := by
    simp [Bounds.AcceptOn]
  split
  next bounds folded => rw [okSound bounds folded row, and_iff_right start]
  next stopped => exact emptySound stopped row start

end PgAqp.ScanKeys
