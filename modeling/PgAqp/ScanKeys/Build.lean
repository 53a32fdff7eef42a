import Mathlib.Order.Lattice

/-!
# Building the scan keys of a sampled index

`aqp_index_build_scankeys_impl` folds the index qualifications into lower and upper bounds,
keeps the rest as additional keys, and emits four key arrays.  The constants of all types of
an operator family lie in one linear order; the family may lack the operator that compares
two of its types.
-/

namespace PgAqp.ScanKeys

variable {α τ : Type} [LinearOrder α] [DecidableEq τ]

inductive Strategy where
  | less
  | lessEqual
  | equal
  | greaterEqual
  | greater
  deriving DecidableEq, Repr

def Strategy.Holds : Strategy → α → α → Prop
  | .less, left, right => left < right
  | .lessEqual, left, right => left ≤ right
  | .equal, left, right => left = right
  | .greaterEqual, left, right => right ≤ left
  | .greater, left, right => right < left

instance Strategy.decidableHolds (strategy : Strategy) (left right : α) :
    Decidable (strategy.Holds left right) := by
  cases strategy <;> unfold Strategy.Holds <;> infer_instance

/-- `aqp_is_lb_strategy`. -/
def Strategy.isLb (strategy : Strategy) : Bool :=
  strategy == .greater || strategy == .greaterEqual || strategy == .equal

/-- `aqp_is_ub_strategy`. -/
def Strategy.isUb (strategy : Strategy) : Bool :=
  strategy == .less || strategy == .lessEqual || strategy == .equal

/-- `aqp_is_strict_strategy`. -/
def Strategy.isStrict (strategy : Strategy) : Bool :=
  strategy == .less || strategy == .greater

structure Index (τ : Type) where
  indnkeyatts : Nat
  opcintype : Nat → τ
  atttypid : Nat → τ
  /-- The operator family of a column has a comparison of two types. -/
  hasOperator : Nat → τ → τ → Strategy → Bool

structure ScanKey (α τ : Type) where
  attno : Nat
  strategy : Strategy
  subtype : τ
  argument : α
  deriving DecidableEq, Repr

/-- A row gives every column a value or null. -/
abbrev Row (α : Type) := Nat → Option α

def ScanKey.Accepts (key : ScanKey α τ) (row : Row α) : Prop :=
  ∃ value, row key.attno = some value ∧ key.strategy.Holds value key.argument

def AllAccept (keys : List (ScanKey α τ)) (row : Row α) : Prop :=
  ∀ key ∈ keys, key.Accepts row

/-- The right side of an operator: a constant, or an expression with the value that it
has at run time. -/
inductive Operand (α : Type) where
  | const (value : Option α)
  | expression (value : Option α)

def Operand.value : Operand α → Option α
  | .const value => value
  | .expression value => value

inductive Clause (α τ : Type) where
  | opExpr (varattno : Nat) (strategy : Strategy) (righttype : τ) (rightop : Operand α)
  | nullTest (varattno : Nat) (isNull : Bool)

def Clause.Selects : Clause α τ → Row α → Prop
  | .opExpr varattno strategy _ rightop, row =>
    ∃ value constant, row varattno = some value ∧ rightop.value = some constant ∧
      strategy.Holds value constant
  | .nullTest varattno isNull, row => (row varattno = none) ↔ isNull = true

/-! ## Merging a qualification into the bounds -/

variable (i : Index τ)

/-- `aqp_compare_scankey_args`, if the comparison can be made. -/
def compareScankeyArgs (attno : Nat) (optype : τ) (strat : Strategy)
    (larg : α) (lefttype : τ) (rarg : α) (righttype : τ) : Option Bool :=
  if lefttype = i.opcintype attno ∧ righttype = optype then
    some (decide (strat.Holds larg rarg))
  else if i.hasOperator attno lefttype righttype strat then
    some (decide (strat.Holds larg rarg))
  else none

inductive Merged (α τ : Type) where
  | used (bounds : List (ScanKey α τ))
  | unused
  | emptyres

/-- A comparison decides between two outcomes; without it the key is not used. -/
def Merged.decide (compared : Option Bool) (whenTrue whenFalse : Merged α τ) : Merged α τ :=
  match compared with
  | none => .unused
  | some true => whenTrue
  | some false => whenFalse

/-- `aqp_merge_current_qual_into_bounds_impl`.  Without a bound the last entry is slot 0,
an equality on column 0. -/
def mergeCurrentQual (bounds : List (ScanKey α τ)) (key : ScanKey α τ) : Merged α τ :=
  match bounds with
  | [] => if 0 + 1 = key.attno then .used [key] else .unused
  | last :: pre =>
    if last.attno = key.attno then
      if last.strategy = .equal then
        Merged.decide
          (compareScankeyArgs i key.attno key.subtype key.strategy last.argument
            last.subtype key.argument key.subtype)
          (.used bounds) .emptyres
      else if last.strategy.isStrict = true ∨ key.strategy = .equal then
        Merged.decide
          (compareScankeyArgs i key.attno last.subtype last.strategy key.argument
            key.subtype last.argument last.subtype)
          (.used (key :: pre))
          (if key.strategy = .equal then .emptyres else .used bounds)
      else
        Merged.decide
          (compareScankeyArgs i key.attno key.subtype key.strategy last.argument
            last.subtype key.argument key.subtype)
          (.used bounds) (.used (key :: pre))
    else if last.attno + 1 = key.attno ∧ last.strategy = .equal then .used (key :: bounds)
    else .unused

structure Bounds (α τ : Type) where
  lb : List (ScanKey α τ)
  ub : List (ScanKey α τ)
  quals : List (ScanKey α τ)

/-- One side of `aqp_merge_current_qual_into_bounds`: the bounds after it, and whether the
qualification was used; no result stands for an empty sample space. -/
def mergeSide (onSide : Bool) (bounds : List (ScanKey α τ))
    (key : ScanKey α τ) : Option (List (ScanKey α τ) × Bool) :=
  if onSide then
    match mergeCurrentQual i bounds key with
    | .used merged => some (merged, true)
    | .unused => some (bounds, false)
    | .emptyres => none
  else some (bounds, false)

/-- A qualification is merged into both sides, or kept as an additional key. -/
def mergeKey (bounds : Bounds α τ) (key : ScanKey α τ) : Option (Bounds α τ) :=
  (mergeSide i key.strategy.isLb bounds.lb key).bind fun lower =>
    (mergeSide i key.strategy.isUb bounds.ub key).map fun upper =>
      { lb := lower.1
        ub := upper.1
        quals := if lower.2 || upper.2 then bounds.quals else bounds.quals ++ [key] }

inductive Stop where
  | emptyres
  | invalid
  | error
  deriving DecidableEq, Repr

def foldQuals (i : Index τ) : Bounds α τ → List (Clause α τ) → Except Stop (Bounds α τ)
  | bounds, [] => .ok bounds
  | _, .nullTest _ _ :: _ => .error .error
  | bounds, .opExpr varattno strategy righttype rightop :: rest =>
    if varattno < 1 ∨ varattno > i.indnkeyatts then .error .error
    else
      match rightop with
      | .expression _ => .error .invalid
      | .const none => .error .emptyres
      | .const (some scanvalue) =>
        match mergeKey i bounds ⟨varattno, strategy, righttype, scanvalue⟩ with
        | none => .error .emptyres
        | some merged => foldQuals i merged rest

/-! ## Emitting the keys -/

structure Memory (α τ : Type) where
  lb : Nat → ScanKey α τ
  ub : Nat → ScanKey α τ

variable (m : Memory α τ) (bounds : Bounds α τ)

/-- The entry of a bound array for a column; beyond the last bound it is what was there. -/
def boundAt (bounds : List (ScanKey α τ)) (old : Nat → ScanKey α τ) (attno : Nat) : ScanKey α τ :=
  (bounds.reverse[attno - 1]?).getD (old attno)

/-- The first column that is not fixed, as the builder finds it; slot 0 is an equality. -/
def partitionAttno : Nat :=
  let last := max bounds.lb.length bounds.ub.length
  if last = 0 ∨ (boundAt bounds.lb m.lb last).strategy = .equal then last + 1 else last

/-- The key that is emitted for a column before the partition column. -/
def equalityKey (attno : Nat) : ScanKey α τ :=
  let lower := boundAt bounds.lb m.lb attno
  if lower.subtype = i.opcintype attno then lower else boundAt bounds.ub m.ub attno

/-- The keys of `count` columns from `attno` on, each followed by the additional keys of
that column; and the additional keys that are left. -/
def emitPrefix (choose : Nat → ScanKey α τ) :
    Nat → Nat → List (ScanKey α τ) → List (ScanKey α τ) × List (ScanKey α τ)
  | 0, _, quals => ([], quals)
  | count + 1, attno, quals =>
    let rest := emitPrefix choose count (attno + 1)
      (quals.dropWhile fun key => key.attno = attno)
    (choose attno :: quals.takeWhile (fun key => key.attno = attno) ++ rest.1, rest.2)

/-- `AQPPSWRCtlSubplanInfo`, for a valid subplan. -/
structure Subplan (α τ : Type) where
  allequi : Bool
  partitionAttno : Nat
  scanKeys : List (ScanKey α τ)
  partitionKeys : List (ScanKey α τ)
  lmostPartitionKeys : List (ScanKey α τ)
  rmostPartitionKeys : List (ScanKey α τ)
  lbIdxInPartitionKeys : Nat
  ubIdxInPartitionKeys : Nat
  ubIdxInLmostPartition : Nat
  lbIdxInRmostPartition : Nat

def isAllequi : Bool :=
  decide (partitionAttno m bounds > i.indnkeyatts)

/-- The keys before the partition column, and the additional keys that are left. -/
def emittedKeys : List (ScanKey α τ) × List (ScanKey α τ) :=
  emitPrefix (equalityKey i m bounds) (partitionAttno m bounds - 1) 1 bounds.quals

/-- The bound of one side on the partition column, if there is one. -/
def endKeys (allequi : Bool) (bounds : List (ScanKey α τ)) (old : Nat → ScanKey α τ)
    (attno : Nat) : List (ScanKey α τ) :=
  if allequi = false ∧ attno < bounds.length + 1 then [boundAt bounds old attno] else []

/-- The keys in `subplan_info->scan_keys` before the remaining additional keys are pasted. -/
def scanFront : List (ScanKey α τ) :=
  (emittedKeys i m bounds).1 ++
    endKeys (isAllequi i m bounds) bounds.lb m.lb (partitionAttno m bounds) ++
    endKeys (isAllequi i m bounds) bounds.ub m.ub (partitionAttno m bounds)

/-- As many keys as remain, copied from the given index on.  Without partition arrays, or
past the keys emitted so far, the copy has no defined result. -/
def copiedKeys (allequi : Bool) (source : List (ScanKey α τ)) (start remaining : Nat) :
    Option (List (ScanKey α τ)) :=
  if remaining = 0 then some []
  else if allequi = true ∨ source.length < start + remaining then none
  else some ((source.drop start).take remaining)

/-- The end of the key arrays.  The remaining additional keys are meant, but the source of
the copy is `subplan_info->scan_keys`, not the array of the additional keys. -/
def pastedKeys : Option (List (ScanKey α τ)) :=
  copiedKeys (isAllequi i m bounds) (scanFront i m bounds)
    (bounds.quals.length - (emittedKeys i m bounds).2.length)
    (emittedKeys i m bounds).2.length

/-- The family has the operators for the boundaries of the partition column. -/
def hasBoundaryOperators (attno : Nat) : Bool :=
  i.hasOperator attno (i.atttypid attno) (i.atttypid attno) .greaterEqual &&
    i.hasOperator attno (i.atttypid attno) (i.atttypid attno) .less

/-- What the builder leaves: no keys, keys, or no defined result. -/
inductive Built (α τ : Type) where
  | stopped (stop : Stop)
  | undefined
  | subplan (plan : Subplan α τ)

/-- The key arrays of a subplan, given the keys that end them.  A boundary key holds the
zero datum until a partition is scanned. -/
def assembleKeys [Zero α] (pasted : List (ScanKey α τ)) : Subplan α τ :=
  let attno := partitionAttno m bounds
  let front := (emittedKeys i m bounds).1
  let lower := endKeys (isAllequi i m bounds) bounds.lb m.lb attno
  let upper := endKeys (isAllequi i m bounds) bounds.ub m.ub attno
  let fromBoundary : ScanKey α τ := ⟨attno, .greaterEqual, i.atttypid attno, 0⟩
  let toBoundary : ScanKey α τ := ⟨attno, .less, i.atttypid attno, 0⟩
  if isAllequi i m bounds then
    ⟨true, 0, front ++ pasted, [], [], [], 0, 0, 0, 0⟩
  else
    { allequi := false
      partitionAttno := attno
      scanKeys := front ++ lower ++ upper ++ pasted
      partitionKeys := front ++ [fromBoundary, toBoundary] ++ pasted
      lmostPartitionKeys := front ++ lower ++ [toBoundary] ++ pasted
      rmostPartitionKeys := front ++ [fromBoundary] ++ upper ++ pasted
      lbIdxInPartitionKeys := front.length
      ubIdxInPartitionKeys := front.length + 1
      ubIdxInLmostPartition := front.length + lower.length
      lbIdxInRmostPartition := front.length }

def emitKeys [Zero α] : Built α τ :=
  if isAllequi i m bounds = false ∧
      hasBoundaryOperators i (partitionAttno m bounds) = false then .stopped .error
  else
    match pastedKeys i m bounds with
    | none => .undefined
    | some pasted => .subplan (assembleKeys i m bounds pasted)

/-- `aqp_index_build_scankeys_impl`. -/
def buildScankeys [Zero α] (clauses : List (Clause α τ)) : Built α τ :=
  match foldQuals i ⟨[], [], []⟩ clauses with
  | .error stop => .stopped stop
  | .ok bounds => emitKeys i m bounds

/-! ## Partitions -/

/-- `keys[idx].sk_argument = value`. -/
def setArgument (keys : List (ScanKey α τ)) (idx : Nat) (value : α) : List (ScanKey α τ) :=
  keys.modify idx fun key => { key with argument := value }

/-- The keys with which `aqp_pswrctl_exec` scans a partition.  There is one more partition
than there are boundaries, and a single partition is scanned with the keys of the scan. -/
def partitionScanKeys [Zero α] (plan : Subplan α τ) (boundaries : List α) (partition : Nat) :
    List (ScanKey α τ) :=
  if boundaries.length = 0 then plan.scanKeys
  else if partition = 0 then
    setArgument plan.lmostPartitionKeys plan.ubIdxInLmostPartition (boundaries.getD 0 0)
  else if partition = boundaries.length then
    setArgument plan.rmostPartitionKeys plan.lbIdxInRmostPartition
      (boundaries.getD (partition - 1) 0)
  else
    setArgument
      (setArgument plan.partitionKeys plan.lbIdxInPartitionKeys
        (boundaries.getD (partition - 1) 0))
      plan.ubIdxInPartitionKeys (boundaries.getD partition 0)

end PgAqp.ScanKeys
