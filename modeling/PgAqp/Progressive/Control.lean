import Mathlib.Data.Rat.Floor
import PgAqp.Library.Run

/-!
# The progressive sampling controller

`aqp_pswrctl_exec` without batch sampling.  The controller spends a sample budget
in phases: an initial phase over the whole range, then stratified phases.  A large one is
cut into rounds, and three bad rounds in a row are rolled back and answered by uniform
sampling.

A step is one return of control: a call of the node by its parent, or the end
of a scan of the plan below.  The loop that tries the candidate plans has two steps for
each of them, the scan and what is made of it.  What the sampled data decide is the outcome
that comes with a step.
-/

namespace PgAqp.Progressive

/-- The `float8` operations of the controller.  No law is assumed of them: the
results hold for every rounding, and for values that are not numbers. -/
class Float8 (F : Type) extends
    Zero F, BEq F, Mul F, Sub F, Div F, LE F, LT F, NatCast F, OfScientific F where
  ceil : F → Nat
  fabs : F → F
  decidableLe : ∀ first second : F, Decidable (first ≤ second)
  decidableLt : ∀ first second : F, Decidable (first < second)

instance decidableLe {F : Type} [Float8 F] (first second : F) : Decidable (first ≤ second) :=
  Float8.decidableLe first second

instance decidableLt {F : Type} [Float8 F] (first second : F) : Decidable (first < second) :=
  Float8.decidableLt first second

namespace Exact

/-- Exact arithmetic is one instance. -/
scoped instance : Float8 ℚ where
  ceil := fun value => ⌈value⌉₊
  fabs := fun value => |value|
  decidableLe := fun first second => inferInstanceAs (Decidable (first ≤ second))
  decidableLt := fun first second => inferInstanceAs (Decidable (first < second))

end Exact

/-- A partition of the current phase: its share of the allocation, what is left
of it, and what the current round takes. -/
structure Partition (F : Type) where
  optSampleSize : Nat
  optSamplePercent : F
  remainingBudget : Nat
  roundBudget : Nat
  deriving DecidableEq

def sumOf {F : Type} (amount : Partition F → Nat) : List (Partition F) → Nat
  | [] => 0
  | partition :: rest => amount partition + sumOf amount rest

/-- The parameters of the node and of the session. -/
structure Config (F : Type) where
  sampleBudget : Nat
  initialPhaseSampleSize : Nat
  progressiveRoundSize : Nat
  relativeCi : F
  emptyres : Bool
  grouped : Bool
  doPswr : Bool
  doProgressiveSampling : Bool
  /-- `aqp_pswr_chosen_plan_index < 0`. -/
  choosesPlan : Bool
  dpCandidateCount : Nat

/-- What a stratification leaves.  It has a partition whenever it asks for samples. -/
structure Allocation (F : Type) where
  shares : List (Nat × F)
  sampleSize : Nat
  stratified : sampleSize ≠ 0 → shares ≠ []

structure Outcome (F : Type) where
  /-- How many tuples the plan above the driver scan asks for. -/
  asked : Nat
  /-- Whether the plan above the driver scan returns a tuple. -/
  returned : Bool
  nintvls : Nat
  muTotal : F
  currentCi : F
  allocation : Allocation F
  uniformEstimate : Nat
  /-- The size formula of `aqp_approx_sum_check_ci`, if it has a solution. -/
  nextSampleSize : Option Nat

/-- Who has control: the caller of the node, the plan below it, or the loop that tries the
candidate plans, with a candidate running or tried. -/
inductive Point where
  | call
  | scan
  | probe
  | probed
  deriving DecidableEq

/-- The variables of the loop that tries the candidate plans: how many were tried, the best one
as score, samples and intervals, and the samples of all. -/
structure PlanChoice where
  tried : Nat
  best : Option (Nat × Nat × Nat)
  totalProbeSamples : Nat

/-- `AQPPSWRControlState`, with the sample size of the shared control block. -/
structure ControlState (F : Type) where
  point : Point
  curPhase : Int
  curPartition : Nat
  partitions : List (Partition F)
  curPhaseSampleSize : Nat
  sampleSize : Nat
  totalSamplesFetched : Nat
  discardedProbeSamples : Nat
  lastPhase : Bool
  wantPartitionKey : Bool
  nintvls : Nat
  err0 : F
  phaseStartCi : F
  progressiveLastCi : F
  progressiveCurrentPhaseEnabled : Bool
  doSwitchToUniform : Bool
  phaseRemainingBudget : Nat
  currentRoundBudget : Nat
  uniformPhaseSampleSize : Nat
  stratifiedProbeRounds : Nat
  progressiveBadRounds : Nat
  /-- The valid checkpoint: its sample count and interval. -/
  progressiveBadCheckpoint : Option (Nat × F)
  groupedResumeNextPartition : Bool
  choice : PlanChoice

variable {F : Type} [Float8 F]

/-- The state that `aqp_pswrctl_begin` leaves. -/
def ControlState.begin : ControlState F where
  point := .call
  curPhase := -1
  curPartition := 0
  partitions := []
  curPhaseSampleSize := 0
  sampleSize := 0
  totalSamplesFetched := 0
  discardedProbeSamples := 0
  lastPhase := false
  wantPartitionKey := false
  nintvls := 0
  err0 := 0
  phaseStartCi := 0
  progressiveLastCi := 0
  progressiveCurrentPhaseEnabled := false
  doSwitchToUniform := false
  phaseRemainingBudget := 0
  currentRoundBudget := 0
  uniformPhaseSampleSize := 0
  stratifiedProbeRounds := 0
  progressiveBadRounds := 0
  progressiveBadCheckpoint := none
  groupedResumeNextPartition := false
  choice := ⟨0, none, 0⟩

variable (cfg : Config F) (s pre : ControlState F) (currentCi : F) (out : Outcome F)

/-- `aqp_pswr_budget_spent`. -/
def ControlState.budgetSpent : Nat :=
  s.totalSamplesFetched + s.discardedProbeSamples

/-- `aqp_pswr_remaining_budget`. -/
def remainingBudget : Nat :=
  if cfg.sampleBudget > s.budgetSpent then cfg.sampleBudget - s.budgetSpent else 0

def ControlState.progressive : Bool :=
  s.progressiveCurrentPhaseEnabled && !s.doSwitchToUniform

/-- The only partition of a phase that samples the whole range.  The budgets of the
rounds are not read in such a phase. -/
def wholePartition (sampleSize : Nat) : Partition F where
  optSampleSize := sampleSize
  optSamplePercent := 1.0
  remainingBudget := 0
  roundBudget := 0

/-! ## Capping an allocation -/

/-- What one partition gets, when `left` samples of the phase are left and the
partitions before it in the array still need `leastBefore`. -/
def cappedSize (phaseSize left leastBefore : Nat) (enforceMinSample : Bool) (percent : F) : Nat :=
  let wanted := Float8.ceil ((phaseSize : F) * percent)
  let wanted := if enforceMinSample = true ∧ wanted < 30 then 30 else wanted
  let wanted :=
    if enforceMinSample = true ∧ left > leastBefore ∧ wanted > left - leastBefore then
      left - leastBefore
    else wanted
  if wanted > left then left else wanted

def activePartitions : List (Partition F) → Nat
  | [] => 0
  | partition :: rest =>
    (if partition.optSampleSize > 0 then 1 else 0) + activePartitions rest

/-- The loop of the capping function; it runs from the last partition to the first,
so its list is reversed. -/
def capLoop (phaseSize : Nat) (enforceMinSample : Bool) :
    Nat → List (Partition F) → List (Partition F) × Nat
  | taken, [] => ([], taken)
  | taken, partition :: pre =>
    let left := phaseSize - taken
    let size :=
      if left = 0 ∨ partition.optSampleSize = 0 then 0
      else
        cappedSize phaseSize left (30 * activePartitions pre) enforceMinSample
          partition.optSamplePercent
    let rest := capLoop phaseSize enforceMinSample (taken + size) pre
    ({ partition with optSampleSize := size } :: rest.1, rest.2)

/-- `aqp_pswr_cap_allocation_to_remaining_budget`. -/
def capAllocationToRemainingBudget : ControlState F :=
  let k := s.partitions.length
  if k = 0 ∨ s.curPhaseSampleSize = 0 then s
  else
    let remaining := remainingBudget cfg s
    if remaining = 0 then { s with lastPhase := true, curPhaseSampleSize := 0 }
    else
      let size := min s.curPhaseSampleSize remaining
      if k = 1 then
        let size := if size < 30 then min 30 remaining else size
        { s with curPhaseSampleSize := size, partitions := [wholePartition size] }
      else
        let size := if size < 30 * k then min (30 * k) remaining else size
        let capped := capLoop size (decide (size ≥ 30 * k)) 0 s.partitions.reverse
        { s with curPhaseSampleSize := capped.2, partitions := capped.1.reverse }

/-! ## Rounds of a stratified phase -/

/-- `aqp_pswr_progressive_checkpoint_round_start`. -/
def checkpointRoundStart : ControlState F :=
  if cfg.grouped = true ∨ s.progressive = false ∨ s.progressiveBadRounds ≠ 0 then s
  else { s with progressiveBadCheckpoint := some (s.totalSamplesFetched, s.progressiveLastCi) }

/-- `aqp_pswr_progressive_rollback_bad_rounds`. -/
def rollbackBadRounds : ControlState F :=
  match s.progressiveBadCheckpoint with
  | none => s
  | some (fetched, lastCi) =>
    if cfg.grouped = true then s
    else
      { s with
        discardedProbeSamples := s.discardedProbeSamples +
          (if s.totalSamplesFetched > fetched then s.totalSamplesFetched - fetched else 0)
        totalSamplesFetched := fetched
        progressiveLastCi := lastCi
        uniformPhaseSampleSize := 0
        progressiveBadRounds := 0
        progressiveBadCheckpoint := none }

/-- `aqp_pswr_progressive_init_current_phase`. -/
def initCurrentPhase : ControlState F :=
  { s with
    phaseRemainingBudget := min s.curPhaseSampleSize (remainingBudget cfg s)
    currentRoundBudget := 0
    stratifiedProbeRounds := 0
    progressiveBadRounds := 0
    partitions := s.partitions.map fun partition =>
      { partition with remainingBudget := partition.optSampleSize, roundBudget := 0 } }

/-- The share of one partition in a round of `round` samples. -/
def roundShare (round : Nat) (partition : Partition F) : Nat :=
  if partition.remainingBudget = 0 then 0
  else
    let size := Float8.ceil ((round : F) * partition.optSamplePercent)
    let size :=
      if size < 30 then
        if partition.remainingBudget ≥ 30 then 30 else partition.remainingBudget
      else size
    if size > partition.remainingBudget then partition.remainingBudget else size

/-- `aqp_pswr_progressive_build_each_round`. -/
def buildEachRound : ControlState F :=
  let round := min cfg.progressiveRoundSize s.phaseRemainingBudget
  let partitions := s.partitions.map fun partition =>
    { partition with roundBudget := roundShare round partition }
  checkpointRoundStart cfg
    { s with
      partitions := partitions
      currentRoundBudget := sumOf Partition.roundBudget partitions }

/-- The round is taken off the budgets of its partitions and of the phase. -/
def useRound : ControlState F :=
  { s with
    partitions := s.partitions.map fun partition =>
      { partition with
        remainingBudget :=
          if partition.roundBudget > partition.remainingBudget then 0
          else partition.remainingBudget - partition.roundBudget }
    phaseRemainingBudget :=
      if s.currentRoundBudget > s.phaseRemainingBudget then 0
      else s.phaseRemainingBudget - s.currentRoundBudget
    stratifiedProbeRounds := s.stratifiedProbeRounds + 1 }

def ciGrowing : Prop :=
  0 < s.progressiveLastCi ∧ s.progressiveLastCi ≤ currentCi
  deriving Decidable

/-- At the pace of the last round the phase ends before the target is near. -/
def ciTooSlow : Prop :=
  (0 < s.progressiveLastCi ∧ s.currentRoundBudget > 0 ∧ s.phaseRemainingBudget > 0 ∧
    s.err0 * 1.10 < currentCi) ∧
  0 < s.progressiveLastCi - currentCi ∧
    s.err0 * 1.10 <
      currentCi - (s.progressiveLastCi - currentCi) *
        ((s.phaseRemainingBudget : F) / (s.currentRoundBudget : F))
  deriving Decidable

/-- The interval is clearly wider than at the start of the phase. -/
def phaseRegressed : Prop :=
  0 < s.phaseStartCi ∧ s.phaseStartCi * 1.10 < currentCi
  deriving Decidable

def badRounds : Nat :=
  if (ciGrowing s currentCi ∨ ciTooSlow s currentCi) ∨
      (phaseRegressed s currentCi ∧ ciGrowing s currentCi) then
    s.progressiveBadRounds + 1
  else 0

/-- What is left of the phase is better taken as planned. -/
def drainStratified : Prop :=
  let drainThreshold := 2 * cfg.progressiveRoundSize
  let drainThreshold :=
    if s.currentRoundBudget > drainThreshold then s.currentRoundBudget else drainThreshold
  s.phaseRemainingBudget > 0 ∧ s.phaseRemainingBudget ≤ drainThreshold ∧
    ¬ phaseRegressed s currentCi
  deriving Decidable

/-- `aqp_pswr_progressive_check_ci_and_switch`: the new state, and whether to switch. -/
def checkCiAndSwitch : ControlState F × Bool :=
  let s := useRound pre
  let currentCi := out.currentCi
  if currentCi ≤ s.err0 ∨ s.budgetSpent ≥ cfg.sampleBudget then
    ({ s with lastPhase := true }, false)
  else if currentCi ≤ s.err0 * 1.10 then
    ({ s with progressiveLastCi := currentCi, progressiveBadRounds := 0 }, false)
  else if remainingBudget cfg s = 0 then
    ({ s with lastPhase := true }, false)
  else
    let bad := badRounds s currentCi
    let judged :=
      { s with uniformPhaseSampleSize := out.uniformEstimate, progressiveBadRounds := bad }
    if s.phaseRemainingBudget > 0 ∧ ¬ drainStratified cfg s currentCi ∧ bad ≥ 3 then
      (rollbackBadRounds cfg judged, true)
    else
      ({ judged with progressiveLastCi := currentCi }, false)

/-! ## Uniform fallback -/

def rawUniformSampleSize : Nat :=
  let raw := s.uniformPhaseSampleSize
  let raw := if raw = 0 then out.uniformEstimate else raw
  if raw = 0 then min cfg.progressiveRoundSize (remainingBudget cfg s) else raw

/-- A new uniform allocation is made once the previous one is used up. -/
def refillUniform : ControlState F :=
  if s.phaseRemainingBudget = 0 then
    { s with
      uniformPhaseSampleSize := rawUniformSampleSize cfg s out
      phaseRemainingBudget :=
        min (rawUniformSampleSize cfg s out) (remainingBudget cfg s) }
  else s

/-- `aqp_pswr_progressive_allocate_uniform_round`. -/
def allocateUniformRound : ControlState F :=
  if out.currentCi ≤ pre.err0 ∨ pre.budgetSpent ≥ cfg.sampleBudget then
    { pre with lastPhase := true }
  else if remainingBudget cfg pre = 0 then
    { pre with lastPhase := true }
  else
    let s := refillUniform cfg pre out
    let size := min cfg.progressiveRoundSize s.phaseRemainingBudget
    let size := min size (remainingBudget cfg s)
    if size = 0 then { s with lastPhase := true }
    else
      { s with
        phaseRemainingBudget := s.phaseRemainingBudget - size
        uniformPhaseSampleSize :=
          if s.phaseRemainingBudget - size = 0 then 0 else s.uniformPhaseSampleSize
        partitions := [wholePartition size]
        curPartition := 0
        curPhaseSampleSize := size
        currentRoundBudget := size
        wantPartitionKey := false
        sampleSize := size }

/-- `aqp_pswr_progressive_enter_uniform`. -/
def enterUniform : ControlState F :=
  allocateUniformRound cfg
    { s with
      doSwitchToUniform := true
      progressiveCurrentPhaseEnabled := false
      partitions := [wholePartition 0]
      curPartition := 0
      phaseRemainingBudget := 0 }
    out

/-! ## Execution -/

/-- `aqp_approx_sum_check_ci`: stop, or set the size of the next phase. -/
def approxSumCheckCi : ControlState F :=
  if out.currentCi < s.err0 ∨ s.budgetSpent ≥ cfg.sampleBudget then
    { s with lastPhase := true }
  else
    match out.nextSampleSize with
    | none => { s with lastPhase := true }
    | some size => capAllocationToRemainingBudget cfg { s with curPhaseSampleSize := size }

def rescan : ControlState F :=
  { s with point := .scan }

/-- What the current phase or round allots a partition. -/
def ControlState.allotted (partition : Partition F) : Nat :=
  if s.progressive then partition.roundBudget else partition.optSampleSize

/-- The scan of the current partition: labels `process_first_partition` and
`process_next_partition`. -/
def processPartition : ControlState F :=
  rescan
    { s with
      sampleSize :=
        if s.partitions.length = 1 then s.curPhaseSampleSize
        else
          match s.partitions[s.curPartition]? with
          | some partition => s.allotted partition
          | none => 0 }

def processFirstPartition : ControlState F :=
  processPartition { s with curPartition := 0, wantPartitionKey := false }

def driverFetch (sampleSize : Nat) : Nat → Nat → Nat
  | fetched, 0 => fetched
  | fetched, asked + 1 =>
    if fetched ≥ sampleSize then fetched else driverFetch sampleSize (fetched + 1) asked

/-- The strata that `aqp_gpsa_compute_metainfo` and its variants leave. -/
def computeMetainfo (allocation : Allocation F) : ControlState F :=
  { s with
    partitions := allocation.shares.map fun share => ⟨share.1, share.2, 0, 0⟩
    curPhaseSampleSize := allocation.sampleSize }

/-- The counters are set back, and the initial phase runs on the next candidate plan. -/
def probePlan : ControlState F :=
  { s with
    point := .probe
    wantPartitionKey := true
    nintvls := 0
    err0 := 0
    lastPhase := false
    totalSamplesFetched := 0
    partitions := [wholePartition cfg.initialPhaseSampleSize]
    curPartition := 0
    curPhaseSampleSize := cfg.initialPhaseSampleSize
    sampleSize := cfg.initialPhaseSampleSize }

/-- The stratification gives the score of a candidate plan; the best one is kept. -/
def scorePlan (fetched : Nat) : ControlState F :=
  let s := computeMetainfo { s with err0 := Float8.fabs out.muTotal * cfg.relativeCi } out.allocation
  let score := s.curPhaseSampleSize
  if s.choice.best.all fun best => score < best.1 then
    { s with choice := { s.choice with best := some (score, fetched, s.nintvls) } }
  else s

def afterProbe : ControlState F :=
  let fetched := driverFetch s.sampleSize 0 out.asked
  let s :=
    { s with
      point := .probed
      choice :=
        { s.choice with
          tried := s.choice.tried + 1
          totalProbeSamples := s.choice.totalProbeSamples + fetched } }
  if out.returned then
    let s := { s with totalSamplesFetched := fetched, nintvls := out.nintvls }
    if out.nintvls = 0 ∨ (out.muTotal == 0) = true then s else scorePlan cfg s out fetched
  else s

/-- The samples of the other candidate plans are counted once the best one is chosen; without
a usable one there is an error. -/
def choosePlan : Option (ControlState F) :=
  s.choice.best.map fun (_, fetched, nintvls) =>
    { s with
      point := .call
      wantPartitionKey := true
      nintvls := nintvls
      err0 := 0
      lastPhase := false
      curPhase := 0
      partitions := [wholePartition cfg.initialPhaseSampleSize]
      curPartition := 1
      curPhaseSampleSize := cfg.initialPhaseSampleSize
      sampleSize := cfg.initialPhaseSampleSize
      totalSamplesFetched := fetched
      discardedProbeSamples :=
        if s.choice.totalProbeSamples > fetched then
          s.discardedProbeSamples + (s.choice.totalProbeSamples - fetched)
        else s.discardedProbeSamples }

def nextPlan : Option (ControlState F) :=
  if s.choice.tried < cfg.dpCandidateCount then some (probePlan cfg s) else choosePlan cfg s

def initialPhase : Option (ControlState F) :=
  if cfg.emptyres = false ∧ cfg.doPswr = true ∧ cfg.choosesPlan = true ∧ cfg.grouped = false then
    -- without a candidate or a budget that fits there is an error
    if cfg.dpCandidateCount = 0 ∨ cfg.initialPhaseSampleSize = 0 ∨
        cfg.initialPhaseSampleSize > cfg.sampleBudget / cfg.dpCandidateCount then none
    else some (probePlan cfg { s with curPhase := 0, choice := ⟨0, none, 0⟩ })
  else
    let s :=
      if cfg.emptyres then { s with curPhase := 0 }
      else
        { s with
          curPhase := 0
          sampleSize := cfg.initialPhaseSampleSize
          partitions := [wholePartition cfg.initialPhaseSampleSize]
          curPartition := 0
          curPhaseSampleSize := cfg.initialPhaseSampleSize }
    some
      (rescan
        (if cfg.doPswr then { s with wantPartitionKey := true, lastPhase := false }
        else { s with lastPhase := true }))

/-- The interval to reach is fixed in the first phase after the initial one. -/
def setTarget (muTotal : F) : Option (ControlState F) :=
  if s.curPhase = 1 ∧ (s.err0 == 0) = true then
    if (muTotal == 0) = true then none
    else some { s with err0 := Float8.fabs muTotal * cfg.relativeCi }
  else some s

/-- Start a phase on strata: cap it, decide about rounds, scan the first partition. -/
def stratifiedPhase : ControlState F :=
  let s := capAllocationToRemainingBudget cfg pre
  if s.curPhaseSampleSize = 0 then { s with lastPhase := true }
  else if cfg.doProgressiveSampling = true ∧ s.partitions.length > 1 ∧
      s.doSwitchToUniform = false then
    let s :=
      { s with phaseStartCi := out.currentCi, progressiveLastCi := out.currentCi }
    if remainingBudget cfg s = 0 then { s with lastPhase := true }
    else
      let large :=
        decide (min pre.curPhaseSampleSize (remainingBudget cfg s) >
          3 * cfg.progressiveRoundSize)
      let s :=
        { s with
          uniformPhaseSampleSize := out.uniformEstimate
          progressiveCurrentPhaseEnabled := large }
      if large then processFirstPartition (buildEachRound cfg (initCurrentPhase cfg s))
      else processFirstPartition s
  else processFirstPartition { s with progressiveCurrentPhaseEnabled := false }

/-- Nothing was learnt from the initial phase: the rest of the budget goes to the
whole range. -/
def unstratifiedPhase : ControlState F :=
  rescan
    { s with
      partitions := [wholePartition (remainingBudget cfg s)]
      curPartition := 0
      curPhaseSampleSize := remainingBudget cfg s
      lastPhase := true
      wantPartitionKey := false
      sampleSize := remainingBudget cfg s }

def enterPhase : Option (ControlState F) :=
  if s.budgetSpent ≥ cfg.sampleBudget then some { s with lastPhase := true }
  else
    (setTarget cfg { s with curPhase := s.curPhase + 1 } out.muTotal).map fun s =>
      if s.nintvls = 0 then unstratifiedPhase cfg s
      else if s.wantPartitionKey then
        stratifiedPhase cfg (computeMetainfo s out.allocation) out
      else stratifiedPhase cfg s out

/-- What follows a round of a stratified phase, when no groups are returned. -/
def afterRound : ControlState F :=
  let checked := checkCiAndSwitch cfg s out
  if checked.1.lastPhase then checked.1
  else if checked.2 then
    let uniform := enterUniform cfg checked.1 out
    if uniform.lastPhase then uniform else rescan uniform
  else if checked.1.phaseRemainingBudget > 0 then
    processFirstPartition (buildEachRound cfg checked.1)
  else approxSumCheckCi cfg checked.1 out

/-- What follows a round of a stratified phase, before its groups are returned. -/
def afterGroupedRound : ControlState F :=
  let checked := checkCiAndSwitch cfg s out
  if checked.2 then enterUniform cfg checked.1 out
  else if checked.1.phaseRemainingBudget > 0 then
    { buildEachRound cfg checked.1 with
      curPartition := 0
      groupedResumeNextPartition := true }
  else approxSumCheckCi cfg checked.1 out

def afterLastPartition : ControlState F :=
  if s.progressive then
    if cfg.grouped then afterGroupedRound cfg s out else afterRound cfg s out
  else if s.doSwitchToUniform then
    let uniform := allocateUniformRound cfg s out
    if cfg.grouped = true ∨ uniform.lastPhase = true then uniform else rescan uniform
  else approxSumCheckCi cfg s out

def countSamples (asked : Nat) : ControlState F :=
  { s with
    point := .call
    totalSamplesFetched := s.totalSamplesFetched + driverFetch s.sampleSize 0 asked
    curPartition := s.curPartition + 1 }

def afterScan : ControlState F :=
  let s := countSamples pre out.asked
  if s.curPartition < s.partitions.length then
    if cfg.grouped then { s with groupedResumeNextPartition := true } else processPartition s
  else if s.curPhase = 0 then { s with nintvls := out.nintvls }
  else afterLastPartition cfg s out

/-- One step of the node; an error leaves no state. -/
def exec : Option (ControlState F) :=
  match s.point with
  | .scan => some (afterScan cfg s out)
  | .probe => some (afterProbe cfg s out)
  | .probed => nextPlan cfg s
  | .call =>
    if s.lastPhase then some s
    else if s.groupedResumeNextPartition then
      some (processPartition
        { s with groupedResumeNextPartition := false, wantPartitionKey := false })
    else if s.curPhase = -1 then initialPhase cfg s
    else enterPhase cfg s out

end PgAqp.Progressive
