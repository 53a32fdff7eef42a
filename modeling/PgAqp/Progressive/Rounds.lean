import PgAqp.Progressive.Budget

/-!
# Every stratified phase and every fallback ends

A round takes at least one sample from every partition that has some left, so
the samples left in the phase fall with every round.  In the uniform fallback a
round has at least one sample, so the remaining budget falls instead.
-/

namespace PgAqp.Progressive

open Library List Option Partition Bool ControlState Exact

variable {F : Type} [Float8 F]

structure RoundBuilt (s : ControlState F) : Prop where
  left : sumOf Partition.remainingBudget s.partitions = s.phaseRemainingBudget
  bounded : ∀ partition ∈ s.partitions, partition.roundBudget ≤ partition.remainingBudget
  allots : 0 < s.phaseRemainingBudget → 0 < sumOf roundBudget s.partitions
  total : s.currentRoundBudget = sumOf roundBudget s.partitions

/-- A stratified phase is over: the run ends, uniform sampling takes over, or control is
back with the caller and no partition is pending. -/
def PhaseOver (s : ControlState F) : Prop :=
  s.lastPhase = true ∨ s.doSwitchToUniform = true ∨
    (s.point = .call ∧ s.groupedResumeNextPartition = false)

structure PhaseStart (cfg : Config F) (s : ControlState F) : Prop where
  sums : sumOf optSampleSize s.partitions = s.curPhaseSampleSize
  fits : s.curPhaseSampleSize ≤ remainingBudget cfg s
  enabled : s.progressiveCurrentPhaseEnabled = true
  stratified : s.doSwitchToUniform = false
  goes : s.lastPhase = false
  entered : 0 < s.curPhase
  known : s.nintvls ≠ 0
  resume : s.groupedResumeNextPartition = false

def startPhase (cfg : Config F) (s : ControlState F) : ControlState F :=
  processFirstPartition (buildEachRound cfg (initCurrentPhase cfg s))

def FetchesAll (s : ControlState F) (out : Outcome F) : Prop :=
  s.point = .scan → s.sampleSize ≤ out.asked

/-! ## Rounds -/

theorem roundBuilt_of_left (cfg : Config F)
    (left : sumOf Partition.remainingBudget s.partitions = s.phaseRemainingBudget) :
    RoundBuilt (buildEachRound cfg s) := by
  obtain ⟨checkpoint, built, -⟩ := buildEachRound_cases cfg s
  rw [built]
  refine ⟨?_, ?_, fun more => ?_, ?_⟩
  · rw [sumOf_map]
    exact left
  · intro partition mem
    obtain ⟨pre, -, rfl⟩ := mem_map.mp mem
    exact roundShare_le _ pre
  · rw [← left] at more
    obtain ⟨partition, mem, some⟩ := exists_pos_of_sumOf_pos more
    rw [sumOf_map]
    exact (roundShare_pos _ some).trans_le (le_sumOf mem)
  · rw [sumOf_map]

variable {s : ControlState F} {cfg : Config F}

omit [Float8 F] in
/-- Using a round keeps the sums equal, and the phase loses what the round took. -/
theorem RoundBuilt.use (built : RoundBuilt s) :
    sumOf Partition.remainingBudget (useRound s).partitions = (useRound s).phaseRemainingBudget ∧
      (useRound s).phaseRemainingBudget =
        s.phaseRemainingBudget - sumOf roundBudget s.partitions := by
  have taken : (useRound s).phaseRemainingBudget =
      s.phaseRemainingBudget - sumOf roundBudget s.partitions := by
    change (if s.currentRoundBudget > s.phaseRemainingBudget then 0
      else s.phaseRemainingBudget - s.currentRoundBudget) = _
    rw [built.total]
    split <;> omega
  have parts : sumOf (fun p : Partition F => (p.remainingBudget - p.roundBudget) + p.roundBudget)
      s.partitions = sumOf Partition.remainingBudget s.partitions :=
    sumOf_congr fun p mem => Nat.sub_add_cancel (built.bounded p mem)
  rw [sumOf_add, built.left] at parts
  refine ⟨?_, taken⟩
  have rest : sumOf Partition.remainingBudget (useRound s).partitions =
      sumOf (fun p : Partition F => p.remainingBudget - p.roundBudget) s.partitions := by
    change sumOf _ (s.partitions.map _) = _
    rw [sumOf_map]
    apply sumOf_congr
    intro partition _
    dsimp only
    split <;> omega
  rw [rest, taken]
  exact (Nat.sub_eq_of_eq_add parts.symm).symm

/-! ## The fallback -/

structure Fallback (cfg : Config F) (s : ControlState F) : Prop where
  uniform : s.doSwitchToUniform = true
  goes : s.lastPhase = false
  entered : 0 < s.curPhase
  known : s.nintvls ≠ 0
  keyless : s.wantPartitionKey = false
  resume : s.groupedResumeNextPartition = false
  one : s.partitions.length = 1
  pending : (s.point = .scan ∧ s.curPartition = 0 ∧ 0 < s.sampleSize) ∨
    (s.point = .call ∧ cfg.grouped = true)

/-- The remaining budget counts twice, since a call stands between two scans. -/
def fallbackRank (cfg : Config F) (s : ControlState F) : Nat :=
  2 * remainingBudget cfg s + if s.point = .call then 1 else 0

/-- The state of a uniform round between two scans. -/
structure UniformCall (s : ControlState F) : Prop where
  uniform : s.doSwitchToUniform = true
  entered : 0 < s.curPhase
  known : s.nintvls ≠ 0
  resume : s.groupedResumeNextPartition = false
  point : s.point = .call

theorem allocateUniformRound_pending (cfg : Config F) (out : Outcome F) (called : UniformCall s) :
    (allocateUniformRound cfg s out).lastPhase ∨ s.lastPhase ∨ 0 < remainingBudget cfg s ∧
        remainingBudget cfg (allocateUniformRound cfg s out) = remainingBudget cfg s ∧
        (cfg.grouped → Fallback cfg (allocateUniformRound cfg s out)) ∧
        Fallback cfg (rescan (allocateUniformRound cfg s out)) := by
  rcases allocateUniformRound_cases cfg s out with ⟨left, size, ends⟩ |
    ⟨left, raw, size, goes, positive, fits⟩
  · rw [ends]
    exact .inl rfl
  · cases last : s.lastPhase with
    | true => exact .inr (.inl rfl)
    | false =>
      refine .inr (.inr ⟨positive.trans_le fits, ?_⟩)
      rw [goes]
      exact ⟨rfl,
        fun grouped => ⟨called.uniform, last, called.entered, called.known, rfl, called.resume,
          rfl, .inr ⟨called.point, grouped⟩⟩,
        ⟨called.uniform, last, called.entered, called.known, rfl, called.resume, rfl,
          .inl ⟨rfl, rfl, positive⟩⟩⟩

theorem Fallback.afterScan (fallback : Fallback cfg s) (first : s.curPartition = 0)
    (allots : 0 < s.sampleSize) (scans : s.point = .scan) (fetches : s.sampleSize ≤ out.asked) :
    (afterScan cfg s out).lastPhase ∨ Fallback cfg (afterScan cfg s out) ∧
        fallbackRank cfg (afterScan cfg s out) < fallbackRank cfg s := by
  have counted : UniformCall (countSamples s out.asked) :=
    ⟨fallback.uniform, fallback.entered, fallback.known, fallback.resume, rfl⟩
  have spent := countSamples_budgetSpent s out.asked
  have done : ¬ (countSamples s out.asked).curPartition <
      (countSamples s out.asked).partitions.length := by
    change ¬ s.curPartition + 1 < s.partitions.length
    rw [first, fallback.one]
    decide
  have entered := fallback.entered
  have plain : ¬ (countSamples s out.asked).progressive := by
    change ¬ (s.progressiveCurrentPhaseEnabled && !s.doSwitchToUniform)
    rw [fallback.uniform, Bool.not_true, Bool.and_false]
    exact false_ne_true
  have step : Progressive.afterScan cfg s out = if cfg.grouped ∨
          (allocateUniformRound cfg (countSamples s out.asked) out).lastPhase = true then
        allocateUniformRound cfg (countSamples s out.asked) out
      else rescan (allocateUniformRound cfg (countSamples s out.asked) out) := by
    unfold Progressive.afterScan afterLastPartition
    rw [if_neg done, if_neg (by change ¬ s.curPhase = 0; omega), if_neg plain,
      if_pos counted.uniform]
  have pre : fallbackRank cfg s = 2 * remainingBudget cfg s := by
    rw [fallbackRank, if_neg (by rw [scans]; decide), Nat.add_zero]
  rw [step, pre]
  rcases allocateUniformRound_pending cfg out counted with
    ends | ends | ⟨some, same, called, rescanned⟩
  · rw [if_pos (.inr ends)]
    exact .inl ends
  · exact absurd (fallback.goes.symm.trans ends) false_ne_true
  · -- What the round fetched is gone from the remaining budget.
    have lower : remainingBudget cfg (countSamples s out.asked) + 1 ≤ remainingBudget cfg s := by
      rw [remainingBudget_eq, spent] at some ⊢
      rw [remainingBudget_eq]
      omega
    split
    next grouped =>
      rcases grouped with grouped | ends
      · refine .inr ⟨called grouped, ?_⟩
        rw [fallbackRank, same]
        split <;> omega
      · exact .inl ends
    · refine .inr ⟨rescanned, ?_⟩
      change 2 * remainingBudget cfg (allocateUniformRound cfg _ out) + 0 < _
      omega

theorem Fallback.enterPhase (out : Outcome F)
    (fallback : Fallback cfg s) (calls : s.point = .call) :
    ∃ next, enterPhase cfg s out = some next ∧ (next.lastPhase ∨
        Fallback cfg next ∧ fallbackRank cfg next < fallbackRank cfg s) := by
  have entered := fallback.entered
  unfold Progressive.enterPhase
  split
  · exact ⟨_, rfl, .inl rfl⟩
  · have target : setTarget cfg { s with curPhase := s.curPhase + 1 } out.muTotal =
        some { s with curPhase := s.curPhase + 1 } := by
      unfold setTarget
      rw [if_neg]
      rintro ⟨again, -⟩
      dsimp only at again
      omega
    rw [target, map_some]
    refine ⟨_, rfl, ?_⟩
    rw [if_neg fallback.known, if_neg (by rw [fallback.keyless]; exact false_ne_true)]
    obtain ⟨last, size, partitions, capped, -, length, -⟩ :=
      capAllocation_cases cfg { s with curPhase := s.curPhase + 1 }
    have one : partitions.length = 1 := length.trans fallback.one
    unfold stratifiedPhase
    rw [capped]
    dsimp only
    split
    · exact .inl rfl
    next sized =>
      rw [if_neg (by rw [one]; exact fun several => absurd several.2.1 (by decide))]
      cases last with
      | true => exact .inl rfl
      | false =>
        refine .inr ⟨⟨fallback.uniform, rfl, Int.lt_add_one_of_le (Int.le_of_lt entered),
          fallback.known, rfl, fallback.resume, one, .inl ⟨rfl, rfl, ?_⟩⟩, ?_⟩
        · change 0 < if partitions.length = 1 then size else _
          rw [if_pos one]
          exact Nat.pos_of_ne_zero sized
        · change 2 * remainingBudget cfg s + 0 < 2 * remainingBudget cfg s + _
          rw [if_pos calls]
          omega

/-- A step of the fallback that fetches what it allots ends the run or uses up budget. -/
theorem Fallback.exec (fallback : Fallback cfg s) (fetches : FetchesAll s out) :
    ∃ next, exec cfg s out = some next ∧ (next.lastPhase ∨
        Fallback cfg next ∧ fallbackRank cfg next < fallbackRank cfg s) := by
  have entered := fallback.entered
  rcases fallback.pending with ⟨scans, first, allots⟩ | ⟨calls, -⟩
  · refine ⟨_, ?_, fallback.afterScan first allots scans (fetches scans)⟩
    simp only [Progressive.exec, scans]
  · have step : Progressive.exec cfg s out = Progressive.enterPhase cfg s out := by
      simp only [Progressive.exec, calls]
      rw [if_neg (by rw [fallback.goes]; exact false_ne_true),
        if_neg (by rw [fallback.resume]; exact false_ne_true), if_neg (by omega)]
    rw [step]
    exact fallback.enterPhase out calls

/-! ## The stratified phase -/

structure InPhase (s : ControlState F) : Prop where
  enabled : s.progressive = true
  goes : s.lastPhase = false
  entered : 0 < s.curPhase
  known : s.nintvls ≠ 0
  built : RoundBuilt s
  inside : s.partitions ≠ [] → s.curPartition < s.partitions.length
  pending : (s.point = .scan ∧ s.groupedResumeNextPartition = false) ∨
    (s.point = .call ∧ s.groupedResumeNextPartition = true)

def Leaves (cfg : Config F) (s : ControlState F) : Prop :=
  s.lastPhase = true ∨ Fallback cfg s ∨
    (s.doSwitchToUniform = false ∧ s.point = .call ∧ s.groupedResumeNextPartition = false)

/-- Partitions of later rounds and of this one, counted twice as in the fallback. -/
def phaseRank (s : ControlState F) : Nat :=
  2 * (s.phaseRemainingBudget * s.partitions.length +
    (s.partitions.length - s.curPartition)) + if s.point = .call then 1 else 0

omit [Float8 F] in
theorem Leaves.over (leaves : Leaves cfg s) : PhaseOver s := by
  rcases leaves with ends | fallback | ⟨-, ended⟩
  · exact .inl ends
  · exact .inr (.inl fallback.uniform)
  · exact .inr (.inr ended)

omit [Float8 F] in
theorem InPhase.not_over (phase : InPhase s) : ¬ PhaseOver s := by
  rintro (ends | switched | ⟨calls, done⟩)
  · exact absurd (phase.goes.symm.trans ends) false_ne_true
  · have enabled := phase.enabled
    rw [progressive, switched, Bool.not_true, Bool.and_false] at enabled
    cases enabled
  · rcases phase.pending with ⟨scans, -⟩ | ⟨-, resumes⟩
    · exact absurd (calls.symm.trans scans) (by decide)
    · exact absurd (done.symm.trans resumes) false_ne_true

theorem nextRound_inPhase (cfg : Config F) (enabled : s.progressive)
    (goes : s.lastPhase = false) (entered : 0 < s.curPhase) (known : s.nintvls ≠ 0)
    (left : sumOf Partition.remainingBudget s.partitions = s.phaseRemainingBudget)
    (point : Point) (resume want : Bool) (sampleSize : Nat)
    (pending : (point = .scan ∧ resume = false) ∨ (point = .call ∧ resume)) :
    InPhase
      { buildEachRound cfg s with
        curPartition := 0
        point := point
        groupedResumeNextPartition := resume
        wantPartitionKey := want
        sampleSize := sampleSize } := by
  obtain ⟨allLeft, bounded, allots, total⟩ := roundBuilt_of_left cfg left
  obtain ⟨checkpoint, built, -⟩ := buildEachRound_cases cfg s
  refine ⟨?_, ?_, ?_, ?_, ⟨allLeft, bounded, allots, total⟩,
    fun nonempty => length_pos_iff.mpr nonempty, pending⟩
  · rw [built]
    exact enabled
  · rw [built]
    exact goes
  · rw [built]
    exact entered
  · rw [built]
    exact known

theorem startPhase_inPhase (start : PhaseStart cfg s) : InPhase (startPhase cfg s) := by
  have left : sumOf Partition.remainingBudget (initCurrentPhase cfg s).partitions =
      (initCurrentPhase cfg s).phaseRemainingBudget := by
    change sumOf _ (s.partitions.map _) = min s.curPhaseSampleSize (remainingBudget cfg s)
    rw [sumOf_map, Nat.min_eq_left start.fits]
    exact start.sums
  have enabled : (initCurrentPhase cfg s).progressive := by
    change (s.progressiveCurrentPhaseEnabled && !s.doSwitchToUniform)
    rw [start.enabled, start.stratified]
    rfl
  have resume : (buildEachRound cfg (initCurrentPhase cfg s)).groupedResumeNextPartition =
      false := by
    obtain ⟨checkpoint, built, -⟩ := buildEachRound_cases cfg (initCurrentPhase cfg s)
    rw [built]
    exact start.resume
  exact nextRound_inPhase cfg enabled start.goes start.entered start.known left .scan _ false _
    (.inl ⟨rfl, resume⟩)

structure RoundScanned (s : ControlState F) : Prop where
  enabled : s.progressive = true
  goes : s.lastPhase = false
  entered : 0 < s.curPhase
  known : s.nintvls ≠ 0
  built : RoundBuilt s
  point : s.point = .call
  resume : s.groupedResumeNextPartition = false

theorem approxSumCheckCi_leaves (cfg : Config F) (out : Outcome F)
    (stratified : s.doSwitchToUniform = false) (point : s.point = .call)
    (resume : s.groupedResumeNextPartition = false) :
    Leaves cfg (approxSumCheckCi cfg s out) := by
  obtain ⟨last, size, partitions, same, -⟩ := approxSumCheckCi_cases cfg s out
  rw [same]
  exact .inr (.inr ⟨stratified, point, resume⟩)

theorem enterUniform_pending (cfg : Config F) (out : Outcome F)
    (goes : s.lastPhase = false) (entered : 0 < s.curPhase) (known : s.nintvls ≠ 0)
    (point : s.point = .call) (resume : s.groupedResumeNextPartition = false) :
    (enterUniform cfg s out).lastPhase ∨ (cfg.grouped → Fallback cfg (enterUniform cfg s out)) ∧
        Fallback cfg (rescan (enterUniform cfg s out)) := by
  rcases allocateUniformRound_pending cfg out
      (s := { s with
        doSwitchToUniform := true
        progressiveCurrentPhaseEnabled := false
        partitions := [wholePartition 0]
        curPartition := 0
        phaseRemainingBudget := 0 })
      ⟨rfl, entered, known, resume, point⟩ with ends | ends | ⟨-, -, pending⟩
  · exact .inl ends
  · exact absurd (goes.symm.trans ends) false_ne_true
  · exact .inr pending

/-- What the interval check leaves of a scanned round. -/
structure RoundUsed (s used : ControlState F) (switch : Bool) : Prop where
  point : used.point = .call
  resume : used.groupedResumeNextPartition = false
  stratified : used.doSwitchToUniform = false
  entered : 0 < used.curPhase
  known : used.nintvls ≠ 0
  enabled : used.progressive = true
  last : used.lastPhase = true → switch = false
  left : sumOf Partition.remainingBudget used.partitions = used.phaseRemainingBudget
  length : used.partitions.length = s.partitions.length
  fewer : 0 < used.phaseRemainingBudget → used.phaseRemainingBudget < s.phaseRemainingBudget

theorem RoundScanned.check (cfg : Config F) (out : Outcome F) (scanned : RoundScanned s) :
    RoundUsed s (checkCiAndSwitch cfg s out).1 (checkCiAndSwitch cfg s out).2 := by
  obtain ⟨enabled, goes, entered, known, built, point, resume⟩ := scanned
  obtain ⟨left, taken⟩ := built.use
  have length : (useRound s).partitions.length = s.partitions.length := length_map _
  have stratified : s.doSwitchToUniform = false := by
    rw [progressive, and_eq_true_iff] at enabled
    exact not_eq_true' _ |>.mp enabled.2
  have fewer : 0 < (useRound s).phaseRemainingBudget →
      (useRound s).phaseRemainingBudget < s.phaseRemainingBudget := fun some => by
    have allots := built.allots (by omega)
    omega
  have open_ {switch : Bool} (ends : s.lastPhase) : switch = false :=
    absurd (goes.symm.trans ends) false_ne_true
  rcases checkCiAndSwitch_cases cfg s out with stops | ⟨lastCi, bad, size, continues⟩ |
    ⟨bad, size, switches⟩
  · rw [stops]
    exact ⟨point, resume, stratified, entered, known, enabled, fun _ => rfl, left, length, fewer⟩
  · rw [continues]
    exact ⟨point, resume, stratified, entered, known, enabled, open_, left, length, fewer⟩
  · rw [switches]
    rcases rollbackBadRounds_cases cfg { useRound s with
        progressiveBadRounds := bad, uniformPhaseSampleSize := size } with
      kept | ⟨fetched, lastCi, -, rolled⟩
    · rw [kept]
      exact ⟨point, resume, stratified, entered, known, enabled, open_, left, length, fewer⟩
    · rw [rolled]
      exact ⟨point, resume, stratified, entered, known, enabled, open_, left, length, fewer⟩

structure NextRound (s next : ControlState F) : Prop where
  phase : InPhase next
  some : 0 < s.phaseRemainingBudget
  rank : phaseRank next ≤ 2 * (s.phaseRemainingBudget * s.partitions.length) + 1

theorem RoundUsed.next {used : ControlState F} {switch : Bool} (round : RoundUsed s used switch)
    (cfg : Config F) (some : 0 < used.phaseRemainingBudget) {next : ControlState F}
    (phase : InPhase next) (first : next.curPartition = 0)
    (length : next.partitions.length = (buildEachRound cfg used).partitions.length)
    (left : next.phaseRemainingBudget = (buildEachRound cfg used).phaseRemainingBudget) :
    NextRound s next := by
  refine ⟨phase, some.trans (round.fewer some), ?_⟩
  obtain ⟨checkpoint, built, -⟩ := buildEachRound_cases cfg used
  rw [built] at length left
  dsimp only at length left
  rw [length_map, round.length] at length
  have smaller : (used.phaseRemainingBudget + 1) * s.partitions.length ≤
      s.phaseRemainingBudget * s.partitions.length :=
    Nat.mul_le_mul_right _ (round.fewer some)
  rw [Nat.succ_mul] at smaller
  rw [phaseRank, first, length, left]
  split <;> omega

theorem RoundScanned.afterRound (cfg : Config F) (out : Outcome F) (scanned : RoundScanned s) :
    Leaves cfg (afterRound cfg s out) ∨ NextRound s (afterRound cfg s out) := by
  have round := scanned.check cfg out
  unfold Progressive.afterRound
  dsimp only
  split
  next ends => exact .inl (.inl ends)
  next goes =>
    have stillOpen := eq_false_of_ne_true goes
    split
    next switches =>
      rcases enterUniform_pending cfg out stillOpen round.entered round.known round.point
        round.resume with ends | ⟨-, fallback⟩
      · rw [if_pos ends]
        exact .inl (.inl ends)
      · have again : (enterUniform cfg (checkCiAndSwitch cfg s out).1 out).lastPhase =
          false := fallback.goes
        rw [if_neg (by rw [again]; exact false_ne_true)]
        exact .inl (.inr (.inl fallback))
    next =>
      split
      next some =>
        refine .inr (round.next cfg some (nextRound_inPhase cfg round.enabled stillOpen
          round.entered round.known round.left .scan _ _ _ (.inl ⟨rfl, ?_⟩)) rfl rfl rfl)
        obtain ⟨checkpoint, built, -⟩ := buildEachRound_cases cfg (checkCiAndSwitch cfg s out).1
        rw [built]
        exact round.resume
      next => exact .inl (approxSumCheckCi_leaves cfg out round.stratified round.point round.resume)

/-- After a round that returns groups the phase is left, or the next call scans its next
round. -/
theorem RoundScanned.afterGroupedRound (out : Outcome F)
    (scanned : RoundScanned s) (grouped : cfg.grouped) :
    Leaves cfg (afterGroupedRound cfg s out) ∨ NextRound s (afterGroupedRound cfg s out) := by
  have round := scanned.check cfg out
  obtain ⟨checkpoint, built, -⟩ := buildEachRound_cases cfg (checkCiAndSwitch cfg s out).1
  unfold Progressive.afterGroupedRound
  dsimp only
  cases ended : (checkCiAndSwitch cfg s out).1.lastPhase with
  | true =>
    rw [round.last ended, if_neg Bool.false_ne_true]
    split
    · refine .inl (.inl ?_)
      rw [built]
      exact ended
    · exact .inl (approxSumCheckCi_leaves cfg out round.stratified round.point round.resume)
  | false =>
    split
    · rcases enterUniform_pending cfg out ended round.entered round.known round.point
        round.resume with ends | ⟨fallback, -⟩
      · exact .inl (.inl ends)
      · exact .inl (.inr (.inl (fallback grouped)))
    · split
      next some =>
        refine .inr (round.next cfg some (nextRound_inPhase cfg round.enabled ended
          round.entered round.known round.left _ true _ _ (.inr ⟨?_, rfl⟩)) rfl rfl rfl)
        rw [built]
        exact round.point
      · exact .inl (approxSumCheckCi_leaves cfg out round.stratified round.point round.resume)

theorem RoundScanned.afterLastPartition (cfg : Config F) (out : Outcome F)
    (scanned : RoundScanned s) :
    Leaves cfg (afterLastPartition cfg s out) ∨ NextRound s (afterLastPartition cfg s out) := by
  unfold Progressive.afterLastPartition
  rw [if_pos scanned.enabled]
  split
  next grouped => exact scanned.afterGroupedRound out grouped
  next => exact scanned.afterRound cfg out

theorem InPhase.afterScan (cfg : Config F) (out : Outcome F)
    (phase : InPhase s) (scans : s.point = .scan) (resume : s.groupedResumeNextPartition = false) :
    Leaves cfg (afterScan cfg s out) ∨
      InPhase (afterScan cfg s out) ∧ phaseRank (afterScan cfg s out) < phaseRank s := by
  obtain ⟨enabled, goes, entered, known, built, inside, -⟩ := phase
  have rank : phaseRank s = 2 * (s.phaseRemainingBudget * s.partitions.length +
      (s.partitions.length - s.curPartition)) := by
    rw [phaseRank, if_neg (by rw [scans]; decide), Nat.add_zero]
  obtain ⟨left, bounded, allots, total⟩ := built
  unfold Progressive.afterScan
  dsimp only
  split
  next more =>
    change s.curPartition + 1 < s.partitions.length at more
    split
    · refine .inr ⟨⟨enabled, goes, entered, known, ⟨left, bounded, allots, total⟩,
        fun _ => more, .inr ⟨rfl, rfl⟩⟩, ?_⟩
      change 2 * (s.phaseRemainingBudget * s.partitions.length +
        (s.partitions.length - (s.curPartition + 1))) + 1 < _
      omega
    · refine .inr ⟨⟨enabled, goes, entered, known, ⟨left, bounded, allots, total⟩,
        fun _ => more, .inl ⟨rfl, resume⟩⟩, ?_⟩
      change 2 * (s.phaseRemainingBudget * s.partitions.length +
        (s.partitions.length - (s.curPartition + 1))) + 0 < _
      omega
  next done =>
    have scanned : RoundScanned (countSamples s out.asked) :=
      ⟨enabled, goes, entered, known, ⟨left, bounded, allots, total⟩, rfl, resume⟩
    rw [if_neg (by change ¬ s.curPhase = 0; omega)]
    rcases scanned.afterLastPartition cfg out with leaves | ⟨phase, some, lower⟩
    · exact .inl leaves
    · refine .inr ⟨phase, lower.trans_lt ?_⟩
      change 0 < s.phaseRemainingBudget at some
      have last := inside fun empty => by
        rw [← left, empty] at some
        exact absurd some (Nat.lt_irrefl 0)
      change 2 * (s.phaseRemainingBudget * s.partitions.length) + 1 < _
      omega

theorem InPhase.exec (cfg : Config F) (out : Outcome F) (phase : InPhase s) :
    ∃ next, exec cfg s out = some next ∧
      (Leaves cfg next ∨ InPhase next ∧ phaseRank next < phaseRank s) := by
  rcases phase.pending with ⟨scans, resume⟩ | ⟨calls, resumes⟩
  · refine ⟨_, ?_, phase.afterScan cfg out scans resume⟩
    simp only [Progressive.exec, scans]
  · refine ⟨processPartition
      { s with groupedResumeNextPartition := false, wantPartitionKey := false }, ?_, ?_⟩
    · simp only [Progressive.exec, calls]
      rw [if_neg (by rw [phase.goes]; exact false_ne_true), if_pos resumes]
    · obtain ⟨left, bounded, allots, total⟩ := phase.built
      refine .inr ⟨⟨phase.enabled, phase.goes, phase.entered, phase.known,
        ⟨left, bounded, allots, total⟩, phase.inside, .inl ⟨rfl, rfl⟩⟩, ?_⟩
      change 2 * (s.phaseRemainingBudget * s.partitions.length +
        (s.partitions.length - s.curPartition)) + 0 < phaseRank s
      rw [phaseRank, if_pos calls]
      omega

/-! ## Termination -/

/-- Inside a phase its round is built; outside it was left in one of three ways. -/
theorem phase_invariant (start : PhaseStart cfg s)
    (stays : Run.Meets (exec cfg) (fun state _ => ¬ PhaseOver state) (startPhase cfg s) outcomes)
    (reached : Run.run (exec cfg) (startPhase cfg s) outcomes = some t) :
    InPhase t ∨ Leaves cfg t := by
  refine Run.invariant (fun state => InPhase state ∨ Leaves cfg state) ?_
    (.inl (startPhase_inPhase start)) stays reached
  intro state next out inv inside step
  rcases inv with phase | leaves
  · obtain ⟨after, same, kept⟩ := phase.exec cfg out
    cases same.symm.trans step
    rcases kept with leaves | ⟨phase, -⟩
    · exact .inr leaves
    · exact .inl phase
  · exact absurd leaves.over inside

/-- Every round of a stratified phase is built soundly; the phase ends or switches to the
uniform fallback after finitely many steps, whatever the outcomes; and the fallback, when
its scans fetch what they are allotted, reaches the last phase after finitely many steps. -/
theorem rounds_finite (cfg : Config F) (s : ControlState F) (start : PhaseStart cfg s) :
    (∀ outcomes t,
      Run.Meets (exec cfg) (fun state _ => ¬ PhaseOver state) (startPhase cfg s) outcomes →
      Run.run (exec cfg) (startPhase cfg s) outcomes = some t → ¬ PhaseOver t →
      RoundBuilt t) ∧
    (∀ outcomes : List (Outcome F),
      2 * ((s.curPhaseSampleSize + 1) * s.partitions.length) < outcomes.length →
      ∃ front back t, outcomes = front ++ back ∧
        Run.run (exec cfg) (startPhase cfg s) front = some t ∧ PhaseOver t) ∧
    ∀ outcomes t,
      Run.Meets (exec cfg) (fun state _ => ¬ PhaseOver state) (startPhase cfg s) outcomes →
      Run.run (exec cfg) (startPhase cfg s) outcomes = some t → t.doSwitchToUniform = true →
      ∀ later : List (Outcome F), Run.Meets (exec cfg) FetchesAll t later →
        2 * remainingBudget cfg t + 1 < later.length →
        ∃ front back u, later = front ++ back ∧
          Run.run (exec cfg) t front = some u ∧ u.lastPhase = true := by
  refine ⟨?_, ?_, ?_⟩
  · intro outcomes t stays reached inside
    rcases phase_invariant start stays reached with phase | leaves
    · exact phase.built
    · exact absurd leaves.over inside
  · intro outcomes long
    have first := startPhase_inPhase start
    have rank : phaseRank (startPhase cfg s) ≤
        2 * ((s.curPhaseSampleSize + 1) * s.partitions.length) := by
      obtain ⟨checkpoint, built, -⟩ := buildEachRound_cases cfg (initCurrentPhase cfg s)
      have length : (startPhase cfg s).partitions.length = s.partitions.length := by
        rw [startPhase, built]
        exact (length_map _).trans (length_map _)
      have left : (startPhase cfg s).phaseRemainingBudget ≤ s.curPhaseSampleSize := by
        rw [startPhase, built]
        exact Nat.min_le_left _ _
      have parts := Nat.mul_le_mul_right s.partitions.length left
      have sum : (s.curPhaseSampleSize + 1) * s.partitions.length =
          s.curPhaseSampleSize * s.partitions.length + s.partitions.length := Nat.succ_mul _ _
      rw [phaseRank, length, if_neg (fun calls => by cases calls)]
      omega
    obtain ⟨front, back, t, split, reached, leaves⟩ := Run.passes InPhase (Leaves cfg) phaseRank
      (fun phase _ => phase.exec cfg _) first (Run.meets_unguarded (exec cfg) _ outcomes)
      (rank.trans_lt long)
    exact ⟨front, back, t, split, reached, leaves.over⟩
  · intro outcomes t stays reached switched later fetches long
    rcases phase_invariant start stays reached with phase | ends | fallback | ⟨stratified, -⟩
    · exact absurd (Or.inr (Or.inl switched)) phase.not_over
    · exact ⟨[], later, t, rfl, rfl, ends⟩
    · have rank : fallbackRank cfg t ≤ 2 * remainingBudget cfg t + 1 := by
        rw [fallbackRank]
        split <;> omega
      exact Run.passes (Fallback cfg) (fun state => state.lastPhase = true) (fallbackRank cfg)
        (fun fallback fetches => fallback.exec fetches) fallback fetches
        (rank.trans_lt long)
    · exact absurd (stratified.symm.trans switched) Bool.false_ne_true

/-- A phase of two strata with 150 samples each, after an initial phase of 30. -/
def stalledPhase : ControlState ℚ :=
  { begin with
    curPhase := 1
    partitions := [⟨150, 1 / 2, 0, 0⟩, ⟨150, 1 / 2, 0, 0⟩]
    curPhaseSampleSize := 300
    totalSamplesFetched := 30
    nintvls := 2
    err0 := 10
    progressiveCurrentPhaseEnabled := true }

theorem stalledPhase_starts : PhaseStart smallBudget stalledPhase where
  sums := rfl
  fits := by decide
  enabled := rfl
  stratified := rfl
  goes := rfl
  entered := by decide
  known := by decide
  resume := rfl

/-- With an interval that never shrinks, the phase is over within 1205 steps. -/
theorem stalledPhase_over : ∃ front back t, List.replicate 1205 stalledOutcome = front ++ back ∧
      Run.run (exec smallBudget) (startPhase smallBudget stalledPhase) front = some t ∧
      PhaseOver t :=
  (rounds_finite smallBudget stalledPhase stalledPhase_starts).2.1 _
    (by rw [length_replicate]; decide)

end PgAqp.Progressive
