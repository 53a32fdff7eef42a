import PgAqp.Progressive.Control

/-!
# What each function of the controller can do

One lemma says what a function may change, and one what it guarantees.  The
float comparisons only decide between the cases, so they do not appear here.
-/

namespace PgAqp.Progressive

open List

variable {F : Type}

/-! ## Sums over partitions -/

variable (amount : Partition F → Nat) (cfg : Config F) (s : ControlState F)

@[simp]
theorem sumOf_nil : sumOf amount [] = 0 := rfl

@[simp]
theorem sumOf_cons (partition : Partition F) (rest : List (Partition F)) :
    sumOf amount (partition :: rest) = amount partition + sumOf amount rest := rfl

@[simp]
theorem sumOf_append (first second : List (Partition F)) :
    sumOf amount (first ++ second) = sumOf amount first + sumOf amount second := by
  induction first with
  | nil => simp
  | cons partition rest ih => simp [ih, Nat.add_assoc]

theorem sumOf_reverse (partitions : List (Partition F)) :
    sumOf amount partitions.reverse = sumOf amount partitions := by
  induction partitions with
  | nil => rfl
  | cons partition rest ih => simp [ih, Nat.add_comm]

theorem sumOf_map (change : Partition F → Partition F) (partitions : List (Partition F)) :
    sumOf amount (partitions.map change) = sumOf (fun p => amount (change p)) partitions := by
  induction partitions with
  | nil => rfl
  | cons partition rest ih => simp [ih]

theorem sumOf_add (first second : Partition F → Nat) (partitions : List (Partition F)) :
    sumOf (fun p => first p + second p) partitions =
      sumOf first partitions + sumOf second partitions := by
  induction partitions with
  | nil => rfl
  | cons partition rest ih =>
    simp only [sumOf_cons, ih]
    omega

variable {partitions : List (Partition F)}

theorem sumOf_congr {first second : Partition F → Nat}
    (same : ∀ p ∈ partitions, first p = second p) :
    sumOf first partitions = sumOf second partitions := by
  induction partitions with
  | nil => rfl
  | cons partition rest ih =>
    rw [sumOf_cons, sumOf_cons, same partition mem_cons_self,
      ih fun p mem => same p (mem_cons_of_mem _ mem)]

theorem sumOf_zero (partitions : List (Partition F)) : sumOf (fun _ => 0) partitions = 0 := by
  induction partitions with
  | nil => rfl
  | cons partition rest ih => rw [sumOf_cons, ih]

theorem exists_pos_of_sumOf_pos {amount : Partition F → Nat}
    (positive : 0 < sumOf amount partitions) : ∃ p ∈ partitions, 0 < amount p := by
  induction partitions with
  | nil => exact absurd positive (Nat.lt_irrefl 0)
  | cons partition rest ih =>
    by_cases here : 0 < amount partition
    · exact ⟨partition, mem_cons_self, here⟩
    · rw [sumOf_cons] at positive
      obtain ⟨p, mem, found⟩ := ih (by omega)
      exact ⟨p, mem_cons_of_mem _ mem, found⟩

theorem le_sumOf {amount : Partition F → Nat}
    (mem : p ∈ partitions) : amount p ≤ sumOf amount partitions := by
  induction partitions with
  | nil => cases mem
  | cons partition rest ih =>
    cases mem with
    | head => exact Nat.le_add_right _ _
    | tail _ later => exact (ih later).trans (Nat.le_add_left _ _)

theorem sumOf_drop {amount : Partition F → Nat} (here : partitions[i]? = some p) :
    sumOf amount (partitions.drop i) = amount p + sumOf amount (partitions.drop (i + 1)) := by
  obtain ⟨inside, rfl⟩ := List.getElem?_eq_some_iff.mp here
  rw [drop_eq_getElem_cons inside, sumOf_cons]

/-! ## Counters -/

theorem remainingBudget_eq : remainingBudget cfg s = cfg.sampleBudget - s.budgetSpent := by
  unfold remainingBudget
  split <;> omega

theorem driverFetch_eq (asked : Nat) (within : fetched ≤ sampleSize) :
    driverFetch sampleSize fetched asked = min sampleSize (fetched + asked) := by
  induction asked generalizing fetched with
  | zero => simp only [driverFetch]; omega
  | succ asked ih =>
    unfold driverFetch
    split
    · omega
    · rw [ih (by omega)]
      omega

theorem countSamples_budgetSpent (asked : Nat) :
    (countSamples s asked).budgetSpent = s.budgetSpent + min s.sampleSize asked := by
  change s.totalSamplesFetched + driverFetch s.sampleSize 0 asked + s.discardedProbeSamples = _
  rw [driverFetch_eq asked (Nat.zero_le _), ControlState.budgetSpent]
  omega

/-! ## Capping -/

variable [Float8 F]

theorem cappedSize_le (phaseSize left leastBefore : Nat) (enforceMinSample : Bool) (percent : F) :
    cappedSize phaseSize left leastBefore enforceMinSample percent ≤ left := by
  have last (wanted : Nat) : (if wanted > left then left else wanted) ≤ left := by split <;> omega
  exact last _

theorem capLoop_spec (phaseSize : Nat) (enforceMinSample : Bool) (taken : Nat)
    (partitions : List (Partition F)) (within : taken ≤ phaseSize) :
    (capLoop phaseSize enforceMinSample taken partitions).2 = taken + sumOf Partition.optSampleSize
          (capLoop phaseSize enforceMinSample taken partitions).1 ∧
      (capLoop phaseSize enforceMinSample taken partitions).2 ≤ phaseSize ∧
      (capLoop phaseSize enforceMinSample taken partitions).1.length = partitions.length := by
  induction partitions generalizing taken with
  | nil => exact ⟨rfl, within, rfl⟩
  | cons partition pre ih =>
    unfold capLoop
    dsimp only
    generalize share : (if phaseSize - taken = 0 ∨ partition.optSampleSize = 0 then 0
      else cappedSize phaseSize (phaseSize - taken) (30 * activePartitions pre)
        enforceMinSample partition.optSamplePercent) = size
    have bounded : size ≤ phaseSize - taken := by
      subst share
      split
      · exact Nat.zero_le _
      · exact cappedSize_le _ _ _ _ _
    obtain ⟨counted, total, length⟩ := ih (taken + size) (by omega)
    refine ⟨?_, total, by simp [length]⟩
    rw [counted, sumOf_cons, Nat.add_assoc]

/-- Capping changes the size and the shares of the phase and may end the run.  A phase
that still has a size hands it out completely, within the remaining budget. -/
theorem capAllocation_cases : ∃ last size partitions, capAllocationToRemainingBudget cfg s =
        { s with
          lastPhase := last
          curPhaseSampleSize := size
          partitions := partitions } ∧
      (s.lastPhase → last) ∧
      partitions.length = s.partitions.length ∧
      (size ≠ 0 → last = s.lastPhase ∧ (s.partitions ≠ [] →
        sumOf Partition.optSampleSize partitions = size ∧ size ≤ remainingBudget cfg s)) := by
  unfold capAllocationToRemainingBudget
  dsimp only
  split
  next early =>
    refine ⟨s.lastPhase, s.curPhaseSampleSize, s.partitions, rfl, id, rfl, ?_⟩
    refine fun sized => ⟨rfl, fun nonempty => ?_⟩
    rcases early with none | none
    · exact absurd (length_eq_zero_iff.mp none) nonempty
    · exact absurd none sized
  next late =>
    split
    next spent =>
      exact ⟨true, 0, s.partitions, rfl, fun _ => rfl, rfl, fun sized => absurd rfl sized⟩
    next left =>
      split
      next one =>
        refine ⟨s.lastPhase, _, _, rfl, id, one.symm, fun _ => ⟨rfl, fun _ => ?_⟩⟩
        refine ⟨by simp [wholePartition], ?_⟩
        split <;> omega
      next several =>
        refine ⟨s.lastPhase, _, _, rfl, id, ?_, fun _ => ⟨rfl, fun _ => ?_⟩⟩
        · rw [length_reverse, (capLoop_spec _ _ 0 _ (Nat.zero_le _)).2.2, length_reverse]
        · refine ⟨?_, (capLoop_spec _ _ 0 _ (Nat.zero_le _)).2.1.trans ?_⟩
          · rw [sumOf_reverse]
            exact ((capLoop_spec _ _ 0 _ (Nat.zero_le _)).1.trans (Nat.zero_add _)).symm
          · split <;> omega

theorem approxSumCheckCi_cases (out : Outcome F) : ∃ last size partitions,
      approxSumCheckCi cfg s out =
        { s with
          lastPhase := last
          curPhaseSampleSize := size
          partitions := partitions } ∧
      (s.lastPhase → last) ∧
      partitions.length = s.partitions.length := by
  unfold approxSumCheckCi
  split
  · exact ⟨true, _, _, rfl, fun _ => rfl, rfl⟩
  · split
    · exact ⟨true, _, _, rfl, fun _ => rfl, rfl⟩
    · obtain ⟨last, size, partitions, same, kept, length, -⟩ := capAllocation_cases cfg
        { s with curPhaseSampleSize := _ }
      exact ⟨last, size, partitions, same, kept, length⟩

/-! ## Rounds -/

theorem roundShare_le (round : Nat) (partition : Partition F) :
    roundShare round partition ≤ partition.remainingBudget := by
  have last (size : Nat) :
      (if size > partition.remainingBudget then partition.remainingBudget else size) ≤
        partition.remainingBudget := by
    split <;> omega
  unfold roundShare
  split
  · exact Nat.zero_le _
  · exact last _

theorem roundShare_pos (round : Nat) {partition : Partition F}
    (left : 0 < partition.remainingBudget) : 0 < roundShare round partition := by
  have last (size : Nat) (positive : 0 < size) :
      0 < if size > partition.remainingBudget then partition.remainingBudget else size := by
    split <;> omega
  unfold roundShare
  rw [if_neg (by omega)]
  apply last
  split
  · split <;> omega
  · omega

theorem buildEachRound_cases : ∃ checkpoint, buildEachRound cfg s =
        { s with
          partitions := s.partitions.map fun partition =>
            { partition with
              roundBudget :=
                roundShare (min cfg.progressiveRoundSize s.phaseRemainingBudget) partition }
          currentRoundBudget :=
            sumOf (roundShare (min cfg.progressiveRoundSize s.phaseRemainingBudget)) s.partitions
          progressiveBadCheckpoint := checkpoint } ∧
      (checkpoint = s.progressiveBadCheckpoint ∨
        checkpoint = some (s.totalSamplesFetched, s.progressiveLastCi)) := by
  unfold buildEachRound checkpointRoundStart
  dsimp only
  rw [sumOf_map]
  split
  · exact ⟨_, rfl, .inl rfl⟩
  · exact ⟨_, rfl, .inr rfl⟩

omit [Float8 F] in
theorem rollbackBadRounds_cases : rollbackBadRounds cfg s = s ∨
      ∃ fetched lastCi, s.progressiveBadCheckpoint = some (fetched, lastCi) ∧
        rollbackBadRounds cfg s =
          { s with
            discardedProbeSamples := s.discardedProbeSamples + (s.totalSamplesFetched - fetched)
            totalSamplesFetched := fetched
            progressiveLastCi := lastCi
            uniformPhaseSampleSize := 0
            progressiveBadRounds := 0
            progressiveBadCheckpoint := none } := by
  unfold rollbackBadRounds
  split
  · exact .inl rfl
  next fetched lastCi saved =>
    split
    · exact .inl rfl
    · refine .inr ⟨fetched, lastCi, saved, ?_⟩
      congr 2
      split <;> omega

/-- After a round is used, the run ends, the phase goes on, or its bad rounds are
rolled back for a switch to uniform sampling. -/
theorem checkCiAndSwitch_cases (out : Outcome F) :
    checkCiAndSwitch cfg s out = ({ useRound s with lastPhase := true }, false) ∨
    (∃ lastCi bad size, checkCiAndSwitch cfg s out =
        ({ useRound s with
            progressiveLastCi := lastCi
            progressiveBadRounds := bad
            uniformPhaseSampleSize := size }, false)) ∨
    ∃ bad size, checkCiAndSwitch cfg s out = (rollbackBadRounds cfg
          { useRound s with
            progressiveBadRounds := bad
            uniformPhaseSampleSize := size }, true) := by
  unfold checkCiAndSwitch
  dsimp only
  split
  · exact .inl rfl
  · split
    · exact .inr (.inl ⟨_, _, _, rfl⟩)
    · split
      · exact .inl rfl
      · split
        · exact .inr (.inr ⟨_, _, rfl⟩)
        · exact .inr (.inl ⟨_, _, _, rfl⟩)

/-! ## Candidate plans -/

theorem afterProbe_cases (out : Outcome F) : ∃ counted nintvls err0 partitions size best,
    afterProbe cfg s out =
        { s with
          point := .probed
          totalSamplesFetched := counted
          nintvls := nintvls
          err0 := err0
          partitions := partitions
          curPhaseSampleSize := size
          choice :=
            ⟨s.choice.tried + 1, best, s.choice.totalProbeSamples + min s.sampleSize out.asked⟩ } ∧
      (counted = s.totalSamplesFetched ∨ counted = min s.sampleSize out.asked) ∧
      (best = s.choice.best ∨ ∃ score, best = some (score, min s.sampleSize out.asked, nintvls)) := by
  have fetched : driverFetch s.sampleSize 0 out.asked = min s.sampleSize out.asked := by
    rw [driverFetch_eq _ (Nat.zero_le _), Nat.zero_add]
  unfold afterProbe scorePlan
  rw [fetched]
  dsimp only
  split
  · split
    · exact ⟨_, _, _, _, _, _, rfl, .inr rfl, .inl rfl⟩
    · split
      · exact ⟨_, _, _, _, _, _, rfl, .inr rfl, .inr ⟨_, rfl⟩⟩
      · exact ⟨_, _, _, _, _, _, rfl, .inr rfl, .inl rfl⟩
  · exact ⟨_, _, _, _, _, _, rfl, .inl rfl, .inl rfl⟩

/-! ## Uniform rounds -/

theorem allocateUniformRound_cases (out : Outcome F) : (∃ left size,
      allocateUniformRound cfg s out =
        { s with
          phaseRemainingBudget := left
          uniformPhaseSampleSize := size
          lastPhase := true }) ∨
    ∃ left uniform size, allocateUniformRound cfg s out =
        { s with
          phaseRemainingBudget := left
          uniformPhaseSampleSize := uniform
          partitions := [wholePartition size]
          curPartition := 0
          curPhaseSampleSize := size
          currentRoundBudget := size
          wantPartitionKey := false
          sampleSize := size } ∧
      0 < size ∧ size ≤ remainingBudget cfg s := by
  have refill : ∃ left size, refillUniform cfg s out =
      { s with phaseRemainingBudget := left, uniformPhaseSampleSize := size } := by
    unfold refillUniform
    split <;> exact ⟨_, _, rfl⟩
  obtain ⟨left, uniform, refilled⟩ := refill
  unfold allocateUniformRound
  dsimp only
  split
  · exact .inl ⟨_, _, rfl⟩
  · split
    · exact .inl ⟨_, _, rfl⟩
    · rw [refilled]
      split
      · exact .inl ⟨_, _, rfl⟩
      · refine .inr ⟨_, _, _, rfl, Nat.pos_of_ne_zero ‹_›, ?_⟩
        exact Nat.min_le_right _ _

end PgAqp.Progressive
