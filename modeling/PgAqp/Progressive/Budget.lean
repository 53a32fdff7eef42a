import PgAqp.Progressive.ControlSpec

/-!
# The sample budget over whole runs

Whenever the plan below is scanned, the budget covers what is spent, the sample
size of the scan, and all that the phase has promised to later scans.  A rollback
only moves samples from the kept to the discarded ones.
-/

namespace PgAqp.Progressive

open List Option ControlState Partition Exact

variable {F : Type} [Float8 F]

/-- What later rounds of the phase may still give a partition. -/
def ControlState.deferred (s : ControlState F) (partition : Partition F) : Nat :=
  if s.progressive then partition.remainingBudget - partition.roundBudget else 0

/-- What the phase has promised from one partition on. -/
def ControlState.outstanding (s : ControlState F) (i : Nat) : Nat :=
  sumOf s.allotted (s.partitions.drop i) + sumOf s.deferred s.partitions

def ControlState.Saved (s : ControlState F) : Prop :=
  ∀ fetched lastCi, s.progressiveBadCheckpoint = some (fetched, lastCi) →
    fetched ≤ s.totalSamplesFetched

structure Funded (cfg : Config F) (s : ControlState F) : Prop where
  within : s.budgetSpent ≤ cfg.sampleBudget
  saved : s.Saved
  started : s = begin ∨ 0 ≤ s.curPhase
  several : s.lastPhase = false → s.progressive = true → s.partitions.length ≠ 1
  scanning : s.point = .scan →
    s.groupedResumeNextPartition = false ∧
      s.budgetSpent + s.sampleSize + s.outstanding (s.curPartition + 1) ≤ cfg.sampleBudget
  resuming : s.point = .call → s.lastPhase = false → s.groupedResumeNextPartition = true →
    s.partitions.length ≠ 1 ∧
      s.budgetSpent + s.outstanding s.curPartition ≤ cfg.sampleBudget
  chosen : s.point = .call ∨ s.point = .scan

/-- Control is between two scans, and no partition is pending. -/
structure Settled (cfg : Config F) (s : ControlState F) : Prop where
  within : s.budgetSpent ≤ cfg.sampleBudget
  saved : s.Saved
  started : 0 ≤ s.curPhase
  point : s.point = .call
  resume : s.groupedResumeNextPartition = false

variable {cfg : Config F} {s next : ControlState F} {out : Outcome F}

theorem Settled.funded (settled : Settled cfg s)
    (several : s.lastPhase = false → s.progressive → s.partitions.length ≠ 1) :
    Funded cfg s where
  within := settled.within
  saved := settled.saved
  started := .inr settled.started
  several := several
  scanning := fun scans => by rw [settled.point] at scans; cases scans
  resuming := fun _ _ resumes => by rw [settled.resume] at resumes; cases resumes
  chosen := .inl settled.point

omit [Float8 F] in
theorem sumOf_deferred (plain : s.progressive = false)
    (partitions : List (Partition F)) : sumOf s.deferred partitions = 0 := by
  have none : s.deferred = fun _ => 0 := by
    funext partition
    simp [deferred, plain]
  rw [none, sumOf_zero]

omit [Float8 F] in
theorem outstanding_past (past : s.partitions.length ≤ i) :
    s.outstanding i = sumOf s.deferred s.partitions := by
  rw [outstanding, drop_eq_nil_of_le past, sumOf_nil, Nat.zero_add]

theorem processPartition_funded (settled : Settled cfg s)
    (several : s.progressive → s.partitions.length ≠ 1)
    (one : s.partitions.length = 1 → s.budgetSpent + s.curPhaseSampleSize ≤ cfg.sampleBudget)
    (covered : s.partitions.length ≠ 1 →
      s.budgetSpent + s.outstanding s.curPartition ≤ cfg.sampleBudget) :
    Funded cfg (processPartition s) ∧ (processPartition s).budgetSpent = s.budgetSpent := by
  refine ⟨⟨settled.within, settled.saved, .inr settled.started, fun _ => several,
    fun _ => ⟨settled.resume, ?_⟩, (fun calls => by cases calls), .inr rfl⟩, rfl⟩
  change s.budgetSpent + (if s.partitions.length = 1 then s.curPhaseSampleSize else _) +
    s.outstanding (s.curPartition + 1) ≤ cfg.sampleBudget
  by_cases single : s.partitions.length = 1
  · have plain : s.progressive = false := by
      cases enabled : s.progressive with
      | false => rfl
      | true => exact absurd single (several enabled)
    rw [if_pos single, outstanding_past (by omega), sumOf_deferred plain]
    exact one single
  · rw [if_neg single]
    have enough := covered single
    split
    next partition here =>
      rw [outstanding, sumOf_drop here] at enough
      rw [outstanding]
      omega
    next outside =>
      have past := getElem?_eq_none_iff.mp outside
      rw [outstanding_past past] at enough
      rw [outstanding_past (Nat.le_succ_of_le past)]
      omega

/-! ## Rounds -/

theorem buildEachRound_outstanding (cfg : Config F) (enabled : s.progressive) :
    (buildEachRound cfg s).outstanding 0 = sumOf Partition.remainingBudget s.partitions := by
  obtain ⟨checkpoint, built, -⟩ := buildEachRound_cases cfg s
  rw [built]
  unfold outstanding
  rw [drop_zero, ← sumOf_add, sumOf_map]
  apply sumOf_congr
  intro partition _
  have bounded := roundShare_le (min cfg.progressiveRoundSize s.phaseRemainingBudget) partition
  change (if s.progressive = true then _ else _) + (if s.progressive = true then _ else _) = _
  rw [if_pos enabled, if_pos enabled]
  exact Nat.add_sub_cancel' bounded

theorem Settled.buildEachRound (settled : Settled cfg s) : Settled cfg (buildEachRound cfg s) := by
  obtain ⟨checkpoint, built, origin⟩ := buildEachRound_cases cfg s
  rw [built]
  refine ⟨settled.within, ?_, settled.started, settled.point, settled.resume⟩
  intro fetched lastCi saved
  rcases origin with rfl | rfl
  · exact settled.saved fetched lastCi saved
  · cases saved
    exact le_rfl

theorem buildEachRound_length (cfg : Config F) (s : ControlState F) :
    (buildEachRound cfg s).partitions.length = s.partitions.length := by
  obtain ⟨checkpoint, built, -⟩ := buildEachRound_cases cfg s
  rw [built, length_map]

theorem buildEachRound_budgetSpent (cfg : Config F) (s : ControlState F) :
    (buildEachRound cfg s).budgetSpent = s.budgetSpent := by
  obtain ⟨checkpoint, built, -⟩ := buildEachRound_cases cfg s
  rw [built]
  rfl

theorem nextRound_funded (settled : Settled cfg s)
    (enabled : s.progressive) (several : s.partitions.length ≠ 1)
    (covered : s.budgetSpent + sumOf Partition.remainingBudget s.partitions ≤ cfg.sampleBudget) :
    Funded cfg (processFirstPartition (buildEachRound cfg s)) ∧
      (processFirstPartition (buildEachRound cfg s)).budgetSpent = s.budgetSpent := by
  rw [← buildEachRound_budgetSpent cfg s, ← buildEachRound_outstanding cfg enabled] at covered
  rw [← buildEachRound_length cfg s] at several
  obtain ⟨within, saved, started, point, resume⟩ := settled.buildEachRound
  obtain ⟨funded, spent⟩ := processPartition_funded
    (s := { buildEachRound cfg s with curPartition := 0, wantPartitionKey := false })
    ⟨within, saved, started, point, resume⟩ (fun _ => several) (fun one => absurd one several)
    (fun _ => covered)
  exact ⟨funded, spent.trans (buildEachRound_budgetSpent cfg s)⟩

theorem resumedRound_funded (settled : Settled cfg s)
    (enabled : s.progressive) (several : s.lastPhase = false → s.partitions.length ≠ 1)
    (covered : s.budgetSpent + sumOf Partition.remainingBudget s.partitions ≤ cfg.sampleBudget) :
    Funded cfg
      { buildEachRound cfg s with curPartition := 0, groupedResumeNextPartition := true } := by
  rw [← buildEachRound_budgetSpent cfg s, ← buildEachRound_outstanding cfg enabled] at covered
  obtain ⟨within, saved, started, point, resume⟩ := settled.buildEachRound
  have open_last : (buildEachRound cfg s).lastPhase = s.lastPhase := by
    obtain ⟨checkpoint, built, -⟩ := buildEachRound_cases cfg s
    rw [built]
  rw [← open_last, ← buildEachRound_length cfg s] at several
  refine ⟨within, saved, .inr started, fun goes _ => several goes, fun scans => ?_,
    fun _ goes _ => ⟨several goes, covered⟩, .inl point⟩
  rw [point] at scans
  cases scans

theorem checkCiAndSwitch_settled (out : Outcome F)
    (settled : Settled cfg s) (enabled : s.progressive)
    (covered : s.budgetSpent + sumOf s.deferred s.partitions ≤ cfg.sampleBudget) :
    Settled cfg (checkCiAndSwitch cfg s out).1 ∧
      (checkCiAndSwitch cfg s out).1.budgetSpent = s.budgetSpent ∧
      (checkCiAndSwitch cfg s out).1.progressive ∧
      (checkCiAndSwitch cfg s out).1.partitions.length = s.partitions.length ∧
      ((checkCiAndSwitch cfg s out).1.lastPhase = false → s.lastPhase = false) ∧
      s.budgetSpent + sumOf Partition.remainingBudget (checkCiAndSwitch cfg s out).1.partitions ≤
        cfg.sampleBudget := by
  have left : sumOf Partition.remainingBudget (useRound s).partitions =
      sumOf s.deferred s.partitions := by
    unfold useRound
    rw [sumOf_map]
    apply sumOf_congr
    intro partition _
    rw [deferred, if_pos enabled]
    dsimp only
    split <;> omega
  have length : (useRound s).partitions.length = s.partitions.length := length_map _
  rw [← left] at covered
  rcases checkCiAndSwitch_cases cfg s out with ends | ⟨lastCi, bad, size, goes⟩ |
    ⟨bad, size, switches⟩
  · rw [ends]
    exact ⟨{ settled with }, rfl, enabled, length, (fun goes => by cases goes), covered⟩
  · rw [goes]
    exact ⟨{ settled with }, rfl, enabled, length, id, covered⟩
  · rw [switches]
    rcases rollbackBadRounds_cases cfg { useRound s with
        progressiveBadRounds := bad, uniformPhaseSampleSize := size } with
      kept | ⟨fetched, lastCi, checkpoint, rolled⟩
    · rw [kept]
      exact ⟨{ settled with }, rfl, enabled, length, id, covered⟩
    · rw [rolled]
      have earlier : fetched ≤ s.totalSamplesFetched := settled.saved fetched lastCi checkpoint
      have same : fetched + (s.discardedProbeSamples + (s.totalSamplesFetched - fetched)) =
          s.budgetSpent := by
        unfold budgetSpent
        omega
      refine ⟨⟨?_, fun _ _ saved => (by cases saved), settled.started, settled.point,
        settled.resume⟩, same, enabled, length, id, covered⟩
      exact (Nat.le_of_eq same).trans settled.within

/-! ## Uniform rounds -/

theorem allocateUniformRound_funded (out : Outcome F)
    (settled : Settled cfg s) (uniform : s.doSwitchToUniform) :
    Settled cfg (allocateUniformRound cfg s out) ∧
      (allocateUniformRound cfg s out).budgetSpent = s.budgetSpent ∧
      (allocateUniformRound cfg s out).progressive = false ∧
      ((allocateUniformRound cfg s out).lastPhase = false →
        Funded cfg (rescan (allocateUniformRound cfg s out))) := by
  have plain : s.progressive = false := by rw [progressive, uniform, Bool.not_true, Bool.and_false]
  rcases allocateUniformRound_cases cfg s out with ⟨left, size, ends⟩ |
    ⟨left, raw, size, goes, -, fits⟩
  · rw [ends]
    exact ⟨{ settled with }, rfl, plain, fun again => by cases again⟩
  · rw [goes]
    refine ⟨{ settled with }, rfl,
      plain, fun _ => ⟨settled.within, settled.saved, .inr settled.started,
        fun _ enabled => absurd (plain.symm.trans enabled) Bool.false_ne_true,
        fun _ => ⟨settled.resume, ?_⟩, (fun calls => by cases calls), .inr rfl⟩⟩
    rw [outstanding_past (by exact Nat.le_refl 1), sumOf_deferred (by exact plain)]
    rw [remainingBudget_eq] at fits
    change s.budgetSpent + size + 0 ≤ cfg.sampleBudget
    have within := settled.within
    omega

theorem enterUniform_funded (out : Outcome F) (settled : Settled cfg s) :
    Settled cfg (enterUniform cfg s out) ∧ (enterUniform cfg s out).budgetSpent = s.budgetSpent ∧
      (enterUniform cfg s out).progressive = false ∧
      ((enterUniform cfg s out).lastPhase = false → Funded cfg (rescan (enterUniform cfg s out))) :=
  allocateUniformRound_funded out { settled with } rfl

theorem approxSumCheckCi_funded (out : Outcome F) (settled : Settled cfg s)
    (several : s.lastPhase = false → s.progressive → s.partitions.length ≠ 1) :
    Funded cfg (approxSumCheckCi cfg s out) ∧
      (approxSumCheckCi cfg s out).budgetSpent = s.budgetSpent := by
  obtain ⟨last, size, partitions, same, kept, length⟩ := approxSumCheckCi_cases cfg s out
  rw [same]
  refine ⟨Settled.funded { settled with } ?_, rfl⟩
  intro goes enabled
  have stillOpen : s.lastPhase = false := by
    cases ended : s.lastPhase with
    | false => rfl
    | true => exact absurd (goes.symm.trans (kept ended)) Bool.false_ne_true
  rw [length]
  exact several stillOpen enabled

/-! ## Steps -/

theorem afterLastPartition_funded (out : Outcome F) (settled : Settled cfg s)
    (several : s.lastPhase = false → s.progressive → s.partitions.length ≠ 1)
    (covered : s.budgetSpent + sumOf s.deferred s.partitions ≤ cfg.sampleBudget) :
    Funded cfg (afterLastPartition cfg s out) ∧
      (afterLastPartition cfg s out).budgetSpent = s.budgetSpent := by
  unfold afterLastPartition
  split
  next enabled =>
    obtain ⟨checked, spent, rounds, length, earlier, left⟩ :=
      checkCiAndSwitch_settled out settled enabled covered
    rw [← spent] at left
    have kept : (checkCiAndSwitch cfg s out).1.lastPhase = false →
        (checkCiAndSwitch cfg s out).1.partitions.length ≠ 1 := fun goes => by
      rw [length]
      exact several (earlier goes) enabled
    obtain ⟨entered, uniformSpent, plain, scans⟩ := enterUniform_funded out checked
    have uniform := entered.funded fun _ again => absurd again (by simp [plain])
    have phaseEnds := approxSumCheckCi_funded out checked fun goes _ => kept goes
    cases cfg.grouped with
    | true =>
      rw [if_pos rfl, afterGroupedRound]
      split
      · exact ⟨uniform, uniformSpent.trans spent⟩
      · split
        · exact ⟨resumedRound_funded checked rounds kept left,
            (buildEachRound_budgetSpent cfg _).trans spent⟩
        · exact ⟨phaseEnds.1, phaseEnds.2.trans spent⟩
    | false =>
      rw [if_neg Bool.false_ne_true, afterRound]
      dsimp only
      split
      · exact ⟨checked.funded fun goes _ => kept goes, spent⟩
      next goes =>
        have stillOpen := eq_false_of_ne_true goes
        split
        · split
          · exact ⟨uniform, uniformSpent.trans spent⟩
          next again => exact ⟨scans (eq_false_of_ne_true again), uniformSpent.trans spent⟩
        · split
          · obtain ⟨funded, same⟩ := nextRound_funded checked rounds (kept stillOpen) left
            exact ⟨funded, same.trans spent⟩
          · exact ⟨phaseEnds.1, phaseEnds.2.trans spent⟩
  next plain =>
    split
    next uniform =>
      obtain ⟨allotted, spent, rounds, scans⟩ := allocateUniformRound_funded out settled uniform
      dsimp only
      split
      · exact ⟨allotted.funded fun _ again =>
          absurd again (by simp [rounds]), spent⟩
      next again =>
        rw [not_or] at again
        exact ⟨scans (eq_false_of_ne_true again.2), spent⟩
    · exact approxSumCheckCi_funded out settled several

theorem afterScan_funded (out : Outcome F) (funded : Funded cfg s) (scans : s.point = .scan) :
    Funded cfg (afterScan cfg s out) ∧ s.budgetSpent ≤ (afterScan cfg s out).budgetSpent := by
  obtain ⟨resume, covered⟩ := funded.scanning scans
  have spent := countSamples_budgetSpent s out.asked
  have started : 0 ≤ s.curPhase := by
    rcases funded.started with rfl | started
    · cases scans
    · exact started
  have settled : Settled cfg (countSamples s out.asked) :=
    ⟨by omega, fun fetched lastCi here =>
      (funded.saved fetched lastCi here).trans (Nat.le_add_right _ _), started, rfl, resume⟩
  have promised : (countSamples s out.asked).budgetSpent +
      (countSamples s out.asked).outstanding (countSamples s out.asked).curPartition ≤
        cfg.sampleBudget := by
    change _ + s.outstanding (s.curPartition + 1) ≤ _
    omega
  unfold afterScan
  dsimp only
  split
  next more =>
    have many : s.partitions.length ≠ 1 := by
      change s.curPartition + 1 < s.partitions.length at more
      omega
    split
    · refine ⟨⟨settled.within, settled.saved, .inr started, fun _ _ => many,
        (fun scans => by cases scans), fun _ _ _ => ⟨many, promised⟩, .inl rfl⟩, ?_⟩
      exact Nat.le.intro spent.symm
    · obtain ⟨next, same⟩ := processPartition_funded settled (fun _ => many)
        (fun one => absurd one many) (fun _ => promised)
      exact ⟨next, by omega⟩
  next done =>
    split
    · refine ⟨Settled.funded
        ⟨settled.within, settled.saved, started, rfl, resume⟩ funded.several, ?_⟩
      exact Nat.le.intro spent.symm
    · rw [outstanding_past (Nat.le_of_not_lt done)] at promised
      obtain ⟨next, same⟩ := afterLastPartition_funded out settled funded.several promised
      exact ⟨next, by omega⟩

theorem plainPhase_funded (settled : Settled cfg s) (plain : s.progressive = false)
    (single : s.partitions.length = 1 → s.budgetSpent + s.curPhaseSampleSize ≤ cfg.sampleBudget)
    (handed : s.budgetSpent + sumOf optSampleSize s.partitions ≤ cfg.sampleBudget) :
    Funded cfg (processFirstPartition s) ∧
      (processFirstPartition s).budgetSpent = s.budgetSpent := by
  have shares : s.allotted = optSampleSize := by
    funext partition
    simp [allotted, plain]
  refine processPartition_funded (s := { s with curPartition := 0, wantPartitionKey := false })
    { settled with }
    (fun enabled => absurd (plain.symm.trans enabled) Bool.false_ne_true) single fun _ => ?_
  change s.budgetSpent + s.outstanding 0 ≤ cfg.sampleBudget
  rw [outstanding, sumOf_deferred plain, drop_zero, shares]
  exact handed

/-- A new phase on strata is funded by the remaining budget that its shares are capped to. -/
theorem stratifiedPhase_funded (out : Outcome F) (settled : Settled cfg s) :
    Funded cfg (stratifiedPhase cfg s out) ∧
      (stratifiedPhase cfg s out).budgetSpent = s.budgetSpent := by
  obtain ⟨last, size, partitions, capped, -, length, shares⟩ := capAllocation_cases cfg s
  have left := remainingBudget_eq cfg s
  unfold stratifiedPhase
  rw [capped]
  dsimp only
  split
  · exact ⟨Settled.funded { settled with } (fun goes => by cases goes), rfl⟩
  next sized =>
    -- A phase that has a size has shares, or it has no partition at all.
    have handed : sumOf optSampleSize partitions ≤ remainingBudget cfg s := by
      by_cases empty : s.partitions = []
      · rw [empty, length_nil, length_eq_zero_iff] at length
        rw [length]
        exact Nat.zero_le _
      · rw [((shares sized).2 empty).1]
        exact ((shares sized).2 empty).2
    have single : partitions.length = 1 → size ≤ remainingBudget cfg s := fun one =>
      ((shares sized).2 fun empty => by
        rw [empty, one] at length
        cases length).2
    have within := settled.within
    split
    next rounds =>
      split
      · exact ⟨Settled.funded { settled with } (fun goes => by cases goes), rfl⟩
      next =>
        split
        next large =>
          refine nextRound_funded (s := initCurrentPhase cfg _) { settled with } ?_ ?_ ?_
          · exact Bool.and_eq_true_iff.mpr ⟨large, by
              rw [rounds.2.2]
              rfl⟩
          · change (partitions.map _).length ≠ 1
            rw [length_map]
            omega
          · change s.budgetSpent + sumOf Partition.remainingBudget (partitions.map _) ≤ _
            rw [sumOf_map]
            change s.budgetSpent + sumOf optSampleSize partitions ≤ _
            omega
        next small =>
          refine plainPhase_funded { settled with } ?_ (fun one => ?_) ?_
          · rw [progressive, eq_false_of_ne_true small, Bool.false_and]
          · have fits := single one
            change s.budgetSpent + size ≤ cfg.sampleBudget
            omega
          · change s.budgetSpent + sumOf optSampleSize partitions ≤ _
            omega
    next =>
      refine plainPhase_funded { settled with }
        rfl (fun one => ?_) ?_
      · have fits := single one
        change s.budgetSpent + size ≤ cfg.sampleBudget
        omega
      · change s.budgetSpent + sumOf optSampleSize partitions ≤ _
        omega

theorem unstratifiedPhase_funded (settled : Settled cfg s) :
    Funded cfg (unstratifiedPhase cfg s) := by
  refine ⟨settled.within, settled.saved, .inr settled.started, (fun goes => by cases goes),
    fun _ => ⟨settled.resume, ?_⟩, (fun calls => by cases calls), .inr rfl⟩
  have nothing : (unstratifiedPhase cfg s).outstanding 1 = 0 := by
    rw [outstanding_past (Nat.le_refl 1)]
    change (if s.progressive = true then 0 - 0 else 0) + 0 = 0
    split <;> rfl
  change s.budgetSpent + remainingBudget cfg s + (unstratifiedPhase cfg s).outstanding 1 ≤ _
  have within := settled.within
  rw [nothing, remainingBudget_eq]
  omega

theorem enterPhase_funded (settled : Settled cfg s) (enters : enterPhase cfg s out = some next) :
    Funded cfg next ∧ next.budgetSpent = s.budgetSpent := by
  unfold enterPhase at enters
  split at enters
  · cases enters
    exact ⟨Settled.funded { settled with } (fun goes => by cases goes), rfl⟩
  · obtain ⟨targeted, target, rfl⟩ := map_eq_some_iff.mp enters
    have fixed : ∃ err0, targeted = { s with curPhase := s.curPhase + 1, err0 := err0 } := by
      unfold setTarget at target
      split at target
      · obtain ⟨-, ⟨⟩⟩ := ite_none_left_eq_some.mp target
        exact ⟨_, rfl⟩
      · cases target
        exact ⟨_, rfl⟩
    obtain ⟨err0, rfl⟩ := fixed
    have entered : Settled cfg { s with curPhase := s.curPhase + 1, err0 := err0 } :=
      ⟨settled.within, settled.saved, Int.le_add_one settled.started, settled.point, settled.resume⟩
    split
    · exact ⟨unstratifiedPhase_funded entered, rfl⟩
    · split
      · exact stratifiedPhase_funded out
          ⟨settled.within, settled.saved, entered.started, settled.point, settled.resume⟩
      · exact stratifiedPhase_funded out entered

/-! ## The initial phase -/

/-- While candidate plans are tried, the guard of the loop still covers those that are left. -/
structure Probing (cfg : Config F) (s : ControlState F) : Prop where
  point : s.point = .probed ∨ s.point = .probe ∧ s.choice.tried < cfg.dpCandidateCount ∧
    s.sampleSize = cfg.initialPhaseSampleSize ∧ s.totalSamplesFetched = 0
  started : 0 ≤ s.curPhase
  unsaved : s.progressiveBadCheckpoint = none
  plain : s.progressive = false
  resume : s.groupedResumeNextPartition = false
  undiscarded : s.discardedProbeSamples = 0
  counted : s.totalSamplesFetched ≤ s.choice.totalProbeSamples
  kept : ∀ best ∈ s.choice.best, best.2.1 ≤ s.choice.totalProbeSamples
  guard : s.choice.totalProbeSamples +
    (cfg.dpCandidateCount - s.choice.tried) * cfg.initialPhaseSampleSize ≤ cfg.sampleBudget

omit [Float8 F] in
theorem Probing.budgetSpent_le (probing : Probing cfg s) :
    s.budgetSpent ≤ s.choice.totalProbeSamples := by
  rw [budgetSpent, probing.undiscarded]
  exact probing.counted

theorem Probing.probePlan (probing : Probing cfg s) (more : s.choice.tried < cfg.dpCandidateCount) :
    Probing cfg (probePlan cfg s) :=
  { probing with point := .inr ⟨rfl, more, rfl, rfl⟩, counted := Nat.zero_le _ }

/-- A candidate plan takes its part of what the guard holds back. -/
theorem Probing.afterProbe (out : Outcome F) (probing : Probing cfg s) (probes : s.point = .probe) :
    Probing cfg (afterProbe cfg s out) ∧ s.budgetSpent = 0 := by
  obtain ⟨-, more, sized, reset⟩ := probing.point.resolve_left (by simp [probes])
  refine ⟨?_, by rw [budgetSpent, reset, probing.undiscarded]⟩
  obtain ⟨counted, nintvls, err0, partitions, size, best, same, counts, keeps⟩ :=
    afterProbe_cases cfg s out
  have part := Nat.le_add_left (min s.sampleSize out.asked) s.choice.totalProbeSamples
  rw [same]
  refine { probing with point := .inl rfl, counted := ?_, kept := ?_, guard := ?_ }
  · change counted ≤ _
    rcases counts with rfl | rfl
    · exact probing.counted.trans (Nat.le_add_right _ _)
    · exact part
  · intro plan isBest
    rcases keeps with rfl | ⟨score, rfl⟩
    · exact (probing.kept plan isBest).trans (Nat.le_add_right _ _)
    · cases mem_some_iff.mp isBest
      exact part
  · have guard := probing.guard
    have split : cfg.dpCandidateCount - s.choice.tried =
        cfg.dpCandidateCount - (s.choice.tried + 1) + 1 := by omega
    rw [split, Nat.succ_mul] at guard
    change s.choice.totalProbeSamples + min s.sampleSize out.asked +
      (cfg.dpCandidateCount - (s.choice.tried + 1)) * cfg.initialPhaseSampleSize ≤ _
    omega

theorem choosePlan_funded (probing : Probing cfg s) (chooses : choosePlan cfg s = some next) :
    Funded cfg next ∧ next.budgetSpent = s.choice.totalProbeSamples := by
  obtain ⟨⟨score, fetched, nintvls⟩, isBest, rfl⟩ := map_eq_some_iff.mp chooses
  have kept : fetched ≤ s.choice.totalProbeSamples := probing.kept _ isBest
  have guard := probing.guard
  have spent : fetched + (if s.choice.totalProbeSamples > fetched then
      s.discardedProbeSamples + (s.choice.totalProbeSamples - fetched)
    else s.discardedProbeSamples) = s.choice.totalProbeSamples := by
    rw [probing.undiscarded]
    split <;> omega
  refine ⟨Settled.funded ⟨(spent.trans_le ?_ : _ ≤ _), fun _ _ saved => ?_, Int.le_refl 0, rfl,
    probing.resume⟩ (fun _ enabled => absurd (probing.plain.symm.trans enabled) Bool.false_ne_true),
    spent⟩
  · omega
  · cases probing.unsaved.symm.trans saved

theorem firstScan_funded (clean : s.budgetSpent = 0)
    (unsaved : s.progressiveBadCheckpoint = none) (first : s.curPhase = 0)
    (plain : s.progressive = false) (resume : s.groupedResumeNextPartition = false)
    (scans : s.point = .scan) (one : s.partitions.length ≤ s.curPartition + 1)
    (fits : s.sampleSize ≤ cfg.sampleBudget) : Funded cfg s where
  within := by omega
  saved := fun _ _ saved => by
    rw [unsaved] at saved
    cases saved
  started := .inr (Int.le_of_eq first.symm)
  several := fun _ enabled => absurd enabled (by simp [plain])
  scanning := fun _ => ⟨resume, by
    rw [outstanding_past one, sumOf_deferred plain]
    omega⟩
  resuming := fun calls => by
    rw [scans] at calls
    cases calls
  chosen := .inr scans

theorem initialPhase_funded (fits : cfg.initialPhaseSampleSize ≤ cfg.sampleBudget)
    (enters : initialPhase cfg begin = some next) : Funded cfg next ∨ Probing cfg next := by
  unfold initialPhase at enters
  split at enters
  · split at enters
    · cases enters
    next guard =>
      cases enters
      have some : 0 < cfg.dpCandidateCount := by omega
      have guard : 0 + (cfg.dpCandidateCount - 0) * cfg.initialPhaseSampleSize ≤ cfg.sampleBudget := by
        rw [Nat.zero_add, Nat.sub_zero, Nat.mul_comm, ← Nat.le_div_iff_mul_le some]
        omega
      exact .inr ⟨.inr ⟨rfl, some, rfl, rfl⟩, Int.le_refl 0, rfl, rfl, rfl, rfl, Nat.le_refl 0,
        (fun best isBest => by cases isBest), guard⟩
  · cases enters
    refine .inl ?_
    cases cfg.emptyres with
    | true =>
      cases cfg.doPswr <;>
        exact firstScan_funded rfl rfl rfl rfl rfl rfl (Nat.zero_le _) (Nat.zero_le _)
    | false =>
      cases cfg.doPswr <;>
        exact firstScan_funded rfl rfl rfl rfl rfl rfl (Nat.le_refl 1) fits

/-! ## Runs -/

theorem begin_funded (cfg : Config F) : Funded cfg begin where
  within := Nat.zero_le _
  saved := fun _ _ saved => by cases saved
  started := .inl rfl
  several := fun _ enabled => by cases enabled
  scanning := fun scans => by cases scans
  resuming := fun _ _ resumes => by cases resumes
  chosen := .inl rfl

theorem Probing.exec (probing : Probing cfg s) (steps : exec cfg s out = some next) :
    (Funded cfg next ∨ Probing cfg next) ∧
      (s.budgetSpent ≤ next.budgetSpent ∨ s.point = .probed ∧ next.point = .probe) := by
  unfold Progressive.exec at steps
  rcases probing.point with probed | ⟨probes, -⟩
  · rw [probed] at steps
    dsimp only at steps
    unfold nextPlan at steps
    split at steps
    next more =>
      cases steps
      exact ⟨.inr (probing.probePlan more), .inr ⟨probed, rfl⟩⟩
    · obtain ⟨funded, spent⟩ := choosePlan_funded probing steps
      exact ⟨.inl funded, .inl (probing.budgetSpent_le.trans spent.ge)⟩
  · rw [probes] at steps
    cases steps
    obtain ⟨kept, none⟩ := probing.afterProbe out probes
    exact ⟨.inr kept, .inl (none.trans_le (Nat.zero_le _))⟩

theorem Funded.exec (fits : cfg.initialPhaseSampleSize ≤ cfg.sampleBudget) (funded : Funded cfg s)
    (steps : exec cfg s out = some next) :
    (Funded cfg next ∨ Probing cfg next) ∧ s.budgetSpent ≤ next.budgetSpent := by
  unfold Progressive.exec at steps
  rcases funded.chosen with calls | scans
  · rw [calls] at steps
    dsimp only at steps
    split at steps
    · cases steps
      exact ⟨.inl funded, le_rfl⟩
    next goes =>
      have stillOpen := eq_false_of_ne_true goes
      split at steps
      next resumes =>
        cases steps
        obtain ⟨many, covered⟩ := funded.resuming calls stillOpen resumes
        have started : 0 ≤ s.curPhase := by
          rcases funded.started with rfl | started
          · cases resumes
          · exact started
        obtain ⟨next, spent⟩ := processPartition_funded
          (s := { s with groupedResumeNextPartition := false, wantPartitionKey := false })
          ⟨funded.within, funded.saved, started, calls, rfl⟩ (fun _ => many)
          (fun one => absurd one many) (fun _ => covered)
        exact ⟨.inl next, spent.symm.le⟩
      next fresh =>
        split at steps
        next first =>
          rcases funded.started with rfl | started
          · exact ⟨initialPhase_funded fits steps, Nat.zero_le _⟩
          · omega
        next later =>
          rcases funded.started with rfl | started
          · exact absurd rfl later
          · obtain ⟨entered, spent⟩ := enterPhase_funded
              ⟨funded.within, funded.saved, started, calls, eq_false_of_ne_true fresh⟩
              steps
            exact ⟨.inl entered, spent.symm.le⟩
  · rw [scans] at steps
    cases steps
    obtain ⟨kept, spent⟩ := afterScan_funded out funded scans
    exact ⟨.inl kept, spent⟩

/-- In every run whose initial phase fits the budget, the budget spent stays within the
sample budget, and no step takes anything back but the change to the next candidate plan. -/
theorem budget_never_exceeded (cfg : Config F)
    (fits : cfg.initialPhaseSampleSize ≤ cfg.sampleBudget) (outcomes : List (Outcome F))
    (s : ControlState F)
    (reached : Library.Run.run (exec cfg) ControlState.begin outcomes = some s) :
    s.budgetSpent ≤ cfg.sampleBudget ∧
      ∀ out next, exec cfg s out = some next →
        s.budgetSpent ≤ next.budgetSpent ∨ s.point = .probed ∧ next.point = .probe := by
  have sound : Funded cfg s ∨ Probing cfg s := by
    refine Library.Run.invariant (fun s => Funded cfg s ∨ Probing cfg s) (fun kept _ steps => ?_)
      (.inl (begin_funded cfg)) (Library.Run.meets_unguarded _ _ _) reached
    rcases kept with funded | probing
    · exact (funded.exec fits steps).1
    · exact (probing.exec steps).1
  rcases sound with funded | probing
  · exact ⟨funded.within, fun out next steps => .inl (funded.exec fits steps).2⟩
  · exact ⟨probing.budgetSpent_le.trans (Nat.le_of_add_right_le probing.guard),
      fun out next steps => (probing.exec steps).2⟩

def smallBudget : Config ℚ where
  sampleBudget := 400
  initialPhaseSampleSize := 30
  progressiveRoundSize := 10
  relativeCi := 1 / 10
  emptyres := false
  grouped := false
  doPswr := true
  doProgressiveSampling := true
  choosesPlan := false
  dpCandidateCount := 2

/-- Every scan is driven to its end, and the interval never shrinks. -/
def stalledOutcome : Outcome ℚ where
  asked := 1000
  returned := true
  nintvls := 2
  muTotal := 100
  currentCi := 50
  allocation := ⟨[(150, 1 / 2), (150, 1 / 2)], 300, fun _ => cons_ne_nil _ _⟩
  uniformEstimate := 100
  nextSampleSize := none

/-- Three bad rounds of 60 samples are rolled back, and uniform sampling goes on. -/
theorem stalled_rolls_back : (Library.Run.last (exec smallBudget) ControlState.begin
      (List.replicate 10 stalledOutcome)).discardedProbeSamples = 180 ∧
    (Library.Run.last (exec smallBudget) ControlState.begin
      (List.replicate 10 stalledOutcome)).budgetSpent ≤ smallBudget.sampleBudget :=
  ⟨by decide +kernel, (budget_never_exceeded smallBudget (by decide) _ _
      (Library.Run.run_last (by decide +kernel))).1⟩

/-- Of two candidate plans the second one starts with the counter at zero again; all 60 samples
are counted when a plan is chosen. -/
theorem second_candidate_resets :
    ((List.range 6).map fun steps =>
      (Library.Run.run (exec { smallBudget with choosesPlan := true }) ControlState.begin
        (List.replicate steps stalledOutcome)).map ControlState.budgetSpent) =
      [some 0, some 0, some 30, some 0, some 30, some 60] := by
  decide +kernel

/-! ## Shares of a capped phase

`aqp_pswr_cap_allocation_to_remaining_budget` hands a phase out from its last
partition to its first.  The samples that the partitions before still need are
kept back, so that a phase of 30 samples per partition gives every partition
that proposed something its 30 samples.  The percentages may be anything.
-/

section

variable {F : Type}

def Capped (enforceMinSample : Bool) (proposed given : Partition F) : Prop :=
  (proposed.optSampleSize = 0 → given.optSampleSize = 0) ∧
    (enforceMinSample = true → 0 < proposed.optSampleSize → 30 ≤ given.optSampleSize)

theorem activePartitions_le (partitions : List (Partition F)) :
    activePartitions partitions ≤ partitions.length := by
  induction partitions with
  | nil => exact Nat.le_refl 0
  | cons partition pre ih =>
    rw [activePartitions, length_cons]
    split <;> omega

variable [Float8 F]

theorem cappedSize_ge (phaseSize : Nat) (percent : F) (enough : leastBefore + 30 ≤ left) :
    30 ≤ cappedSize phaseSize left leastBefore true percent ∧
      cappedSize phaseSize left leastBefore true percent + leastBefore ≤ left := by
  unfold cappedSize
  dsimp only
  generalize Float8.ceil ((phaseSize : F) * percent) = wanted
  grind

theorem capLoop_capped (partitions : List (Partition F))
    (enough : enforceMinSample = true → taken + 30 * activePartitions partitions ≤ phaseSize) :
    Forall₂ (Capped enforceMinSample) partitions
      (capLoop phaseSize enforceMinSample taken partitions).1 := by
  induction partitions generalizing taken with
  | nil => exact .nil
  | cons partition pre ih =>
    unfold capLoop
    dsimp only
    by_cases none : partition.optSampleSize = 0
    · rw [activePartitions, none] at enough
      rw [if_pos (.inr none)]
      exact .cons ⟨fun _ => rfl, fun _ some => by omega⟩ (ih (by simpa using enough))
    · rw [activePartitions, if_pos (Nat.pos_of_ne_zero none)] at enough
      generalize share : (if phaseSize - taken = 0 ∨ partition.optSampleSize = 0 then 0
        else cappedSize phaseSize (phaseSize - taken) (30 * activePartitions pre)
          enforceMinSample partition.optSamplePercent) = size
      have least : enforceMinSample →
          30 ≤ size ∧ size + 30 * activePartitions pre ≤ phaseSize - taken := by
        intro enforced
        subst enforced share
        have room := enough rfl
        rw [if_neg (by omega)]
        exact cappedSize_ge phaseSize _ (by omega)
      refine .cons ⟨fun same => absurd same none, fun enforced _ => (least enforced).1⟩ (ih ?_)
      intro enforced
      have := least enforced
      omega

/-- The shares of a capped phase sum to the size that it records, within the remaining
budget; what proposed nothing gets nothing, and with 30 samples for each partition every
proposal gets 30. -/
theorem capAllocation_shares (cfg : Config F) (s : ControlState F)
    (several : 2 ≤ s.partitions.length)
    (sized : s.curPhaseSampleSize = 0 → sumOf Partition.optSampleSize s.partitions = 0)
    (left : 0 < remainingBudget cfg s) :
    sumOf Partition.optSampleSize (capAllocationToRemainingBudget cfg s).partitions =
        (capAllocationToRemainingBudget cfg s).curPhaseSampleSize ∧
      (capAllocationToRemainingBudget cfg s).curPhaseSampleSize ≤ remainingBudget cfg s ∧
      Forall₂ (Capped (decide (30 * s.partitions.length ≤ remainingBudget cfg s)))
        s.partitions (capAllocationToRemainingBudget cfg s).partitions := by
  by_cases empty : s.curPhaseSampleSize = 0
  · have same : capAllocationToRemainingBudget cfg s = s := if_pos (.inr empty)
    rw [same, empty, sized empty]
    refine ⟨rfl, Nat.zero_le _, forall₂_same.mpr fun p mem => ⟨id, fun _ some => ?_⟩⟩
    have small : p.optSampleSize ≤ sumOf Partition.optSampleSize s.partitions := le_sumOf mem
    rw [sized empty] at small
    omega
  · unfold capAllocationToRemainingBudget
    dsimp only
    rw [if_neg (by omega), if_neg (by omega), if_neg (by omega)]
    generalize phase : (if min s.curPhaseSampleSize (remainingBudget cfg s) <
        30 * s.partitions.length then min (30 * s.partitions.length) (remainingBudget cfg s)
      else min s.curPhaseSampleSize (remainingBudget cfg s)) = size
    have within : size ≤ remainingBudget cfg s := by grind
    have enforced : 30 * s.partitions.length ≤ size ↔
        30 * s.partitions.length ≤ remainingBudget cfg s := by grind
    obtain ⟨counted, total, -⟩ := capLoop_spec size (decide (size ≥ 30 * s.partitions.length)) 0
      s.partitions.reverse (Nat.zero_le _)
    refine ⟨?_, total.trans within, ?_⟩
    · rw [sumOf_reverse, counted, Nat.zero_add]
    · rw [← forall₂_reverse_iff, reverse_reverse, ← decide_eq_decide.mpr enforced]
      apply capLoop_capped
      intro enforced
      have active := activePartitions_le s.partitions.reverse
      rw [length_reverse] at active
      have := of_decide_eq_true enforced
      omega

def threeStrata : ControlState ℚ :=
  { ControlState.begin with
    partitions := [⟨40, 4 / 5, 0, 0⟩, ⟨0, 0, 0, 0⟩, ⟨10, 1 / 5, 0, 0⟩]
    curPhaseSampleSize := 50 }

theorem threeStrata_capped :
    (capAllocationToRemainingBudget smallBudget threeStrata).partitions.map (·.optSampleSize) =
        [60, 0, 30] ∧
      Forall₂ (Capped true) threeStrata.partitions
        (capAllocationToRemainingBudget smallBudget threeStrata).partitions :=
  ⟨by decide +kernel, (capAllocation_shares smallBudget threeStrata (by decide)
    (fun none => absurd none (by decide)) (by decide)).2.2⟩

end

end PgAqp.Progressive
