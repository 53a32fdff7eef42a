import PgAqp.Library.Moments

/-!
# Estimates of a partition

`aqp_approx_sum_internal_accum` takes the accepted samples of a scan one by one,
and `aqp_approx_sum_transstate_finalize` adds a zero for each rejected one.  Both
continue what earlier rounds left, except with groups.  `remove_var` takes a prefix out of the
statistics again; it prices the intervals of a stratification.
-/

namespace PgAqp.Progressive

open List Library

/-- `n_part`, `mu_part` and `var_part` of one partition. -/
structure PartStats where
  n : Nat
  mu : ℚ
  var : ℚ
  deriving DecidableEq

/-- A difference of unsigned words of `bits` bits. -/
def wordSub (bits first second : Nat) : Nat :=
  if first < second then 2 ^ bits + first - second else first - second

def PartStats.accum (leafPage : Bool) (s : PartStats) (x : ℚ) : PartStats :=
  let n := s.n + 1
  let tmp := x - s.mu
  { n := n
    var := if leafPage then 0 else tmp * tmp / (n * n) + wordSub 32 n 2 / n * s.var
    mu := ((n - 1 : Nat) * s.mu + x) / n }

/-- One turn of the loop over the rejected samples. -/
def PartStats.addZero (leafPage : Bool) (s : PartStats) : PartStats :=
  let n := s.n + 1
  { n := n
    var := if leafPage then 0 else s.mu * s.mu / (n * n) + wordSub 64 n 2 / n * s.var
    mu := (n - 1 : Nat) / n * s.mu }

/-- A call of the transition function; a rejected sample returns at once. -/
def accumSample (leafPage : Bool) : PartStats × Nat → Option ℚ → PartStats × Nat
  | state, none => state
  | (s, n), some x => (s.accum leafPage x, n + 1)

/-- The scan of a partition in one round: the transition function counts the accepted
samples in `n`, which `aqp_approx_sum_transstate_reset_partition` has set to zero.  With groups
it starts from a new copy of the template, with zeros for each partition, and every sample of
another group is one that the group did not accept.  There is no result where a counter wraps:
`n_part` has 32 bits, and the loop over the rejected samples counts in an `int`. -/
def scanPartition (grouped leafPage : Bool) (s : PartStats) (samples : List (Option ℚ)) :
    Option PartStats :=
  let start := if grouped then ⟨0, 0, 0⟩ else s
  let accumulated := samples.foldl (accumSample leafPage) (start, 0)
  let rejected := samples.length - accumulated.2
  if start.n + samples.length < 4294967296 ∧ rejected < 2147483648 then
    some ((PartStats.addZero leafPage)^[rejected] accumulated.1)
  else none

/-! ## What the estimates stand for -/

/-- A rejected sample contributes zero. -/
def valueOf (sample : Option ℚ) : ℚ := sample.getD 0

/-- The estimates of the values seen so far.  The variance of one value is not used. -/
structure PartStats.Tracks (s : PartStats) (xs : List ℚ) : Prop where
  count : s.n = xs.length
  mean : s.mu = mean xs
  empty : xs = [] → s.var = 0
  var : 2 ≤ xs.length → s.var = meanVar xs

variable {s : PartStats} {xs : List ℚ}

theorem PartStats.Tracks.perm (tracks : s.Tracks xs) (same : xs.Perm ys) : s.Tracks ys where
  count := tracks.count.trans same.length_eq
  mean := tracks.mean.trans (mean_perm same)
  empty := fun none => tracks.empty (perm_nil.mp (none ▸ same))
  var := fun two => (tracks.var (same.length_eq ▸ two)).trans (meanVar_perm same)

/-- Whatever the factor of an empty variance wraps to, it is not seen. -/
theorem PartStats.Tracks.concat (tracks : s.Tracks xs) (x : ℚ) (bits : Nat)
    (isVar : newVar = (x - s.mu) ^ 2 / (s.n + 1) ^ 2 +
      (wordSub bits (s.n + 1) 2 : ℚ) / (s.n + 1) * s.var)
    (isMu : newMu = (s.n * s.mu + x) / (s.n + 1)) :
    PartStats.Tracks ⟨s.n + 1, newMu, newVar⟩ (xs ++ [x]) where
  count := by rw [length_append, length_singleton, tracks.count]
  mean := by rw [isMu, tracks.mean, tracks.count, mean_concat]
  empty := fun none => absurd none (append_ne_nil_of_right_ne_nil _ (cons_ne_nil _ _))
  var := by
    intro two
    rw [length_append, length_singleton] at two
    have some : xs ≠ [] := length_pos_iff.mp (by omega)
    have factor : (wordSub bits (xs.length + 1) 2 : ℚ) = xs.length - 1 := by
      rw [wordSub, if_neg (by omega), Nat.succ_sub_succ, Nat.cast_sub (by omega), Nat.cast_one]
    rw [isVar, tracks.mean, tracks.count, factor, meanVar_concat x some]
    rcases Nat.lt_or_ge xs.length 2 with one | several
    · rw [show xs.length = 1 by omega]
      simp
    · rw [tracks.var several]

theorem accum_tracks (tracks : s.Tracks xs) (x : ℚ) : (s.accum false x).Tracks (xs ++ [x]) :=
  tracks.concat x 32 (by simp [pow_two]) (by simp)

theorem addZero_tracks (tracks : s.Tracks xs) : (s.addZero false).Tracks (xs ++ [0]) :=
  tracks.concat 0 64 (by simp [pow_two]) (by simp; ring)

theorem addZeros_tracks (tracks : s.Tracks xs) (count : Nat) :
    ((PartStats.addZero false)^[count] s).Tracks (xs ++ replicate count 0) := by
  induction count generalizing s xs with
  | zero => simpa using tracks
  | succ count ih =>
    rw [Function.iterate_succ_apply]
    simpa [replicate_succ] using ih (addZero_tracks tracks)

theorem accumSamples_tracks (tracks : s.Tracks xs) (samples : List (Option ℚ)) (n : Nat) :
    (samples.foldl (accumSample false) (s, n)).1.Tracks (xs ++ samples.filterMap id) ∧
      (samples.foldl (accumSample false) (s, n)).2 = n + (samples.filterMap id).length := by
  induction samples generalizing s xs n with
  | nil => simpa using tracks
  | cons sample rest ih =>
    cases sample with
    | none => simpa [accumSample] using ih tracks n
    | some x =>
      obtain ⟨kept, counted⟩ := ih (accum_tracks tracks x) (n + 1)
      refine ⟨by simpa [accumSample] using kept, ?_⟩
      simp only [foldl_cons, accumSample, counted, filterMap_cons, id, length_cons]
      omega

theorem accepted_then_zeros (samples : List (Option ℚ)) :
    (samples.filterMap id ++ replicate (samples.length - (samples.filterMap id).length) 0).Perm
      (samples.map valueOf) := by
  induction samples with
  | nil => exact .nil
  | cons sample rest ih =>
    have fewer : (rest.filterMap id).length ≤ rest.length := length_filterMap_le _ _
    cases sample with
    | none =>
      rw [filterMap_cons_none rfl, length_cons, map_cons, Nat.succ_sub fewer, replicate_succ]
      exact perm_middle.trans (ih.cons 0)
    | some x =>
      rw [filterMap_cons_some (rfl : id (some x) = _), length_cons, length_cons, map_cons,
        Nat.add_sub_add_right]
      exact ih.cons x

theorem scanPartition_tracks (tracks : s.Tracks xs) (samples : List (Option ℚ))
    (fits : xs.length + samples.length < 4294967296)
    (rejected : samples.length - (samples.filterMap id).length < 2147483648) :
    ∃ t, scanPartition false false s samples = some t ∧ t.Tracks (xs ++ samples.map valueOf) := by
  obtain ⟨kept, counted⟩ := accumSamples_tracks tracks samples 0
  rw [Nat.zero_add] at counted
  have padded := addZeros_tracks kept (samples.length - (samples.filterMap id).length)
  rw [append_assoc] at padded
  rw [← counted] at padded rejected
  rw [← tracks.count] at fits
  exact ⟨_, if_pos ⟨fits, rejected⟩,
    padded.perm (counted ▸ (accepted_then_zeros samples).append_left xs)⟩

theorem rounds_tracks (tracks : s.Tracks xs) (rounds : List (List (Option ℚ)))
    (fits : xs.length + rounds.flatten.length < 4294967296)
    (rejected : ∀ samples ∈ rounds, samples.length - (samples.filterMap id).length < 2147483648) :
    ∃ t, rounds.foldlM (scanPartition false false) s = some t ∧
      t.Tracks (xs ++ rounds.flatten.map valueOf) := by
  induction rounds generalizing s xs with
  | nil => exact ⟨s, rfl, by simpa using tracks⟩
  | cons samples rest ih =>
    rw [flatten_cons, length_append] at fits
    obtain ⟨next, scanned, kept⟩ :=
      scanPartition_tracks tracks samples (by omega) (rejected _ mem_cons_self)
    obtain ⟨last, ends, all⟩ := ih kept (by rw [length_append, length_map]; omega)
      fun samples later => rejected _ (mem_cons_of_mem _ later)
    refine ⟨last, ?_, by simpa [append_assoc] using all⟩
    rw [foldlM_cons, scanned]
    exact ends

theorem empty_tracks : (PartStats.mk 0 0 0).Tracks [] :=
  ⟨rfl, by simp [mean], fun _ => rfl, fun two => absurd two (by simp)⟩

def removeVar (n3 : Nat) (mu3 var3 : ℚ) (n1 : Nat) (mu1 var1 : ℚ) : ℚ :=
  let n2 : ℚ := n3 - n1
  let tmp := mu1 - (mu3 * n3 - mu1 * n1) / n2
  let Sxx2 := var3 * n3 * (n3 - 1 : Nat) - var1 * n1 * (n1 - 1 : Nat) - n1 * n2 * tmp * tmp / n3
  Sxx2 / (n2 * (n2 - 1))

/-- What a stratification pays for the samples between two prefixes, out of `total`. -/
def segmentCost (sqrt : ℚ → ℚ) (total : Nat) (upper lower : PartStats) : ℚ :=
  let n : ℚ := upper.n - lower.n
  sqrt (removeVar upper.n upper.mu upper.var lower.n lower.mu lower.var * n) * (n / total)

def statsOf (xs : List ℚ) : PartStats := ⟨xs.length, mean xs, meanVar xs⟩

theorem length_append_sub (xs ys : List ℚ) : ((xs ++ ys).length : ℚ) - xs.length = ys.length := by
  rw [length_append, Nat.cast_add, add_sub_cancel_left]

theorem PartStats.Tracks.squares (tracks : s.Tracks xs) :
    s.var * s.n * (s.n - 1 : Nat) = squares xs := by
  match xs with
  | [] => rw [tracks.count]; simp [squares_nil]
  | [x] => rw [tracks.count]; simp [Library.squares, deviations, Library.mean]
  | x :: y :: rest =>
    rw [tracks.var (by simp), tracks.count, squares_eq_meanVar, Nat.cast_sub (by simp), Nat.cast_one]

theorem statsOf_tracks (xs : List ℚ) : (statsOf xs).Tracks xs :=
  ⟨rfl, rfl, fun none => by simp [statsOf, meanVar, none], fun _ => rfl⟩

section

variable {upper lower : PartStats} {segment : List ℚ}

theorem removeVar_tracks (whole : upper.Tracks (pre ++ segment)) (first : lower.Tracks pre)
    (two : 2 ≤ segment.length) : removeVar upper.n upper.mu upper.var lower.n lower.mu lower.var =
      meanVar segment := by
  have positive : (0 : ℚ) < segment.length := by
    have : 0 < segment.length := by omega
    positivity
  have rest : mean (pre ++ segment) * (pre ++ segment).length -
      mean pre * pre.length = mean segment * segment.length := by
    have means := length_mul_mean_append pre segment
    rw [length_append, Nat.cast_add]
    linarith
  rw [removeVar, whole.squares, first.squares, whole.count, first.count, whole.mean, first.mean]
  simp only [rest, length_append_sub]
  rw [mul_div_cancel_right₀ _ positive.ne', meanVar]
  rcases eq_or_ne pre [] with rfl | some
  · simp [squares_nil]
  rw [squares_append some, length_append, Nat.cast_add]
  congr 1
  ring

theorem segmentCost_tracks (whole : upper.Tracks (pre ++ segment)) (first : lower.Tracks pre)
    (two : 2 ≤ segment.length) (sqrt : ℚ → ℚ) (total : Nat) : segmentCost sqrt total upper lower =
      sqrt (meanVar segment * segment.length) * (segment.length / total) := by
  rw [segmentCost, removeVar_tracks whole first two, whole.count, first.count, length_append_sub]

end

/-- Without its prefix, a list has the variance of the rest.  So the cost of a segment is a
function of the samples in it, scaled by the number of all samples. -/
theorem removeVar_append (pre segment : List ℚ) (_ : pre ≠ []) (two : 2 ≤ segment.length) :
    removeVar (statsOf (pre ++ segment)).n (statsOf (pre ++ segment)).mu
        (statsOf (pre ++ segment)).var (statsOf pre).n (statsOf pre).mu
        (statsOf pre).var = meanVar segment ∧
      ∀ (sqrt : ℚ → ℚ) (total : Nat),
        segmentCost sqrt total (statsOf (pre ++ segment)) (statsOf pre) =
          sqrt (meanVar segment * segment.length) * (segment.length / total) :=
  ⟨removeVar_tracks (statsOf_tracks _) (statsOf_tracks _) two,
    segmentCost_tracks (statsOf_tracks _) (statsOf_tracks _) two⟩

theorem removeVar_three_values :
    statsOf [1, 2, 6] = ⟨3, 3, 7 / 3⟩ ∧ removeVar 3 3 (7 / 3) 1 1 0 = meanVar [2, 6] :=
  ⟨by decide +kernel, (by decide +kernel : _ = removeVar 3 3 (7 / 3) 1 1 0).symm.trans
    (removeVar_append [1] [2, 6] (by decide) (by decide)).1⟩

/-! ## Prefixes of a descent -/

/-- The array `ps` that `aqp_continue_descent_dp` fills from the estimates of the new
partitions. -/
def prefixStats (parts : Nat → PartStats) : Nat → PartStats
  | 0 => ⟨0, 0, 0⟩
  | i + 1 => ⟨(prefixStats parts i).n + (parts i).n, (parts i).mu, (parts i).var⟩

/-- The samples of the partitions from `i` up to `j`. -/
def between (samples : Nat → List ℚ) (i j : Nat) : List ℚ := (range' i (j - i)).flatMap samples

theorem between_succ (samples : Nat → List ℚ) (i : Nat) :
    between samples 0 (i + 1) = between samples 0 i ++ samples i := by
  simp [between, range'_concat]

theorem between_append (samples : Nat → List ℚ) (ordered : i ≤ j) :
    between samples 0 j = between samples 0 i ++ between samples i j := by
  have whole := range'_append_1 (s := 0) (m := i) (n := j - i)
  rw [Nat.add_sub_cancel' ordered, Nat.zero_add] at whole
  rw [between, between, between, Nat.sub_zero, Nat.sub_zero, ← flatMap_append, whole]

theorem prefixStats_count (tracks : ∀ i < n, (parts i).Tracks (samples i)) (inside : i ≤ n) :
    (prefixStats parts i).n = (between samples 0 i).length := by
  induction i with
  | zero => rfl
  | succ i ih =>
    rw [between_succ, length_append, ← ih (by omega), ← (tracks i inside).count, prefixStats]

/-- The estimates of a partition are those of everything up to it. -/
theorem tracks_append_iff (tracks : s.Tracks ys) (some : xs ≠ []) :
    PartStats.Tracks ⟨(xs ++ ys).length, s.mu, s.var⟩ (xs ++ ys) ↔
      s.mu = mean xs ∧ (2 ≤ (xs ++ ys).length →
        s.var * ((xs.length + ys.length : Nat) * (xs.length + ys.length - 1 : Nat)) =
          squares xs + squares ys) := by
  have positive : (0 : ℚ) < xs.length := Nat.cast_pos.mpr (length_pos_iff.mpr some)
  have means := length_mul_mean_append xs ys
  have sums (same : s.mu = mean xs) : squares (xs ++ ys) = squares xs + squares ys := by
    rw [squares_append some, ← tracks.mean, same]
    simp
  constructor
  · intro whole
    have same : s.mu = mean xs := by
      rw [← whole.mean, ← tracks.mean] at means
      have : xs.length * (s.mu - mean xs) = 0 := by
        simp only at means
        linarith
      exact sub_eq_zero.mp ((mul_eq_zero.mp this).resolve_left positive.ne')
    refine ⟨same, fun _ => ?_⟩
    rw [← sums same, ← whole.squares, length_append, mul_assoc]
  · rintro ⟨same, var⟩
    refine ⟨rfl, ?_, fun none => absurd none (append_ne_nil_of_left_ne_nil some _), fun two => ?_⟩
    · rw [← tracks.mean, ← same, ← add_mul] at means
      exact (mul_left_cancel₀ (by positivity) means).symm
    · have pos : (0 : ℚ) < (xs.length + ys.length : Nat) * (xs.length + ys.length - 1 : Nat) := by
        rw [length_append] at two
        exact mul_pos (Nat.cast_pos.mpr (by omega)) (Nat.cast_pos.mpr (by omega))
      have whole := squares_eq_meanVar (xs ++ ys)
      rw [sums same, ← var two, length_append, mul_assoc] at whole
      rw [length_append] at two
      rw [Nat.cast_sub (by omega), Nat.cast_one] at whole pos
      exact mul_right_cancel₀ pos.ne' whole

/-- The estimates of a prefix are those of its last partition.  They describe the prefix just
if each partition has the mean of all samples before it, and a variance that is scaled as if
it stood for both. -/
theorem prefixStats_tracks_iff (parts : Nat → PartStats) (samples : Nat → List ℚ) (n : Nat)
    (tracks : ∀ i < n, (parts i).Tracks (samples i)) :
    ((∀ i ≤ n, (prefixStats parts i).Tracks (between samples 0 i)) ∧
        ∀ i j, i ≤ j → j ≤ n → 2 ≤ (between samples i j).length → ∀ (sqrt : ℚ → ℚ) (total : Nat),
          segmentCost sqrt total (prefixStats parts j) (prefixStats parts i) =
            sqrt (meanVar (between samples i j) * (between samples i j).length) *
              ((between samples i j).length / total)) ↔
      ∀ i < n, between samples 0 i ≠ [] → (parts i).mu = mean (between samples 0 i) ∧
        (2 ≤ (between samples 0 i ++ samples i).length →
          (parts i).var * (((between samples 0 i).length + (samples i).length : Nat) *
              ((between samples 0 i).length + (samples i).length - 1 : Nat)) =
            squares (between samples 0 i) + squares (samples i)) := by
  have e {i : Nat} (inside : i < n) : prefixStats parts (i + 1) =
      ⟨(between samples 0 i ++ samples i).length, (parts i).mu, (parts i).var⟩ := by
    rw [prefixStats, prefixStats_count tracks inside.le, (tracks i inside).count, length_append]
  constructor
  · rintro ⟨all, -⟩ i inside some
    have whole := all (i + 1) inside
    rw [e inside, between_succ] at whole
    exact (tracks_append_iff (tracks i inside) some).mp whole
  · intro same
    have all (i : Nat) (inside : i ≤ n) : (prefixStats parts i).Tracks (between samples 0 i) := by
      cases i with
      | zero => exact empty_tracks
      | succ i =>
        rw [e inside, between_succ]
        rcases eq_or_ne (between samples 0 i) [] with none | some
        · have own := tracks i inside
          rw [none, nil_append, ← own.count]
          exact own
        · exact (tracks_append_iff (tracks i inside) some).mpr (same i inside some)
    refine ⟨all, fun i j ordered inside two sqrt total => ?_⟩
    have whole := all j inside
    rw [between_append samples ordered] at whole
    exact segmentCost_tracks whole (all i (by omega)) two sqrt total

theorem equal_partitions_prefix :
    (prefixStats (fun _ => ⟨2, 5, 0⟩) 2).Tracks (between (fun _ => [5, 5]) 0 2) :=
  ((prefixStats_tracks_iff (fun _ => ⟨2, 5, 0⟩) (fun _ => [5, 5]) 2
    (fun _ _ => (by decide +kernel : statsOf [5, 5] = ⟨2, 5, 0⟩) ▸ statsOf_tracks [5, 5])).mpr
    (by decide +kernel)).1 2 le_rfl

/-- Two partitions without any variance, but with different means. -/
theorem different_means_prefix : statsOf [1, 1] = ⟨2, 1, 0⟩ ∧ statsOf [3, 3] = ⟨2, 3, 0⟩ ∧
      prefixStats (fun i => if i = 0 then ⟨2, 1, 0⟩ else ⟨2, 3, 0⟩) 2 = ⟨4, 3, 0⟩ ∧
      statsOf [1, 1, 3, 3] = ⟨4, 2, 1 / 3⟩ ∧
      removeVar 4 3 0 2 1 0 = -8 ∧ meanVar [3, 3] = 0 := by
  decide +kernel

end PgAqp.Progressive
