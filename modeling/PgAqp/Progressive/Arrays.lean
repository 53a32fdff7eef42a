import PgAqp.Progressive.Intervals

/-!
# The arrays of the progressive controller

`aqp_pswrctl_begin` takes the arrays of the initial phase and of the stratification from one
allocation.  The statistics of the partitions are arrays of their own.
-/

namespace PgAqp.Progressive

open List Library

/-! ## Indices of partitions -/

structure IndexFlags where
  doSwitchToUniform : Bool
  doPswr : Bool
  wantPartitionKey : Bool

/-- `index` without batch sampling, in the transition function and in
`aqp_approx_sum_transstate_finalize`. -/
def IndexFlags.index (f : IndexFlags) (curPartition : Nat) : Nat :=
  if f.doSwitchToUniform && !f.wantPartitionKey then 0
  else if !f.doPswr || f.wantPartitionKey then curPartition
  else curPartition + 1

/-- The partitions whose variances `aqp_approx_sum_check_ci` adds up after a phase of `k`
partitions, without batch sampling. -/
def checkedIndices (doSwitchToUniform : Bool) (uniformSize : Nat) (varPart : Nat → ℚ) (k : Nat) :
    List Nat :=
  if doSwitchToUniform && k == 1 then if 0 < uniformSize ∧ 0 < varPart 0 then [0] else []
  else range' 1 (k - 1)

/-- The check leaves out the last partition. -/
theorem checkedIndices_iff (f : IndexFlags) (uniformSize : Nat) (varPart : Nat → ℚ) (k : Nat) :
    (∀ i, i ∈ checkedIndices f.doSwitchToUniform uniformSize varPart k ↔
        ∃ cur < k, f.index cur = i) ↔
      k = 0 ∨ k = 1 ∧ f.doSwitchToUniform = true ∧ 0 < uniformSize ∧ 0 < varPart 0 := by
  rcases Nat.eq_zero_or_pos k with rfl | some
  · simp [checkedIndices]
  unfold checkedIndices
  split
  · next uniform =>
    obtain ⟨switch, rfl⟩ : f.doSwitchToUniform = true ∧ k = 1 := by simpa using uniform
    have first : f.index 0 = 0 := by
      cases want : f.wantPartitionKey <;> simp [IndexFlags.index, want, switch]
    split <;> rename_i used
    · exact iff_of_true (by simp [first, eq_comm]) (.inr ⟨rfl, switch, used⟩)
    · refine iff_of_false (fun same => ?_) (by tauto)
      exact not_mem_nil ((same 0).mpr ⟨0, Nat.one_pos, first⟩)
  · next stratified =>
    refine iff_of_false (fun same => ?_) ?_
    · by_cases first : f.index 0 = 0
      · have checked := (same 0).mpr ⟨0, some, first⟩
        simp at checked
      · have last : f.index (k - 1) = k := by
          unfold IndexFlags.index at first ⊢
          grind
        have checked := (same k).mpr ⟨k - 1, by omega, last⟩
        rw [mem_range'_1] at checked
        omega
    · rintro (rfl | ⟨rfl, switch, -⟩)
      · exact absurd some (Nat.lt_irrefl 0)
      · simp [switch] at stratified

/-- The samples of a phase of two partitions count for partitions 1 and 2. -/
theorem second_partition_unchecked : checkedIndices false 100 (fun _ => 1) 2 = [1] ∧
    (range 2).map (IndexFlags.index ⟨false, true, false⟩) = [1, 2] := by
  decide +kernel

/-! ## The carved arrays -/

inductive ArrayName where
  | prefixStats
  | prefixKeys
  | recordedKvPairs
  | samplesHeight
  | optCost2
  | optCost
  | optPrevIdx
  | optUb
  | optSampleSize
  | optSamplePercent
  deriving DecidableEq

structure Carved where
  name : ArrayName
  offset : Nat
  width : Nat
  length : Nat

/-- What decides the arrays.  `aqp_pswr_tree` is cleared for other strategies, and
`aqp_dp_intervals_count` is at least one. -/
structure ArraySettings where
  strategy : Strategy
  pswrTree : Bool
  intervalsCount : Nat
  initialPhaseSampleSize : Nat
  treeDp : pswrTree = true → strategy = .dp
  positive : 0 < intervalsCount

/-- `MAXALIGN` -/
def maxalign (bytes : Nat) : Nat := (bytes + 7) / 8 * 8

/-- How far `mem` goes on behind an array. -/
def advance (name : ArrayName) (bytes : Nat) : Nat :=
  if name = .optPrevIdx then maxalign bytes else bytes

def carve : Nat → List (ArrayName × Nat × Nat) → List Carved
  | _, [] => []
  | off, (name, width, length) :: rest =>
    ⟨name, off, width, length⟩ :: carve (off + advance name (width * length)) rest

def lengthOf (entries : List (ArrayName × Nat × Nat)) (name : ArrayName) : Nat :=
  ((entries.find? (·.1 = name)).map (·.2.2)).getD 0

theorem le_advance (name : ArrayName) (bytes : Nat) : bytes ≤ advance name bytes := by
  unfold advance maxalign
  split <;> omega

theorem carve_apart (entries : List (ArrayName × Nat × Nat)) (off : Nat) :
    ((carve off entries).Pairwise fun array later =>
        array.offset + array.width * array.length ≤ later.offset) ∧
      ∀ array ∈ carve off entries, off ≤ array.offset ∧ array.offset + array.width * array.length ≤
        off + (entries.map fun e => advance e.1 (e.2.1 * e.2.2)).sum := by
  induction entries generalizing off with
  | nil => exact ⟨.nil, nofun⟩
  | cons e entries ih =>
    obtain ⟨name, width, length⟩ := e
    have first := le_advance name (width * length)
    obtain ⟨apart, inside⟩ := ih (off + advance name (width * length))
    rw [map_cons, sum_cons]
    dsimp only [carve]
    refine ⟨.cons (fun later mem => ?_) apart, forall_mem_cons.mpr ⟨?_, fun array mem => ?_⟩⟩
    · exact (Nat.add_le_add_left first off).trans (inside later mem).1
    · dsimp only
      omega
    · have := inside array mem
      omega

theorem carve_aligned {entries : List (ArrayName × Nat × Nat)} {off : Nat} (start : 8 ∣ off)
    (steps : ∀ e ∈ entries, min e.2.1 8 ∣ 8 ∧ 8 ∣ advance e.1 (e.2.1 * e.2.2)) :
    ∀ array ∈ carve off entries, min array.width 8 ∣ array.offset := by
  induction entries generalizing off with
  | nil => exact nofun
  | cons e entries ih =>
    obtain ⟨⟨width, step⟩, steps⟩ := forall_mem_cons.mp steps
    exact forall_mem_cons.mpr ⟨width.trans start, ih (start.add step) steps⟩

namespace ArraySettings

variable (cfg : ArraySettings)

/-- `sz`, before it is cut to 64 bits. -/
def size : Nat :=
  let n := cfg.initialPhaseSampleSize
  let c := cfg.intervalsCount
  match cfg.strategy with
  | .optStrat => 56 * (n + 1) + 8 * 2 * n + 8 * n + 8 * n + 8 * n + 8 * n
  | .equalStrat => 8 * (n + 1) + 8 * n + 8 * n + 8 * n + 8 * n
  | .dp =>
    if cfg.pswrTree then
      56 * (c + 1) + 8 * 2 * n + 4 * n + 8 * c + 8 * c + maxalign (4 * (c - 1) * c) + 8 * c +
        8 * c + 8 * c
    else
      56 * (c + 1) + 8 * 2 * n + 8 * c + maxalign (4 * (c - 1) * c) + 8 * c + 8 * c + 8 * c

/-- The arrays with their widths and lengths. -/
def layout : List (ArrayName × Nat × Nat) :=
  let n := cfg.initialPhaseSampleSize
  let c := cfg.intervalsCount
  let parts k := [(.optUb, 8, k), (.optSampleSize, 8, k), (.optSamplePercent, 8, k)]
  match cfg.strategy with
  | .optStrat =>
    (.prefixStats, 56, n + 1) :: (.recordedKvPairs, 8, 2 * n) :: (.optCost, 8, n) :: parts n
  | .equalStrat => (.prefixKeys, 8, n + 1) :: (.recordedKvPairs, 8, n) :: parts n
  | .dp =>
    (.prefixStats, 56, c + 1) :: (.recordedKvPairs, 8, 2 * n) ::
      ((if cfg.pswrTree then [(.samplesHeight, 4, n), (.optCost2, 8, c)] else []) ++
        (.optCost, 8, c) :: (.optPrevIdx, 4, (c - 1) * c) :: parts c)

def arrays : List Carved := carve 0 cfg.layout

/-- What the recording of `n` pairs writes: the keys and, unless the strata are equal, the
values. -/
def recordWrites (n : Nat) : ArrayName → List Nat
  | .recordedKvPairs =>
    (range n).flatMap fun i => if cfg.strategy = .equalStrat then [2 * i] else [2 * i, 2 * i + 1]
  | .samplesHeight => if cfg.pswrTree then range n else []
  | _ => []

variable {δ κ : Type} [LinearOrder κ] [DecidableEq δ] (value : δ → κ)

/-- The number of intervals of the sorted pairs, before the last one is merged and after. -/
def cuts : List (δ × ℚ) → Nat × Nat
  | [] => (0, 0)
  | (key, x) :: rest =>
    let cut := cutLoop value (cfg.strategy.closes cfg.intervalsCount (1 + changes key rest)) [] 1
      key ⟨1, x, 0⟩ rest
    (cut.1.length + 1,
      if cfg.strategy = .dp then (mergeLast cut.1 cut.2).length else cut.1.length + 1)

/-- Where the sort of the `n` pairs, the cut into intervals and the stratification can write. -/
def setupWrites (n : Nat) (cuts : Nat × Nat) (name : ArrayName) : List Nat :=
  if n ≤ 1 then []
  else
    match name, cfg.strategy with
    | .recordedKvPairs, _ => range (2 * n)
    | .prefixKeys, .equalStrat | .prefixStats, .optStrat | .prefixStats, .dp => range (cuts.1 + 1)
    -- `sigma` is numbered from one, but not filled if all keys differ
    | .optCost, .optStrat => if n = cuts.2 then [] else range' 1 cuts.2
    | .optCost, .dp => range cuts.2
    | .optCost2, .dp => if cfg.pswrTree then range cuts.2 else []
    | .optPrevIdx, .dp =>
      (range' 2 (cuts.2 - 1)).flatMap fun k =>
        (range' k (cuts.2 + 1 - k)).map fun i => (k - 2) * cuts.2 + i - 1
    | .optUb, _ | .optSampleSize, _ | .optSamplePercent, _ => range cuts.2
    | _, _ => []

/-- The arrays are aligned, apart and inside the memory that was allocated, and nothing is written
outside of them. -/
structure ArraysFit : Prop where
  aligned : ∀ array ∈ cfg.arrays, min array.width 8 ∣ array.offset
  apart : cfg.arrays.Pairwise fun array later => array.offset + array.width * array.length ≤
    later.offset
  inside : ∀ array ∈ cfg.arrays, array.offset + array.width * array.length ≤ cfg.size % 2 ^ 64
  written : ∀ pairs : List (δ × ℚ), pairs.length ≤ cfg.initialPhaseSampleSize → ∀ name, ∀ place ∈
    cfg.recordWrites pairs.length name ++ cfg.setupWrites pairs.length (cfg.cuts value pairs) name,
    place < lengthOf cfg.layout name

theorem sum_layout : (cfg.layout.map fun e => advance e.1 (e.2.1 * e.2.2)).sum = cfg.size := by
  unfold layout size
  cases cfg.strategy <;> cases cfg.pswrTree <;> simp [advance, Nat.mul_assoc] <;> omega

omit [DecidableEq δ] in
theorem length_cutLoop {prev s} (closes : List (Interval δ) → Nat → Nat → Bool) (closed c rest) :
    (cutLoop value closes closed c prev s rest).1.length ≤ closed.length + rest.length := by
  induction rest generalizing closed c prev s with
  | nil => exact Nat.le_refl _
  | cons pair rest ih =>
    obtain ⟨key, x⟩ := pair
    unfold cutLoop
    split
    · split
      · exact (ih _ _).trans (by rw [length_cons, length_cons]; omega)
      · exact (ih _ _).trans (by rw [length_cons]; omega)
    · exact (ih _ _).trans (by rw [length_cons]; omega)

variable {cfg}

theorem cuts_le (pairs : List (δ × ℚ)) : (cfg.cuts value pairs).2 ≤ (cfg.cuts value pairs).1 ∧
    (cfg.cuts value pairs).1 ≤ pairs.length ∧
    (cfg.strategy = .dp → (cfg.cuts value pairs).1 ≤ cfg.intervalsCount) := by
  match pairs with
  | [] => simp [cuts]
  | (key, x) :: rest =>
    unfold cuts
    refine ⟨?_, ?_, fun isDp => ?_⟩
    · dsimp only
      split
      · rw [mergeLast, length_cons]
        split <;> simp
      · exact Nat.le_refl _
    · exact Nat.succ_le_succ ((length_cutLoop value _ [] 1 rest).trans_eq (Nat.zero_add _))
    · rw [isDp]
      exact lt_of_keysOf_lt cfg.positive (cutLoop_dp_start _ value key x rest).1

theorem place_lt (low : 2 ≤ k) (high : k ≤ v) (small : i ≤ v) (few : v ≤ c) :
    (k - 2) * v + i - 1 < (c - 1) * c := by
  obtain ⟨k, rfl⟩ := Nat.exists_eq_add_of_le' low
  obtain ⟨c, rfl⟩ := Nat.exists_eq_add_of_le' (by omega : 1 ≤ c)
  have rows : (k + 1) * v ≤ c * (c + 1) := Nat.mul_le_mul (by omega) few
  rw [Nat.succ_mul] at rows
  simp only [Nat.add_sub_cancel]
  omega

section

variable {n : Nat} {cuts : Nat × Nat} (few : n ≤ cfg.initialPhaseSampleSize)
  (merged : cuts.2 ≤ cuts.1) (short : cuts.1 ≤ n)
include few

theorem written_equalStrat (isEqual : cfg.strategy = .equalStrat) (one : n ≤ 1)
    (name : ArrayName) : ∀ place ∈ cfg.recordWrites n name ++ cfg.setupWrites n cuts name,
      place < lengthOf cfg.layout name := by
  have noTree : cfg.pswrTree = false := by
    simpa [isEqual] using cfg.treeDp
  unfold recordWrites setupWrites lengthOf layout
  rw [isEqual, noTree, if_pos one]
  cases name <;> simp
  omega

include merged

theorem written_dp (isDp : cfg.strategy = .dp) (bounded : cuts.1 ≤ cfg.intervalsCount)
    (name : ArrayName) : ∀ place ∈ cfg.recordWrites n name ++ cfg.setupWrites n cuts name,
      place < lengthOf cfg.layout name := by
  unfold recordWrites setupWrites lengthOf layout
  rw [isDp]
  cases cfg.pswrTree <;> cases name <;> simp
  case false.optPrevIdx | true.optPrevIdx =>
    rintro _ - k low high i - small rfl
    exact place_lt low (by omega) (by omega) (merged.trans bounded)
  all_goals grind

include short

theorem written_optStrat (isOpt : cfg.strategy = .optStrat) (name : ArrayName) :
    ∀ place ∈ cfg.recordWrites n name ++ cfg.setupWrites n cuts name,
      place < lengthOf cfg.layout name := by
  have noTree : cfg.pswrTree = false := by
    simpa [isOpt] using cfg.treeDp
  unfold recordWrites setupWrites lengthOf layout
  rw [isOpt, noTree]
  cases name <;> simp
  all_goals grind

end

/-- The arrays do not fit if the request is cut to 64 bits, if the pairs of equal strata have no
room for their values, or if the heights leave the rest at an odd word. -/
theorem arraysFit_iff [Inhabited δ] : cfg.ArraysFit value ↔
    cfg.size < 2 ^ 64 ∧ (cfg.strategy = .equalStrat → cfg.initialPhaseSampleSize ≤ 1) ∧
      (cfg.pswrTree = true → 2 ∣ cfg.initialPhaseSampleSize) := by
  constructor
  · intro fit
    refine ⟨?_, fun equal => ?_, fun tree => ?_⟩
    · have inside := fit.inside
      have cut := Nat.mod_lt cfg.size (by decide : 0 < 2 ^ 64)
      unfold arrays layout at inside
      unfold size at inside cut ⊢
      cases isStrategy : cfg.strategy <;> cases isTree : cfg.pswrTree <;>
        simp [isStrategy, isTree, carve, advance, Nat.mul_assoc] at inside cut ⊢ <;> omega
    · by_contra many
      have written := fit.written (replicate cfg.initialPhaseSampleSize default) (by simp)
        .recordedKvPairs (2 * (cfg.initialPhaseSampleSize - 1))
      simp [recordWrites, equal, lengthOf, layout] at written
      omega
    · have aligned := fit.aligned
      simp [arrays, layout, cfg.treeDp tree, tree, carve, advance] at aligned
      omega
  · rintro ⟨granted, equal, even⟩
    obtain ⟨apart, inside⟩ := carve_apart cfg.layout 0
    refine ⟨carve_aligned (Nat.dvd_zero 8) ?_, apart, fun array mem => ?_, fun pairs few => ?_⟩
    · unfold layout
      cases cfg.strategy <;> cases isTree : cfg.pswrTree <;>
        simp [isTree, advance, maxalign] at even ⊢ <;> omega
    · rw [Nat.mod_eq_of_lt granted, ← cfg.sum_layout]
      simpa using (inside array mem).2
    · obtain ⟨merged, short, bounded⟩ := cuts_le value pairs
      cases isStrategy : cfg.strategy with
      | dp => exact written_dp few merged isStrategy (bounded isStrategy)
      | optStrat => exact written_optStrat few merged short isStrategy
      | equalStrat => exact written_equalStrat few isStrategy (few.trans (equal isStrategy))

/-- Two pairs of equal strata: the second key is written behind the array. -/
theorem second_key_outside :
    ¬ArraysFit ⟨.equalStrat, false, 1, 2, nofun, by decide⟩ (id : Nat → Nat) := by
  intro fit
  have inside := fit.written [(0, 0), (0, 0)] (by decide) .recordedKvPairs 2 (by decide +kernel)
  exact absurd inside (by decide)

end ArraySettings

end PgAqp.Progressive
