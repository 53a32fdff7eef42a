import PgAqp.Library.Moments

/-!
# Half confidence intervals

`float8_accum` and the final function of `clt_half_ci` over the accepted values of a
plain sampling scan, and `progressive_float8_accum` over the samples of a progressive
one, which come partition by partition.  The scan numbers the samples of a partition
from one; a sample with number one closes the partition before it.
-/

namespace PgAqp.Progressive

open List Library

/-! ## One population -/

/-- The transition array of `float8_accum`. -/
structure Moments where
  N : ℚ
  Sx : ℚ
  Sxx : ℚ

def float8Accum (s : Moments) (newval : ℚ) : Moments :=
  let N := s.N + 1
  let Sx := s.Sx + newval
  let tmp := newval * N - Sx
  ⟨N, Sx, if 0 < s.N then s.Sxx + tmp * tmp / (N * s.N) else s.Sxx⟩

/-- The sum of squares in `aqp_clt_half_ci_finalfunc`. -/
def Moments.pooled (s : Moments) (nsamples : ℚ) : ℚ :=
  if s.N = 0 then 0
  else if nsamples - s.N ≤ 0 then s.Sxx
  else
    let tmp := s.Sx / s.N
    s.Sxx + s.N * (nsamples - s.N) / nsamples * tmp * tmp

def cltHalfCiFinalfunc (erfInv sqrt : ℚ → ℚ) (s : Moments) (confidence nsamples : ℚ) : Option ℚ :=
  if nsamples ≤ 1 then none
  else some (erfInv confidence * sqrt (2 * s.pooled nsamples / (nsamples * (nsamples - 1))))

theorem float8Accum_run (xs values : List ℚ) :
    values.foldl float8Accum ⟨xs.length, xs.sum, squares xs⟩ =
      ⟨(xs ++ values).length, (xs ++ values).sum, squares (xs ++ values)⟩ := by
  induction values generalizing xs with
  | nil => simp
  | cons x rest ih =>
    have step : float8Accum ⟨xs.length, xs.sum, squares xs⟩ x =
        ⟨(xs ++ [x]).length, (xs ++ [x]).sum, squares (xs ++ [x])⟩ := by
      rw [float8Accum, squares_concat]
      congr 1
      · simp
      · simp
      · cases xs with
        | nil => simp
        | cons y ys =>
          have positive : (0 : ℚ) < (y :: ys).length := by simp; positivity
          rw [if_pos positive, ← length_mul_mean]
          field_simp
          ring
    rw [foldl_cons, step, ih, append_assoc, singleton_append]

/-- The rejected samples enter the final function as zeros. -/
theorem cltHalfCi_sumSquares (erfInv sqrt : ℚ → ℚ) (confidence : ℚ) (values : List ℚ) (drawn : Nat)
    (fewer : values.length ≤ drawn) (two : 2 ≤ drawn) :
    (values.foldl float8Accum ⟨0, 0, 0⟩).pooled drawn =
        squares (values ++ replicate (drawn - values.length) 0) ∧
      cltHalfCiFinalfunc erfInv sqrt (values.foldl float8Accum ⟨0, 0, 0⟩) confidence drawn =
        some (erfInv confidence * sqrt (2 *
          squares (values ++ replicate (drawn - values.length) 0) / (drawn * (drawn - 1)))) := by
  have run : values.foldl float8Accum ⟨0, 0, 0⟩ = ⟨values.length, values.sum, squares values⟩ := by
    simpa [squares, deviations] using float8Accum_run [] values
  have sum : (values.foldl float8Accum ⟨0, 0, 0⟩).pooled drawn =
      squares (values ++ replicate (drawn - values.length) 0) := by
    rw [run, Moments.pooled]
    rcases eq_or_ne values [] with rfl | some
    · simp [squares_zeros]
    have positive : (0 : ℚ) < values.length := Nat.cast_pos.mpr (length_pos_iff.mpr some)
    rw [if_neg positive.ne', squares_append some, squares_zeros, mean_zeros, length_replicate,
      Nat.cast_sub fewer]
    split
    · have all : (drawn : ℚ) = values.length := by
        have : (values.length : ℚ) ≤ drawn := Nat.cast_le.mpr fewer
        linarith
      simp [all]
    · have drawn_pos : (0 : ℚ) < drawn := by positivity
      rw [← length_mul_mean, add_sub_cancel]
      field_simp
      ring
  refine ⟨sum, ?_⟩
  have several : ¬(drawn : ℚ) ≤ 1 := by
    have : (2 : ℚ) ≤ drawn := by exact_mod_cast two
    linarith
  rw [cltHalfCiFinalfunc, if_neg several, sum]

theorem two_of_three_accepted :
    ([3, 6].foldl float8Accum ⟨0, 0, 0⟩).pooled (3 : Nat) = squares [3, 6, 0] ∧
      squares [3, 6, 0] = 18 :=
  ⟨(cltHalfCi_sumSquares id id 0 [3, 6] 3 (by decide) (by decide)).1, by decide +kernel⟩

/-! ## Several partitions -/

/-- The transition array of `progressive_float8_accum`. -/
structure ProgressiveState where
  Sx : ℚ
  bx : ℚ
  Sxx : ℚ
  nb : ℚ
  ns : ℚ
  nc : ℚ
  deriving DecidableEq

namespace ProgressiveState

/-- What the samples of the open partition add to `Sxx`. -/
def pending (s : ProgressiveState) : ℚ := s.nb * s.nb * s.bx / (s.ns * (s.ns - 1))

/-- The block for a sample with number one. -/
def flush (s : ProgressiveState) : ProgressiveState :=
  { s with Sxx := if s.ns ≠ 0 then s.Sxx + s.pending else s.Sxx, Sx := 0, bx := 0, nc := 0 }

def accum (s : ProgressiveState) (newval : Option ℚ) (nsamples nbudget ni : ℚ) :
    ProgressiveState :=
  let s := if nsamples = 1 then s.flush else s
  let value := newval.getD 0 * (ni / nbudget)
  { s with
    nb := nbudget
    ns := nsamples
    nc := if newval.isNone then s.nc + 1 else s.nc
    bx := s.bx + (nsamples - 1) / nsamples * (value - s.Sx) * (value - s.Sx)
    Sx := (nsamples - 1) / nsamples * s.Sx + 1 / nsamples * value }

def initial : ProgressiveState := ⟨0, 0, 0, 0, 0, 0⟩

/-- The sum in `aqp_progressive_clt_half_ci_finalfunc`. -/
def finalSxx (s : ProgressiveState) : ℚ := s.Sxx + s.pending

def finalfunc (erfInv sqrt : ℚ → ℚ) (s : ProgressiveState) (confidence nsamples : ℚ) : Option ℚ :=
  if nsamples ≤ 1 then none
  else some (erfInv confidence * sqrt (2 * s.finalSxx / (nsamples * nsamples)))

end ProgressiveState

/-- A partition as the scan hands it to the aggregate: its sample budget, its size and
its samples, where a rejected one is null. -/
structure Stratum where
  budget : ℚ
  ni : ℚ
  values : List (Option ℚ)

namespace Stratum

/-- The samples from number `n + 1` on. -/
def feedFrom (p : Stratum) : Nat → List (Option ℚ) → ProgressiveState → ProgressiveState
  | _, [], s => s
  | n, newval :: rest, s => p.feedFrom (n + 1) rest (s.accum newval (n + 1 : Nat) p.budget p.ni)

def feed (s : ProgressiveState) (p : Stratum) : ProgressiveState := p.feedFrom 0 p.values s

def scaled (p : Stratum) (newval : Option ℚ) : ℚ := newval.getD 0 * (p.ni / p.budget)

def variance (p : Stratum) : ℚ :=
  p.budget * p.budget * squares (p.values.map p.scaled) /
    (p.values.length * (p.values.length - 1))

end Stratum

/-- The state while the samples `xs` of the partition are in: `total` is flushed. -/
structure ProgressiveState.Open (s : ProgressiveState) (p : Stratum) (xs : List ℚ) (total : ℚ) :
    Prop where
  mean : s.Sx = mean xs
  squares : s.bx = squares xs
  flushed : s.Sxx = total
  budget : s.nb = p.budget
  count : s.ns = xs.length

namespace Stratum

open ProgressiveState

variable {s : ProgressiveState} {p : Stratum}

theorem accum_first (newval : Option ℚ) :
    (s.accum newval (1 : Nat) p.budget p.ni).Open p [p.scaled newval] s.flush.Sxx := by
  rw [accum, Nat.cast_one, if_pos rfl]
  constructor <;> simp [flush, scaled, Library.mean, Library.squares, deviations]

theorem accum_next (o : s.Open p xs total) (some : xs ≠ []) (newval : Option ℚ) :
    (s.accum newval (xs.length + 1 : Nat) p.budget p.ni).Open p (xs ++ [p.scaled newval]) total := by
  have positive : (0 : ℚ) < xs.length := Nat.cast_pos.mpr (length_pos_iff.mpr some)
  rw [accum, if_neg (by push_cast; linarith)]
  refine ⟨?_, ?_, o.flushed, rfl, by simp⟩
  · rw [mean_concat]
    simp only [o.mean, scaled]
    push_cast
    field_simp
    ring
  · rw [squares_concat]
    simp only [o.squares, o.mean, scaled]
    push_cast
    ring

theorem feedFrom_open (o : s.Open p xs total) (some : xs ≠ []) (values : List (Option ℚ)) :
    (p.feedFrom xs.length values s).Open p (xs ++ values.map p.scaled) total := by
  induction values generalizing s xs with
  | nil => simpa [feedFrom] using o
  | cons newval rest ih =>
    have later := ih (accum_next o some newval) (append_ne_nil_of_left_ne_nil some _)
    simpa [feedFrom] using later

theorem feed_open (some : p.values ≠ []) :
    (feed s p).Open p (p.values.map p.scaled) s.flush.Sxx := by
  obtain ⟨newval, rest, isCons⟩ := exists_cons_of_ne_nil some
  have later := feedFrom_open (accum_first (s := s) (p := p) newval) (cons_ne_nil _ _) rest
  rw [feed, isCons, feedFrom]
  exact later

/-- A partition that is fed is flushed once, by the next one or by the final function. -/
theorem feed_pending (some : p.values ≠ []) :
    (feed s p).pending = p.variance ∧ (feed s p).flush.Sxx = s.flush.Sxx + p.variance := by
  have o := feed_open (s := s) some
  have isVariance : (feed s p).pending = p.variance := by
    rw [pending, variance, o.budget, o.squares, o.count, length_map]
  have counted : (feed s p).ns ≠ 0 := by
    rw [o.count, length_map]
    exact Nat.cast_ne_zero.mpr (length_pos_iff.mpr some).ne'
  refine ⟨isVariance, ?_⟩
  rw [flush, if_pos counted, isVariance, o.flushed]

theorem feeds_flushed (ps : List Stratum) (some : ∀ p ∈ ps, p.values ≠ []) :
    (ps.foldl feed s).flush.Sxx = s.flush.Sxx + (ps.map variance).sum := by
  induction ps generalizing s with
  | nil => simp
  | cons p rest ih =>
    rw [foldl_cons, ih (fun q later => some q (mem_cons_of_mem _ later)),
      (feed_pending (some p mem_cons_self)).2, map_cons, sum_cons, add_assoc]

end Stratum

open ProgressiveState in
/-- The final function has every partition once: those before the last were flushed, and
the last one is still open. -/
theorem progressive_sumSquares (erfInv sqrt : ℚ → ℚ) (confidence nsamples : ℚ) (ps : List Stratum)
    (two : ∀ p ∈ ps, 2 ≤ p.values.length) :
    (ps.foldl Stratum.feed initial).finalSxx = (ps.map Stratum.variance).sum ∧
      (∀ pre last, ps = pre ++ [last] →
        (ps.foldl Stratum.feed initial).Sxx = (pre.map Stratum.variance).sum ∧
          (ps.foldl Stratum.feed initial).bx = squares (last.values.map last.scaled)) ∧
      (1 < nsamples → (ps.foldl Stratum.feed initial).finalfunc erfInv sqrt confidence
        nsamples = some (erfInv confidence *
          sqrt (2 * (ps.map Stratum.variance).sum / (nsamples * nsamples)))) := by
  have some (p : Stratum) (isIn : p ∈ ps) : p.values ≠ [] :=
    length_pos_iff.mp (Nat.zero_lt_two.trans_le (two p isIn))
  have flushed (pre : List Stratum) (last : Stratum) (isLast : ps = pre ++ [last]) :
      (pre.foldl Stratum.feed initial).flush.Sxx = (pre.map Stratum.variance).sum := by
    rw [Stratum.feeds_flushed pre fun p earlier => some p (by simp [isLast, earlier])]
    simp [initial, flush]
  have sum : (ps.foldl Stratum.feed initial).finalSxx = (ps.map Stratum.variance).sum := by
    rcases eq_nil_or_concat' ps with rfl | ⟨pre, last, isLast⟩
    · simp [initial, finalSxx, pending]
    have filled := some last (by simp [isLast])
    rw [finalSxx, isLast, foldl_concat, (Stratum.feed_open filled).flushed,
      (Stratum.feed_pending filled).1, flushed pre last isLast]
    simp
  refine ⟨sum, fun pre last isLast => ?_, fun several => ?_⟩
  · have o := Stratum.feed_open (s := pre.foldl Stratum.feed initial) (some last (by simp [isLast]))
    rw [isLast, foldl_concat]
    exact ⟨o.flushed.trans (flushed pre last isLast), o.squares⟩
  · rw [finalfunc, if_neg several.not_ge, sum]

theorem two_partitions_sum :
    [⟨2, 4, [some 1, some 3]⟩, ⟨2, 2, [some 5, none, some 1]⟩].foldl Stratum.feed
        .initial = (⟨2, 14, 16, 2, 3, 1⟩ : ProgressiveState) ∧
      ProgressiveState.finalSxx ⟨2, 14, 16, 2, 3, 1⟩ = 76 / 3 :=
  have fed : [⟨2, 4, [some 1, some 3]⟩, ⟨2, 2, [some 5, none, some 1]⟩].foldl Stratum.feed
      .initial = (⟨2, 14, 16, 2, 3, 1⟩ : ProgressiveState) := by decide +kernel
  ⟨fed, fed ▸ (progressive_sumSquares id id 0 5 _ (by simp)).1.trans (by decide +kernel)⟩

end PgAqp.Progressive
