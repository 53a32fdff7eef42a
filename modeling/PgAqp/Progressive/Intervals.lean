import PgAqp.Progressive.Statistics

/-!
# The intervals of the initial phase

`aqp_approx_sum_transstate_finalize` sorts the recorded pairs of the initial phase by
key and cuts them into intervals, each with the statistics of all pairs up to its
end.  An interval can end only where the key changes.
-/

namespace PgAqp.Progressive

open List Library

variable {δ κ : Type} [LinearOrder κ]

/-- `AQPPrefixStats` -/
structure Interval (δ : Type) where
  key : δ
  stats : PartStats

def Interval.m (e : Interval δ) : Nat := e.stats.n

/-- How often a key differs from the one before it, as data. -/
def changes [DecidableEq δ] (prev : δ) : List (δ × ℚ) → Nat
  | [] => 0
  | (key, _) :: rest => (if prev ≠ key then 1 else 0) + changes key rest

/-- `ps[j - 1].m` -/
def lastEnd (closed : List (Interval δ)) : Nat := (closed.map Interval.m).headD 0

/-- One more pair in a prefix of `i`. -/
def PartStats.push (s : PartStats) (x : ℚ) : PartStats :=
  let i := s.n
  let tmp := x - s.mu
  { n := i + 1
    var := tmp * tmp / ((i + 1) * (i + 1)) + s.var * (i - 1 : Nat) / (i + 1)
    mu := (i * s.mu + x) / (i + 1) }

/-- An interval of the dynamic program ends before pair `i` if it has two pairs and enough of the
`m` keys; `c` counts its keys together with the new one. -/
def dpCloses (count m : Nat) (closed : List (Interval δ)) (c i : Nat) : Bool :=
  let d := if m ≤ count then 1 else m / count
  let r := if m ≤ count then 0 else m % count
  1 < i - lastEnd closed ∧ d + (if closed.length + 1 ≤ r then 1 else 0) < c

/-- The least number of keys of the first intervals. -/
def keysOf (count m closed : Nat) : Nat :=
  if m ≤ count then closed else m / count * closed + min closed (m % count)

variable (value : δ → κ)

/-- The loop over the sorted pairs, with the intervals that are closed, the last one first. -/
def cutLoop (closes : List (Interval δ) → Nat → Nat → Bool) :
    List (Interval δ) → Nat → δ → PartStats → List (δ × ℚ) → List (Interval δ) × Interval δ
  | closed, _, prev, s, [] => (closed, ⟨prev, s⟩)
  | closed, c, prev, s, (key, x) :: rest =>
    if value prev ≠ value key then
      if closes closed (c + 1) s.n then cutLoop closes (⟨key, s⟩ :: closed) 1 key (s.push x) rest
      else cutLoop closes closed (c + 1) key (s.push x) rest
    else cutLoop closes closed c key (s.push x) rest

/-- A last interval with one pair is merged into the one before it. -/
def mergeLast (closed : List (Interval δ)) (last : Interval δ) : List (Interval δ) :=
  last :: if last.m - lastEnd closed = 1 then closed.tail else closed

/-- The intervals of the dynamic program, the last one first. -/
def dpIntervals [DecidableEq δ] (count : Nat) : List (δ × ℚ) → List (Interval δ)
  | [] => []
  | (key, x) :: rest =>
    let cut := cutLoop value (dpCloses count (1 + changes key rest)) [] 1 key ⟨1, x, 0⟩ rest
    mergeLast cut.1 cut.2

/-! ## What the intervals are -/

variable {s : PartStats} {xs : List ℚ} {count : Nat}

theorem push_tracks (tracks : s.Tracks xs) (x : ℚ) (some : xs ≠ []) :
    (s.push x).Tracks (xs ++ [x]) := by
  refine tracks.concat x 64 ?_ rfl
  have one : 1 ≤ s.n := tracks.count ▸ length_pos_iff.mpr some
  rw [wordSub, if_neg (by omega), Nat.succ_sub_succ]
  ring

theorem PartStats.Tracks.eq_statsOf (tracks : s.Tracks xs) (two : 2 ≤ s.n) : s = statsOf xs := by
  rw [statsOf, ← tracks.count, ← tracks.mean, ← tracks.var (tracks.count ▸ two)]

/-- An inner interval ends with the last pair before its key. -/
structure EndsBefore (pairs : List (δ × ℚ)) (e : Interval δ) : Prop where
  tracks : e.stats.Tracks ((pairs.take e.m).map Prod.snd)
  next : pairs[e.m]?.map Prod.fst = some e.key
  below : ∀ pair ∈ pairs.take e.m, value pair.1 < value e.key

def SortedBy (pairs : List (δ × ℚ)) : Prop :=
  pairs.Pairwise fun first second => value first.1 ≤ value second.1

variable {value}

theorem cutLoop_spec {prev} (closes : List (Interval δ) → Nat → Nat → Bool) (c : Nat)
    {pairs : List (δ × ℚ)} (sorted : SortedBy value pairs) (isPairs : front ++ rest = pairs)
    (tracks : s.Tracks (front.map Prod.snd)) (isLast : prev ∈ front.map Prod.fst)
    (greatest : ∀ pair ∈ front, value pair.1 ≤ value prev)
    (known : ∀ e ∈ closed, EndsBefore value pairs e) :
    (∀ e ∈ (cutLoop value closes closed c prev s rest).1, EndsBefore value pairs e) ∧
      (cutLoop value closes closed c prev s rest).2.stats.Tracks (pairs.map Prod.snd) := by
  induction rest generalizing front closed c prev s with
  | nil =>
    rw [← isPairs, append_nil] at known ⊢
    exact ⟨known, tracks⟩
  | cons pair rest ih =>
    obtain ⟨key, x⟩ := pair
    have across : ∀ pair ∈ front, value pair.1 ≤ value key := fun pair mem =>
      (pairwise_append.mp (isPairs ▸ sorted)).2.2 pair mem _ mem_cons_self
    have closing (changed : value prev ≠ value key) : EndsBefore value pairs ⟨key, s⟩ := by
      have count : s.n = front.length := tracks.count.trans (length_map _)
      refine ⟨?_, ?_, ?_⟩ <;> simp only [Interval.m, count, ← isPairs, take_left]
      · exact tracks
      · simp
      · intro pair mem
        obtain ⟨pre, inFront, rfl⟩ := mem_map.mp isLast
        exact (greatest pair mem).trans_lt (lt_of_le_of_ne (across pre inFront) changed)
    have some : front.map Prod.snd ≠ [] := by
      rintro none
      simp [map_eq_nil_iff.mp none] at isLast
    have next {closed' c'} := @ih (s.push x) (front ++ [(key, x)]) closed' key c'
      (by simpa using isPairs) (by simpa using push_tracks tracks x some) (by simp)
      (forall_mem_append.mpr ⟨across, by simp⟩)
    unfold cutLoop
    split
    · next changed =>
      split
      · exact next (forall_mem_cons.mpr ⟨closing changed, known⟩)
      · exact next known
    · exact next known

/-- The ends of the intervals, from the last one to the start, are two pairs apart. -/
def Apart (ends : List Nat) : Prop :=
  (ends ++ [0]).Pairwise fun later earlier => earlier + 2 ≤ later

theorem Apart.le_lastEnd (apart : Apart (closed.map Interval.m)) :
    ∀ place ∈ (closed : List (Interval δ)).map Interval.m ++ [0], place ≤ lastEnd closed := by
  cases closed with
  | nil => simp [lastEnd]
  | cons e closed =>
    refine forall_mem_cons.mpr ⟨le_rfl, fun place mem => ?_⟩
    have := rel_of_pairwise_cons apart mem
    exact (Nat.le_add_right place 2).trans this

theorem mergeLast_spec {last : Interval δ} (apart : Apart (closed.map Interval.m))
    (behind : lastEnd closed < last.m) (two : 2 ≤ last.m) :
    ∃ inner, mergeLast closed last = last :: inner ∧ inner.Sublist closed ∧
      Apart ((last :: inner).map Interval.m) := by
  unfold mergeLast
  split
  · next single =>
    cases closed with
    | nil =>
      rw [lastEnd] at single
      exact absurd single (by simp; omega)
    | cons e closed =>
      have behind : e.m < last.m := behind
      obtain ⟨above, rest⟩ := pairwise_cons.mp apart
      refine ⟨closed, rfl, sublist_cons_self _ _, .cons (fun place mem => ?_) rest⟩
      have := above place mem
      omega
  · next several =>
    refine ⟨closed, rfl, .refl _, .cons (fun place mem => ?_) apart⟩
    have := apart.le_lastEnd place mem
    omega

variable [DecidableEq δ]

theorem keysOf_succ (full : dpCloses count m closed (c + 1) i) :
    1 < i - lastEnd closed ∧ keysOf count m (closed.length + 1) ≤ keysOf count m closed.length + c := by
  obtain ⟨wide, full⟩ := of_decide_eq_true full
  refine ⟨wide, ?_⟩
  unfold keysOf
  split at full <;> rename_i small
  · simp only [if_pos small]
    split at full <;> omega
  · simp only [if_neg small, Nat.mul_succ] at full ⊢
    split at full <;> omega

theorem lt_of_keysOf_lt (some : 0 < count) (few : keysOf count m closed < m) : closed < count := by
  unfold keysOf at few
  split at few
  · omega
  · by_contra many
    have larger := Nat.mul_le_mul_left (m / count) (Nat.le_of_not_lt many)
    have whole := Nat.div_add_mod m count
    have less := Nat.mod_lt m some
    rw [Nat.mul_comm] at whole
    omega

theorem cutLoop_dp {prev} (value : δ → κ) (s : PartStats)
    (few : keysOf count m closed.length + c + changes prev rest ≤ m)
    (apart : Apart (closed.map Interval.m)) (behind : lastEnd closed < s.n) (some : 0 < c) :
    let cut := cutLoop value (dpCloses count m) closed c prev s rest
    keysOf count m cut.1.length < m ∧ Apart (cut.1.map Interval.m) ∧ lastEnd cut.1 < cut.2.m := by
  induction rest generalizing closed c prev s with
  | nil => exact ⟨by rw [changes] at few; dsimp only [cutLoop]; omega, apart, behind⟩
  | cons pair rest ih =>
    obtain ⟨key, x⟩ := pair
    rw [changes] at few
    unfold cutLoop
    split
    · next changed =>
      rw [if_pos fun same => changed (congrArg value same)] at few
      split
      · next closes =>
        obtain ⟨wide, full⟩ := keysOf_succ closes
        refine ih _ ?_ (.cons (fun place mem => ?_) apart) (Nat.lt_succ_self _) Nat.one_pos
        · rw [length_cons]
          omega
        · have := apart.le_lastEnd place mem
          exact (by omega : place + 2 ≤ s.n)
      · exact ih _ (by omega) apart (Nat.lt_succ_of_lt behind) (by omega)
    · exact ih _ (by split at few <;> omega) apart (Nat.lt_succ_of_lt behind) some

theorem cutLoop_dp_start (count : Nat) (value : δ → κ) (key : δ) (x : ℚ) (rest : List (δ × ℚ)) :
    let m := 1 + changes key rest
    let cut := cutLoop value (dpCloses count m) [] 1 key ⟨1, x, 0⟩ rest
    keysOf count m cut.1.length < m ∧ Apart (cut.1.map Interval.m) ∧ lastEnd cut.1 < cut.2.m := by
  have start : keysOf count (1 + changes key rest) ([] : List (Interval δ)).length + 1 +
      changes key rest ≤ 1 + changes key rest := by
    simp [keysOf]
  exact cutLoop_dp value ⟨1, x, 0⟩ start (by simp [Apart]) Nat.one_pos Nat.one_pos

/-- At most `count` intervals of two or more pairs, each with the statistics of all pairs up to
its end.  The boundaries are keys that differ from the key before them, in strict order. -/
structure CutInto (value : δ → κ) (count : Nat) (pairs : List (δ × ℚ)) (last : Interval δ)
    (inner : List (Interval δ)) : Prop where
  few : (last :: inner).length ≤ count
  two : Apart ((last :: inner).map Interval.m)
  all : last.m = pairs.length
  stats : ∀ e ∈ last :: inner, e.stats = statsOf ((pairs.take e.m).map Prod.snd)
  boundary : ∀ e ∈ inner, EndsBefore value pairs e
  increasing : inner.Pairwise fun later earlier => value earlier.key < value later.key

theorem single_tracks (x : ℚ) : PartStats.Tracks ⟨1, x, 0⟩ [x] :=
  ⟨rfl, by simp [mean], nofun, fun two => absurd two (by simp)⟩

theorem dpIntervals_cut (value : δ → κ) (pairs : List (δ × ℚ)) (some : 0 < count)
    (sorted : SortedBy value pairs) (two : 2 ≤ pairs.length) :
    ∃ last inner, dpIntervals value count pairs = last :: inner ∧
      CutInto value count pairs last inner := by
  match pairs with
  | (key, x) :: rest =>
    unfold dpIntervals
    dsimp only
    obtain ⟨few, apart, behind⟩ := cutLoop_dp_start count value key x rest
    generalize 1 + changes key rest = m at *
    obtain ⟨known, tracks⟩ := cutLoop_spec (dpCloses count m) 1 sorted singleton_append
      (single_tracks x) mem_cons_self (by simp) (forall_mem_nil _)
    generalize cutLoop value (dpCloses count m) [] 1 key ⟨1, x, 0⟩ rest = cut at *
    have all : cut.2.m = ((key, x) :: rest).length := tracks.count.trans (length_map _)
    obtain ⟨inner, merged, fewer, apart⟩ := mergeLast_spec apart behind (all ▸ two)
    have boundary : ∀ e ∈ inner, EndsBefore value ((key, x) :: rest) e :=
      fun e mem => known e (fewer.subset mem)
    have long : ∀ e ∈ cut.2 :: inner, 2 ≤ e.m := fun e mem =>
      (pairwise_append.mp apart).2.2 _ (mem_map_of_mem mem) 0 mem_cons_self
    refine ⟨cut.2, inner, merged, ?_, apart, all, ?_, boundary, ?_⟩
    · exact fewer.length_le.trans_lt (lt_of_keysOf_lt some few)
    · refine forall_mem_cons.mpr ⟨?_, fun e mem => ?_⟩
      · rw [all, take_length]
        exact tracks.eq_statsOf (long _ mem_cons_self)
      · exact (boundary e mem).tracks.eq_statsOf (long _ (mem_cons_of_mem _ mem))
    · have gaps := (pairwise_append.mp apart).1
      rw [map_cons, pairwise_cons, pairwise_map] at gaps
      refine gaps.2.imp_of_mem fun {later earlier} isLater isEarlier gap => ?_
      obtain ⟨pair, next, same⟩ := Option.map_eq_some_iff.mp (boundary earlier isEarlier).next
      rw [← same]
      apply (boundary later isLater).below
      exact mem_of_getElem? ((getElem?_take_of_lt (by omega)).trans next)

theorem five_pairs_cut :
    ∃ last inner, dpIntervals id 3 [(1, 2), (1, 4), (2, 6), (2, 0), (3, 3)] = last :: inner ∧
      CutInto (id : Nat → Nat) 3 [(1, 2), (1, 4), (2, 6), (2, 0), (3, 3)] last inner :=
  dpIntervals_cut id _ (by decide) (by unfold SortedBy; decide) (by decide)

/-! ## The estimate of the initial phase -/

/-- `aqp_optimization_strategy` -/
inductive Strategy where
  | dp
  | optStrat
  | equalStrat
  deriving DecidableEq, Repr

/-- Optimal strata end wherever the key changes. -/
def Strategy.closes (strategy : Strategy) (count m : Nat) (closed : List (Interval δ))
    (c i : Nat) : Bool :=
  match strategy with
  | .dp => dpCloses count m closed c i
  | _ => true

variable (value)

/-- What the recorded pairs leave in the statistics of partition 0.  The transition function
accumulates for equal strata only.  A single pair leaves the others at zero. -/
def initialStats (strategy : Strategy) (count : Nat) (sort : List (δ × ℚ) → List (δ × ℚ))
    (pairs : List (δ × ℚ)) : PartStats :=
  if strategy = .equalStrat then
    ((pairs.map fun pair => some pair.2).foldl (accumSample false) (⟨0, 0, 0⟩, 0)).1
  else if pairs.length ≤ 1 then ⟨0, 0, 0⟩
  else
    match sort pairs with
    | [] => ⟨0, 0, 0⟩
    | (key, x) :: rest =>
      (cutLoop value (strategy.closes count (1 + changes key rest)) [] 1 key ⟨1, x, 0⟩ rest).2.stats

/-- `mu_total` after phase 0, in which `fetched` samples were drawn. -/
def initialMean (strategy : Strategy) (count : Nat) (sort : List (δ × ℚ) → List (δ × ℚ))
    (pairs : List (δ × ℚ)) (fetched : Nat) : ℚ :=
  ((PartStats.addZero false)^[fetched - pairs.length]
    (initialStats value strategy count sort pairs)).mu

variable {pairs : List (δ × ℚ)}

theorem addZeros_mu (tracks : s.Tracks xs) (enough : xs.length ≤ fetched) :
    ((PartStats.addZero false)^[fetched - xs.length] s).mu = xs.sum / fetched := by
  rw [(addZeros_tracks tracks _).mean, mean, length_append, length_replicate,
    Nat.add_sub_cancel' enough]
  simp

theorem initialMean_eq_iff (strategy : Strategy) (count : Nat) {sort : List (δ × ℚ) → List (δ × ℚ)}
    (sorts : ∀ pairs, SortedBy value (sort pairs) ∧ (sort pairs).Perm pairs)
    (enough : pairs.length ≤ fetched) :
    initialMean value strategy count sort pairs fetched = (pairs.map Prod.snd).sum / fetched ↔
      strategy = .equalStrat ∨ ∀ pair, pairs = [pair] → pair.2 = 0 := by
  have exact {xs} (tracks : (initialStats value strategy count sort pairs).Tracks xs)
      (same : xs.Perm (pairs.map Prod.snd)) :
      initialMean value strategy count sort pairs fetched = (pairs.map Prod.snd).sum / fetched := by
    have length := same.length_eq.trans (length_map _)
    rw [initialMean, ← same.sum_eq, ← length]
    exact addZeros_mu tracks (length ▸ enough)
  by_cases equal : strategy = .equalStrat
  · refine iff_of_true (exact ?_ .rfl) (.inl equal)
    rw [initialStats, if_pos equal]
    simpa [filterMap_map] using
      (accumSamples_tracks empty_tracks (pairs.map fun pair => some pair.2) 0).1
  · rw [or_iff_right equal]
    rcases pairs with _ | ⟨pair, _ | ⟨second, rest⟩⟩
    · exact iff_of_true (exact (by simpa [initialStats, equal] using empty_tracks) .rfl) (by simp)
    · have zero : initialMean value strategy count sort [pair] fetched = 0 := by
        rw [initialMean, initialStats, if_neg equal, if_pos (by simp),
          (addZeros_tracks empty_tracks _).mean]
        simp [mean]
      have some : fetched ≠ 0 := Nat.ne_zero_of_lt enough
      rw [zero]
      simp [some, eq_comm]
    · refine iff_of_true (exact ?_ ((sorts _).2.map _)) (by simp)
      rw [initialStats, if_neg equal, if_neg (by simp)]
      obtain ⟨sorted, same⟩ := sorts (pair :: second :: rest)
      cases isSorted : sort (pair :: second :: rest) with
      | nil => simp [isSorted] at same
      | cons first others =>
        rw [isSorted] at sorted
        exact (cutLoop_spec _ 1 sorted singleton_append (single_tracks first.2) mem_cons_self
          (by simp) (forall_mem_nil _)).2

def sortPairs (pairs : List (Nat × ℚ)) : List (Nat × ℚ) :=
  pairs.insertionSort (Order.Preimage Prod.fst (· ≤ ·))

theorem sortPairs_sorts (pairs : List (Nat × ℚ)) :
    SortedBy (id : Nat → Nat) (sortPairs pairs) ∧ (sortPairs pairs).Perm pairs :=
  have : Std.Total (Order.Preimage (Prod.fst : Nat × ℚ → Nat) (· ≤ ·)) :=
    ⟨fun first second => le_total first.1 second.1⟩
  have : IsTrans (Nat × ℚ) (Order.Preimage Prod.fst (· ≤ ·)) := ⟨fun _ _ _ => Nat.le_trans⟩
  ⟨pairwise_insertionSort _ pairs, perm_insertionSort _ pairs⟩

theorem two_pairs_mean : sortPairs [(2, 3), (1, 5)] = [(1, 5), (2, 3)] ∧
    initialMean (id : Nat → Nat) .dp 100 sortPairs [(2, 3), (1, 5)] 4 =
      ([((2 : Nat), (3 : ℚ)), (1, 5)].map Prod.snd).sum / (4 : Nat) :=
  ⟨by decide +kernel,
    (initialMean_eq_iff _ .dp 100 sortPairs_sorts (by decide)).mpr (.inr (by simp))⟩

/-- One accepted sample out of one, with the value 5. -/
theorem single_pair_lost : initialMean (id : Nat → Nat) .dp 100 id [(0, 5)] 1 = 0 ∧
    ([((0 : Nat), (5 : ℚ))].map Prod.snd).sum / (1 : Nat) = 5 := by
  decide +kernel

end PgAqp.Progressive
