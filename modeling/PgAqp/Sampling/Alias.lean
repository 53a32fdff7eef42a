import Mathlib.Algebra.BigOperators.Ring.Finset
import Mathlib.Algebra.Order.BigOperators.Group.Finset
import Mathlib.Algebra.Order.Ring.Int
import Mathlib.Logic.Function.Basic

/-!
# Walker's alias structure

The weight `S` of `n` items is spread over `n` buckets of `S / n` units, and one more in the
first `S % n` of them.  A bucket whose item is too light is filled up from an item that is too
heavy, its alias.
-/

namespace PgAqp.Sampling

open Finset

/-- `aqp_get_bucket_weight`. -/
def getBucketWeight (q r i : Nat) : Nat := if i < r then q + 1 else q

/-- A bucket weight in one of the `uint32` variables `w` and `w2`. -/
def bucketWeight32 (q r i : Nat) : Nat := getBucketWeight q r i % 4294967296

/-- `0xffffffff`, the alias of an item that has none. -/
def noAlias : Nat := 4294967295

/-- The arrays and indices of `aqp_alias_u64_create`.  An entry of `remitems` is `none` until
it is written. -/
structure AliasState where
  weights : Nat → Nat
  aliases : Nat → Nat
  remitems : Nat → Option Nat
  pi : Nat
  ni : Nat

namespace AliasState

/-- Read one of the `n` entries of `remitems`. -/
def read (s : AliasState) (n index : Nat) : Option Nat :=
  if index < n then s.remitems index else none

/-- Write one of the `n` entries of `remitems`. -/
def write (s : AliasState) (n index item : Nat) : Option AliasState :=
  if index < n then some { s with remitems := Function.update s.remitems index (some item) }
  else none

/-- Sort an item into `remitems`. -/
def classify (n : Nat) (target : Nat → Nat) (s : AliasState) (i : Nat) : Option AliasState :=
  if s.weights i < target i then
    (s.write n s.pi i).map fun next => { next with pi := s.pi + 1 }
  else if target i < s.weights i then
    match s.ni with
    | 0 => none
    | ni + 1 => (s.write n ni i).map fun next => { next with ni := ni }
  else some s

/-- `w = w - weights[i]` in a `uint32` variable. -/
def missing (target ws : Nat → Nat) (i : Nat) : Nat :=
  (target i + 18446744073709551616 - ws i) % 4294967296

/-- `weights[j] -= w` on 64 bits. -/
def residual (ws : Nat → Nat) (j w : Nat) : Nat :=
  (ws j + 18446744073709551616 - w) % 18446744073709551616

/-- `aliases[i] = j; weights[j] -= w`. -/
def assign (target : Nat → Nat) (s : AliasState) (i j : Nat) : AliasState :=
  { s with
    aliases := Function.update s.aliases i j
    weights := Function.update s.weights j
      (residual s.weights j (missing target s.weights i)) }

def pairStep (n : Nat) (target : Nat → Nat) (s : AliasState) : Option AliasState :=
  (s.read n (s.pi - 1)).bind fun i =>
    (s.read n s.ni).bind fun j =>
      let next := assign target s i j
      if next.weights j < target j then
        (next.write n (s.pi - 1) j).map fun final => { final with ni := s.ni + 1 }
      else if next.weights j = target j then
        some { next with ni := s.ni + 1, pi := s.pi - 1 }
      else some { next with pi := s.pi - 1 }

/-- The pairing loop, if it ends within `fuel` iterations. -/
def pairLoop (n : Nat) (target : Nat → Nat) : Nat → AliasState → Option AliasState
  | 0, s => if s.pi = 0 then some s else none
  | fuel + 1, s =>
    if s.pi = 0 then some s else (pairStep n target s).bind (pairLoop n target fuel)

def start (ws : Nat → Nat) (n : Nat) : AliasState :=
  ⟨ws, fun _ => noAlias, fun _ => none, 0, n⟩

end AliasState

/-- `aqp_alias_u64`. -/
structure AliasU64 where
  cutoffs : Nat → Nat
  aliases : Nat → Nat
  q : Nat
  r : Nat
  n : Nat

/-- `S`, added up on 64 bits. -/
def sumWeights (ws : Nat → Nat) : Nat → Nat
  | 0 => 0
  | n + 1 => (sumWeights ws n + ws n) % 18446744073709551616

/-- `aqp_alias_u64_create`, with a bound on the iterations of the pairing loop.  There is no
result for a division by zero, an access outside `remitems` or a read of an entry that was not
written. -/
def aliasCreate (fuel : Nat) (ws : Nat → Nat) (n : Nat) : Option AliasU64 :=
  if n = 0 then none
  else
    let q := sumWeights ws n / n
    let r := sumWeights ws n % n
    let target := bucketWeight32 q r
    ((List.range n).foldlM (AliasState.classify n target) (.start ws n)).bind fun sorted =>
      (AliasState.pairLoop n target fuel sorted).map fun paired =>
        ⟨paired.weights, paired.aliases, q, r, n⟩

theorem sumWeights_eq (fits : ∑ i ∈ range n, ws i < 18446744073709551616) :
    sumWeights ws n = ∑ i ∈ range n, ws i := by
  induction n with
  | zero => rfl
  | succ n ih =>
    rw [sum_range_succ] at fits ⊢
    rw [sumWeights, ih (by omega), Nat.mod_eq_of_lt fits]

/-! ## Two stacks in one array -/

/-- A stack from the start of an array, its top first. -/
def Below (es : Nat → Option Nat) : List Nat → Prop
  | [] => True
  | item :: rest => es rest.length = some item ∧ Below es rest

/-- A stack from an index towards the end of an array, its top first. -/
def Above (es : Nat → Option Nat) : Nat → List Nat → Prop
  | _, [] => True
  | index, item :: rest => es index = some item ∧ Above es (index + 1) rest

variable {items : List Nat} {item n : Nat}

theorem Below.update (pile : Below es items) (behind : items.length ≤ index) :
    Below (Function.update es index (some item)) items := by
  induction items with
  | nil => trivial
  | cons top rest ih =>
    rw [List.length_cons] at behind
    refine ⟨?_, ih pile.2 (by omega)⟩
    rw [Function.update_of_ne (by omega)]
    exact pile.1

theorem Above.update (pile : Above es first items) (pre : index < first) :
    Above (Function.update es index (some item)) first items := by
  induction items generalizing first with
  | nil => trivial
  | cons top rest ih =>
    refine ⟨?_, ih pile.2 (by omega)⟩
    rw [Function.update_of_ne (by omega)]
    exact pile.1

/-- The light and the heavy items in `remitems`. -/
structure AliasState.Piles (n : Nat) (s : AliasState) (light heavy : List Nat) : Prop where
  pi : s.pi = light.length
  ni : s.ni + heavy.length = n
  apart : s.pi ≤ s.ni
  below : Below s.remitems light
  above : Above s.remitems s.ni heavy

namespace AliasState

variable {s : AliasState} {target : Nat → Nat} {light heavy : List Nat} {i j : Nat}

theorem Piles.readLight (piles : s.Piles n (i :: light) heavy) : s.read n (s.pi - 1) = some i := by
  obtain ⟨pi, ni, apart, below, -⟩ := piles
  rw [List.length_cons] at pi
  rw [read, if_pos (by omega), pi]
  exact below.1

theorem Piles.readHeavy (piles : s.Piles n light (j :: heavy)) : s.read n s.ni = some j := by
  obtain ⟨-, ni, -, -, above⟩ := piles
  rw [List.length_cons] at ni
  rw [read, if_pos (by omega)]
  exact above.1

/-- Which stacks an item moves between when it has given up a part of its weight. -/
def regroup (target : Nat → Nat) (rest j : Nat) (light heavy : List Nat) : List Nat × List Nat :=
  if rest < target j then (j :: light, heavy)
  else if rest = target j then (light, heavy)
  else (light, j :: heavy)

theorem Piles.pairStep (piles : s.Piles n (i :: light) (j :: heavy)) :
    ∃ next, s.pairStep n target = some next ∧
      next.weights = (assign target s i j).weights ∧
      next.aliases = Function.update s.aliases i j ∧
      next.Piles n (regroup target (next.weights j) j light heavy).1
        (regroup target (next.weights j) j light heavy).2 := by
  have isLight := piles.readLight
  have isHeavy := piles.readHeavy
  obtain ⟨pi, ni, apart, below, above⟩ := piles
  rw [List.length_cons] at pi ni
  simp only [AliasState.pairStep, isLight, isHeavy, Option.bind_some]
  split
  next less =>
    rw [write, if_pos (by omega), Option.map_some]
    refine ⟨_, rfl, rfl, rfl, ?_⟩
    simp only [regroup, less, if_true]
    refine ⟨pi, by simp only; omega, by simp only [assign]; omega, ⟨?_, ?_⟩, ?_⟩
    · simp [pi]
    · exact below.2.update (by omega)
    · exact above.2.update (by omega)
  next notLess =>
    split
    next same =>
      refine ⟨_, rfl, rfl, rfl, ?_⟩
      simp only [regroup, same, Nat.lt_irrefl, if_false, if_true]
      exact ⟨by simp only; omega, by simp only; omega, by simp only; omega, below.2, above.2⟩
    next notSame =>
      refine ⟨_, rfl, rfl, rfl, ?_⟩
      simp only [regroup, notLess, notSame, if_false]
      exact ⟨by simp only; omega, ni, by simp only [assign]; omega, below.2, above⟩

/-- The first loop up to an item: the light and the heavy items so far. -/
theorem classify_run (ws target : Nat → Nat) (within : m ≤ n) :
    ∃ s light heavy, (List.range m).foldlM (classify n target) (start ws n) = some s ∧
      s.weights = ws ∧ s.aliases = (fun _ => noAlias) ∧
      s.Piles n light heavy ∧ light.length + heavy.length ≤ m ∧ light.Nodup ∧ heavy.Nodup ∧
      (∀ k, k ∈ light ↔ k < m ∧ ws k < target k) ∧
      ∀ k, k ∈ heavy ↔ k < m ∧ target k < ws k := by
  induction m with
  | zero =>
    exact ⟨start ws n, [], [], rfl, rfl, rfl, ⟨rfl, rfl, Nat.zero_le n, trivial, trivial⟩, by simp⟩
  | succ m ih =>
    obtain ⟨s, light, heavy, done, same, aliases, piles, length, lightOnce, heavyOnce,
      isLight, isHeavy⟩ := ih (by omega)
    obtain ⟨pi, ni, apart, below, above⟩ := piles
    rw [List.range_succ, List.foldlM_append, done]
    simp only [List.foldlM_cons, List.foldlM_nil, Option.bind_eq_bind, Option.bind_some,
      classify, same]
    split
    · rw [write, if_pos (by omega)]
      refine ⟨_, m :: light, heavy, rfl, same, aliases, ⟨by simp [pi], ni, by simp only; omega,
        ⟨by simp [pi], below.update (by omega)⟩, above.update (by omega)⟩, ?_⟩
      grind
    · split
      · obtain ⟨last, isLast⟩ : ∃ last, s.ni = last + 1 := ⟨s.ni - 1, by omega⟩
        simp only [isLast]
        rw [write, if_pos (by omega)]
        refine ⟨_, light, m :: heavy, rfl, same, aliases, ⟨pi,
          by simp only [List.length_cons]; omega, by simp only; omega,
          below.update (by omega), ⟨by simp, ?_⟩⟩, ?_⟩
        · exact isLast ▸ above.update (by omega)
        · grind
      · grind

/-! ## The pairing loop -/

/-- What an item without an alias has more than its bucket. -/
def excess (target : Nat → Nat) (s : AliasState) (k : Nat) : Int :=
  if s.aliases k = noAlias then (s.weights k : Int) - target k else 0

/-- The items without an alias have no less weight than their buckets, an item that was too
light is left alone, and the stacks hold what is too light or too heavy. -/
structure Pairing (n : Nat) (ws target : Nat → Nat) (s : AliasState)
    (light heavy : List Nat) : Prop where
  isLight : ∀ k, k ∈ light ↔ k < n ∧ s.aliases k = noAlias ∧ s.weights k < target k
  isHeavy : ∀ k, k ∈ heavy ↔ k < n ∧ s.aliases k = noAlias ∧ target k < s.weights k
  lightOnce : light.Nodup
  heavyOnce : heavy.Nodup
  enough : 0 ≤ ∑ k ∈ range n, excess target s k
  untouched : ∀ k < n, ws k < target k →
    s.weights k = ws k ∧ ∀ b, s.aliases b ≠ k
  fits : ∀ k < n, s.weights k < 18446744073709551616

/-- The bounds under which the arithmetic of the loop is looked at. -/
structure Targets (n : Nat) (target : Nat → Nat) : Prop where
  items : n ≤ noAlias
  small : ∀ k, target k < 4294967296

variable {ws : Nat → Nat} {next : AliasState}

theorem missing_eq (small : target i < 4294967296) (less : s.weights i < target i) :
    missing target s.weights i = target i - s.weights i := by
  unfold missing
  omega

theorem residual_cases (fits : ws j < 18446744073709551616) (small : w < 4294967296) :
    (w ≤ ws j ∧ residual ws j w = ws j - w) ∨
      ws j < w ∧ residual ws j w = ws j + 18446744073709551616 - w := by
  unfold residual
  omega

/-- An iteration moves the missing weight from one item to another. -/
structure Paired (target : Nat → Nat) (s next : AliasState) (i j : Nat) : Prop where
  apart : i ≠ j
  fromLight : s.weights i < target i ∧ s.aliases i = noAlias
  fromHeavy : target j < s.weights j ∧ s.aliases j = noAlias
  aliases : next.aliases = Function.update s.aliases i j
  weights : next.weights = Function.update s.weights j (next.weights j)
  moved : (target i - s.weights i ≤ s.weights j ∧
      next.weights j + (target i - s.weights i) = s.weights j) ∨
    s.weights j < target i - s.weights i ∧
      next.weights j + (target i - s.weights i) = s.weights j + 18446744073709551616

theorem Pairing.paired (inv : Pairing n ws target s (i :: light) (j :: heavy))
    (bounds : Targets n target) (changed : next.weights = (assign target s i j).weights)
    (aliases : next.aliases = Function.update s.aliases i j) :
    Paired target s next i j := by
  obtain ⟨-, noAliasI, less⟩ := (inv.isLight i).mp List.mem_cons_self
  obtain ⟨inside, noAliasJ, greater⟩ := (inv.isHeavy j).mp List.mem_cons_self
  have small := bounds.small i
  have left : next.weights j = residual s.weights j (target i - s.weights i) := by
    rw [changed, ← missing_eq small less]
    exact Function.update_self _ _ _
  refine ⟨?_, ⟨less, noAliasI⟩, ⟨greater, noAliasJ⟩, aliases, ?_, ?_⟩
  · rintro rfl
    omega
  · rw [left, changed, ← missing_eq small less]
    rfl
  · rcases residual_cases (inv.fits j inside) (show target i - s.weights i < _ by omega) with
      ⟨le, isLeft⟩ | ⟨lt, isLeft⟩
    · exact .inl ⟨le, by omega⟩
    · exact .inr ⟨lt, by omega⟩

/-- The excess of the items stays the same, or a wrapped subtraction has added to it. -/
theorem Paired.sum_excess (pair : Paired target s next i j) (iInside : i < n) (jInside : j < n)
    (bounds : Targets n target) :
    ∑ k ∈ range n, excess target next k = ∑ k ∈ range n, excess target s k +
      ((next.weights j + (target i - s.weights i) : Nat) - (s.weights j : Int)) := by
  obtain ⟨apart, ⟨less, noAliasI⟩, ⟨greater, noAliasJ⟩, aliases, changed, -⟩ := pair
  have isAlias : j ≠ noAlias := by
    have := bounds.items
    omega
  have change : ∑ k ∈ range n, (excess target next k - excess target s k) =
      (excess target next i - excess target s i) + (excess target next j - excess target s j) := by
    refine sum_eq_add_of_mem i j (mem_range.mpr iInside) (mem_range.mpr jInside) apart ?_
    rintro k - ⟨notI, notJ⟩
    rw [excess, excess, aliases, changed, Function.update_of_ne notI,
      Function.update_of_ne notJ, sub_self]
  have atI : excess target next i = 0 := by
    rw [excess, aliases, Function.update_self, if_neg isAlias]
  have atJ : excess target next j = (next.weights j : Int) - target j := by
    rw [excess, aliases, Function.update_of_ne (apart.symm), if_pos noAliasJ]
  rw [sum_sub_distrib, atI, atJ, excess, excess, if_pos noAliasI, if_pos noAliasJ] at change
  omega

/-- Step: an iteration keeps the invariant. -/
theorem Pairing.step (inv : Pairing n ws target s (i :: light) (j :: heavy))
    (bounds : Targets n target) (pair : Paired target s next i j) :
    Pairing n ws target next (regroup target (next.weights j) j light heavy).1
      (regroup target (next.weights j) j light heavy).2 := by
  have iInside := ((inv.isLight i).mp List.mem_cons_self).1
  have jInside := ((inv.isHeavy j).mp List.mem_cons_self).1
  have sums := pair.sum_excess iInside jInside bounds
  obtain ⟨lightOnce, heavyOnce⟩ := And.intro inv.lightOnce inv.heavyOnce
  have isAlias : j ≠ noAlias := by
    have := bounds.items
    omega
  obtain ⟨apart, ⟨less, noAliasI⟩, ⟨greater, noAliasJ⟩, aliases, changed, moved⟩ := pair
  have atI : next.aliases i = j := by rw [aliases, Function.update_self]
  have elsewhere (k : Nat) (notI : k ≠ i) : next.aliases k = s.aliases k := by
    rw [aliases, Function.update_of_ne notI]
  have unchanged (k : Nat) (notJ : k ≠ j) : next.weights k = s.weights k := by
    rw [changed, Function.update_of_ne notJ]
  have lightRest (k : Nat) : k ∈ light ↔ k ≠ i ∧ k < n ∧ s.aliases k = noAlias ∧
      s.weights k < target k := by
    have := inv.isLight k
    grind
  have heavyRest (k : Nat) : k ∈ heavy ↔ k ≠ j ∧ k < n ∧ s.aliases k = noAlias ∧
      target k < s.weights k := by
    have := inv.isHeavy k
    grind
  refine ⟨fun k => ?_, fun k => ?_, ?_, ?_, ?_, fun k inside wasLight => ?_, fun k inside => ?_⟩
  · rcases eq_or_ne k j with rfl | notJ <;> grind [regroup]
  · rcases eq_or_ne k j with rfl | notJ <;> grind [regroup]
  · grind [regroup]
  · grind [regroup]
  · have := inv.enough
    omega
  · obtain ⟨same, noTarget⟩ := inv.untouched k inside wasLight
    have notJ : k ≠ j := by
      rintro rfl
      omega
    refine ⟨(unchanged k notJ).trans same, fun b => ?_⟩
    rcases eq_or_ne b i with rfl | notI
    · rw [atI]
      exact notJ.symm
    · rw [elsewhere b notI]
      exact noTarget b
  · have fits := inv.fits k inside
    rcases eq_or_ne k j with rfl | notJ
    · omega
    · rw [unchanged k notJ]
      exact fits

theorem Pairing.heavy_ne_nil (inv : Pairing n ws target s (i :: light) heavy) : heavy ≠ [] := by
  rintro rfl
  obtain ⟨inside, noAliasI, less⟩ := (inv.isLight i).mp List.mem_cons_self
  have notHeavy : ∀ k ∈ range n, excess target s k ≤ 0 := by
    intro k mem
    rw [excess]
    split
    next unaliased =>
      have := mt (fun greater => (inv.isHeavy k).mpr ⟨mem_range.mp mem, unaliased, greater⟩)
        List.not_mem_nil
      omega
    · exact le_refl 0
  have negative : ∑ k ∈ range n, excess target s k < 0 := by
    refine sum_neg' notHeavy ⟨i, mem_range.mpr inside, ?_⟩
    rw [excess, if_pos noAliasI]
    omega
  exact absurd inv.enough (not_le.mpr negative)

theorem pairLoop_done (done : s.pi = 0) : pairLoop n target fuel s = some s := by
  cases fuel <;> rw [pairLoop, if_pos done]

/-- Run: the loop ends after at most as many iterations as there are items on the stacks, it
stays inside the array, and what every iteration keeps holds at the end. -/
theorem Pairing.run (keeps : AliasState → Prop) (bounds : Targets n target)
    (step : ∀ s next i j, i < n → j < n → keeps s → Paired target s next i j → keeps next) :
    ∀ (fuel : Nat) (s : AliasState) (light heavy : List Nat),
      Pairing n ws target s light heavy → s.Piles n light heavy → keeps s →
      light.length + heavy.length ≤ fuel →
      ∃ final rest, pairLoop n target fuel s = some final ∧
        Pairing n ws target final [] rest ∧ keeps final := by
  intro fuel
  induction fuel with
  | zero =>
    intro s light heavy inv piles kept short
    obtain rfl : light = [] := List.length_eq_zero_iff.mp (by omega)
    exact ⟨s, heavy, pairLoop_done piles.pi, inv, kept⟩
  | succ fuel ih =>
    intro s light heavy inv piles kept short
    cases light with
    | nil => exact ⟨s, heavy, pairLoop_done piles.pi, inv, kept⟩
    | cons i light =>
      obtain ⟨j, heavy, rfl⟩ := List.exists_cons_of_ne_nil inv.heavy_ne_nil
      obtain ⟨next, stepped, changed, aliases, nextPiles⟩ := piles.pairStep
      have pair := inv.paired bounds changed aliases
      have iInside := ((inv.isLight i).mp List.mem_cons_self).1
      have jInside := ((inv.isHeavy j).mp List.mem_cons_self).1
      have notDone : s.pi ≠ 0 := by simp [piles.pi]
      rw [pairLoop, if_neg notDone, stepped, Option.bind_some]
      refine ih next _ _ (inv.step bounds pair) nextPiles
        (step s next i j iInside jInside kept pair) ?_
      simp only [List.length_cons] at short
      unfold regroup
      split
      · simp only [List.length_cons]
        omega
      · split <;> simp only [List.length_cons] <;> omega

/-! ## Without truncation -/

/-- The weight that the buckets of other items hold for an item. -/
def held (n : Nat) (target : Nat → Nat) (s : AliasState) (k : Nat) : Nat :=
  ∑ b ∈ range n, if s.aliases b = k then target b - s.weights b else 0

/-- Nothing was lost: every item has its weight in its own bucket and in those it fills up. -/
structure Balanced (n q : Nat) (ws target : Nat → Nat) (s : AliasState) : Prop where
  even : ∑ k ∈ range n, excess target s k = 0
  filled : ∀ b < n, s.aliases b ≠ noAlias → s.weights b < target b
  conserved : ∀ k < n, s.weights k + held n target s k = ws k
  least : (∀ k < n, q ≤ ws k) → ∀ k < n, q ≤ s.weights k

theorem Paired.held (pair : Paired target s next i j) (iInside : i < n)
    (bounds : Targets n target) (inside : k < n) :
    held n target next k = held n target s k + if j = k then target i - s.weights i else 0 := by
  obtain ⟨apart, ⟨-, noAliasI⟩, ⟨-, noAliasJ⟩, aliases, changed, -⟩ := pair
  have isItem : noAlias ≠ k := by
    have := bounds.items
    omega
  have single : ∑ b ∈ range n,
      (if b = i then (if j = k then target i - s.weights i else 0) else 0) =
      if j = k then target i - s.weights i else 0 := by
    rw [sum_ite_eq', if_pos (mem_range.mpr iInside)]
  rw [AliasState.held, AliasState.held, ← single, ← sum_add_distrib]
  refine sum_congr rfl fun b _ => ?_
  rw [aliases, changed]
  rcases eq_or_ne b i with rfl | notI
  · rw [Function.update_self, Function.update_of_ne apart, noAliasI, if_neg isItem, if_pos rfl,
      Nat.zero_add]
  · rw [Function.update_of_ne notI, if_neg notI, Nat.add_zero]
    rcases eq_or_ne b j with rfl | notJ
    · rw [noAliasJ, if_neg isItem, if_neg isItem]
    · rw [Function.update_of_ne notJ]

/-- Step: buckets that differ by at most one unit stay balanced. -/
theorem Balanced.step (bounds : Targets n target)
    (near : ∀ k, q ≤ target k ∧ target k ≤ q + 1) (iInside : i < n) (jInside : j < n)
    (inv : Balanced n q ws target s) (pair : Paired target s next i j) :
    Balanced n q ws target next := by
  have sums := pair.sum_excess iInside jInside bounds
  have holds (k : Nat) (inside : k < n) := pair.held iInside bounds inside
  obtain ⟨apart, ⟨less, noAliasI⟩, ⟨greater, noAliasJ⟩, aliases, changed, moved⟩ := pair
  have nearI := near i
  have nearJ := near j
  have unchanged (k : Nat) (notJ : k ≠ j) : next.weights k = s.weights k := by
    rw [changed, Function.update_of_ne notJ]
  refine ⟨?_, fun b inside aliased => ?_, fun k inside => ?_, fun all k inside => ?_⟩
  · have := inv.even
    omega
  · have notJ : b ≠ j := by
      rintro rfl
      rw [aliases, Function.update_of_ne (apart.symm)] at aliased
      exact aliased noAliasJ
    rw [unchanged b notJ]
    rcases eq_or_ne b i with rfl | notI
    · exact less
    · rw [aliases, Function.update_of_ne notI] at aliased
      exact inv.filled b inside aliased
  · have conserved := inv.conserved k inside
    rw [holds k inside]
    rcases eq_or_ne j k with rfl | notK
    · rw [if_pos rfl]
      omega
    · rw [if_neg notK, unchanged k (notK.symm)]
      exact conserved
  · have least := inv.least all
    rcases eq_or_ne k j with rfl | notJ
    · have := least i iInside
      omega
    · rw [unchanged k notJ]
      exact least k inside

/-- When no item is too light any more, none is too heavy either. -/
theorem Balanced.cutoff (inv : Balanced n q ws target s) (done : Pairing n ws target s [] heavy)
    (inside : k < n) (unaliased : s.aliases k = noAlias) : s.weights k = target k := by
  have nonneg : ∀ b ∈ range n, 0 ≤ excess target s b := by
    intro b mem
    rw [excess]
    split
    next free =>
      have := mt (fun less => (done.isLight b).mpr ⟨mem_range.mp mem, free, less⟩) List.not_mem_nil
      omega
    · exact le_refl 0
  have zero := (sum_eq_zero_iff_of_nonneg nonneg).mp inv.even k (mem_range.mpr inside)
  rw [excess, if_pos unaliased] at zero
  omega

theorem Balanced.cutoff_le (inv : Balanced n q ws target s)
    (done : Pairing n ws target s [] heavy) (inside : k < n) :
    s.weights k ≤ target k := by
  by_cases unaliased : s.aliases k = noAlias
  · exact (inv.cutoff done inside unaliased).le
  · exact (inv.filled k inside unaliased).le

end AliasState

/-! ## The whole construction -/

theorem sum_getBucketWeight (within : r ≤ n) :
    ∑ i ∈ range n, getBucketWeight q r i = n * q + r := by
  have extra (m : Nat) : ∑ i ∈ range m, getBucketWeight q r i = m * q + min m r := by
    induction m with
    | zero => simp
    | succ m ih =>
      rw [sum_range_succ, ih, getBucketWeight, Nat.succ_mul]
      split <;> omega
  rw [extra, Nat.min_eq_right within]

variable {ws : Nat → Nat} {fuel : Nat}

/-- `Q`, if the sum fits. -/
def average (ws : Nat → Nat) (n : Nat) : Nat := (∑ k ∈ range n, ws k) / n

/-- The capacity of a bucket: `S / n`, and one more for the first `S % n` buckets. -/
def capacity (ws : Nat → Nat) (n i : Nat) : Nat :=
  getBucketWeight (average ws n) ((∑ k ∈ range n, ws k) % n) i

theorem capacity_near (ws : Nat → Nat) (n k : Nat) :
    average ws n ≤ capacity ws n k ∧ capacity ws n k ≤ average ws n + 1 := by
  unfold capacity getBucketWeight
  split <;> omega

def AliasState.table (s : AliasState) (ws : Nat → Nat) (n : Nat) : AliasU64 :=
  ⟨s.weights, s.aliases, average ws n, (∑ k ∈ range n, ws k) % n, n⟩

theorem sum_capacity (items : 0 < n) : ∑ i ∈ range n, capacity ws n i = ∑ i ∈ range n, ws i := by
  unfold capacity average
  rw [sum_getBucketWeight ((Nat.mod_lt _ items).le), Nat.div_add_mod]

theorem aliasCreate_spec (keeps : AliasState → Prop) (items : 0 < n) (isUint32 : n < 4294967296)
    (fits : ∑ k ∈ range n, ws k < 18446744073709551616) (enough : n ≤ fuel)
    (starts : ∀ s : AliasState, s.weights = ws → s.aliases = (fun _ => noAlias) → keeps s)
    (step : ∀ s next i j, i < n → j < n → keeps s →
      AliasState.Paired (fun k => capacity ws n k % 4294967296) s next i j → keeps next) :
    ∃ (final : AliasState) (heavy : List Nat), aliasCreate fuel ws n = some (final.table ws n) ∧
      final.Pairing n ws (fun k => capacity ws n k % 4294967296) [] heavy ∧
      keeps final := by
  have bounds : AliasState.Targets n (fun k => capacity ws n k % 4294967296) :=
    ⟨Nat.le_of_lt_succ isUint32, fun k => Nat.mod_lt _ (by decide)⟩
  obtain ⟨sorted, light, heavy, done, same, aliases, piles, length, lightOnce, heavyOnce, isLight,
    isHeavy⟩ := AliasState.classify_run ws (fun k => capacity ws n k % 4294967296) (Nat.le_refl n)
  have free (k : Nat) : sorted.aliases k = noAlias := by rw [aliases]
  have inv : sorted.Pairing n ws (fun k => capacity ws n k % 4294967296) light heavy := by
    refine ⟨fun k => ?_, fun k => ?_, lightOnce, heavyOnce, ?_,
      fun k inside less => ⟨?_, fun b => ?_⟩, fun k inside => ?_⟩
    · rw [isLight, free, same]
      simp
    · rw [isHeavy, free, same]
      simp
    · have total : ∑ k ∈ range n, ((ws k : Int) - capacity ws n k) = 0 := by
        rw [sum_sub_distrib, ← Nat.cast_sum, ← Nat.cast_sum, sum_capacity items, sub_self]
      rw [← total]
      refine sum_le_sum fun k _ => ?_
      rw [AliasState.excess, if_pos (free k), same]
      omega
    · rw [same]
    · rw [free]
      have : n ≤ noAlias := bounds.items
      omega
    · rw [same]
      exact Nat.lt_of_le_of_lt
        (single_le_sum (fun _ _ => Nat.zero_le _) (mem_range.mpr inside)) fits
  obtain ⟨final, rest, paired, finalInv, kept⟩ :=
    AliasState.Pairing.run keeps bounds step fuel sorted light heavy inv piles
      (starts sorted same aliases) (length.trans enough)
  refine ⟨final, rest, ?_, finalInv, kept⟩
  rw [aliasCreate, if_neg (items.ne'), sumWeights_eq fits]
  exact (congrArg (Option.bind · _) done).trans (congrArg (Option.map _) paired)

/-- The construction ends after at most `n` iterations of the pairing loop and stays inside the
work array, also where the bucket weights are truncated. -/
theorem alias_pairing_finishes (items : 0 < n) (isUint32 : n < 4294967296)
    (fits : ∑ k ∈ range n, ws k < 18446744073709551616) (enough : n ≤ fuel) :
    (aliasCreate fuel ws n).isSome = true := by
  obtain ⟨final, heavy, built, -⟩ := aliasCreate_spec (fun _ => True) items isUint32 fits enough
    (fun _ _ _ => trivial) (fun _ _ _ _ _ _ _ _ => trivial)
  rw [built]
  rfl

theorem alias_pairing_two : (aliasCreate 2 (fun i => 2 * i) 2).isSome = true :=
  alias_pairing_finishes (by decide) (by decide) (by decide) (by decide)

theorem aliasCreate_balanced (items : 0 < n) (isUint32 : n < 4294967296)
    (small : average ws n + 1 < 4294967296) (enough : n ≤ fuel) :
    ∃ (final : AliasState) (heavy : List Nat), aliasCreate fuel ws n = some (final.table ws n) ∧
      final.Pairing n ws (capacity ws n) [] heavy ∧
      final.Balanced n (average ws n) ws (capacity ws n) := by
  have fits : ∑ k ∈ range n, ws k < 18446744073709551616 := by
    have := (Nat.div_lt_iff_lt_mul items).mp (Nat.lt_sub_of_add_lt small)
    omega
  have near := capacity_near ws n
  have exact : (fun k => capacity ws n k % 4294967296) = capacity ws n := by
    funext k
    exact Nat.mod_eq_of_lt ((near k).2.trans_lt small)
  have bounds : AliasState.Targets n (capacity ws n) :=
    ⟨Nat.le_of_lt_succ isUint32, fun k => (near k).2.trans_lt small⟩
  have spec := aliasCreate_spec (AliasState.Balanced n (average ws n) ws
    (capacity ws n)) items isUint32 fits enough
  rw [exact] at spec
  refine spec (fun s same aliases => ?_)
    fun s next i j iInside jInside inv pair => inv.step bounds near iInside jInside pair
  have notItem (k : Nat) (inside : k < n) : noAlias ≠ k := by
    have : n ≤ noAlias := bounds.items
    omega
  refine ⟨?_, fun b _ aliased => ?_, fun k inside => ?_, fun all => same ▸ all⟩
  · simp only [AliasState.excess, same, aliases, if_true]
    rw [sum_sub_distrib, ← Nat.cast_sum, ← Nat.cast_sum, sum_capacity items, sub_self]
  · rw [aliases] at aliased
    exact absurd rfl aliased
  · simp [AliasState.held, same, aliases, notItem k inside]

/-- The cutoffs are within the buckets, and every item keeps its weight, in its own bucket and in
those that are aliased to it. -/
theorem alias_conserves_weights (items : 0 < n) (isUint32 : n < 4294967296)
    (small : average ws n + 1 < 4294967296) (enough : n ≤ fuel) :
    ∃ t, aliasCreate fuel ws n = some t ∧ (∀ i < n, t.cutoffs i ≤ capacity ws n i) ∧
      ∀ j < n, t.cutoffs j + ∑ b ∈ range n, (if t.aliases b = j then
        capacity ws n b - t.cutoffs b else 0) = ws j := by
  obtain ⟨final, heavy, built, done, inv⟩ := aliasCreate_balanced items isUint32 small enough
  exact ⟨_, built, fun i inside => inv.cutoff_le done inside, inv.conserved⟩

theorem alias_conserves_two : ∃ t, aliasCreate 2 (fun i => 2 * i) 2 = some t ∧
    ∀ j < 2, t.cutoffs j + ∑ b ∈ range 2, (if t.aliases b = j then
      capacity (fun i => 2 * i) 2 b - t.cutoffs b else 0) = 2 * j := by
  obtain ⟨t, built, -, conserved⟩ := alias_conserves_weights (by decide : 0 < 2)
    (by decide) (by decide : average (fun i => 2 * i) 2 + 1 < 4294967296) (Nat.le_refl 2)
  exact ⟨t, built, conserved⟩

end PgAqp.Sampling
