import PgAqp.Library.Weighted
import PgAqp.Sampling.Sample

/-!
# Trees at rest

In a tree at rest, the high key of every page is what its parent says, the keys of
the pivots separate the leaf tuples below them, and the aggregate that a snapshot
reads in a pivot is the weight of the rows below it that the snapshot sees.
-/

namespace PgAqp.Sampling

open Library List Scan Page

variable {α : Type}

def leavesBelow (pages : Nat → Option (Page α)) : Nat → Nat → List (LeafTuple α)
  | lvl, blkno =>
    match pages blkno with
    | none => []
    | some page =>
      match page.items with
      | .leaf tuples => tuples
      | .internal pivots =>
        match lvl with
        | 0 => []
        | lvl + 1 => pivots.flatMap fun pivot => leavesBelow pages lvl pivot.downlink

section

variable {page : Page α}

theorem leavesBelow_leaf {lvl : Nat}
    (present : pages blkno = some page) (items : page.items = .leaf tuples) :
    leavesBelow pages lvl blkno = tuples := by
  unfold leavesBelow
  rw [present]
  dsimp only
  rw [items]

theorem leavesBelow_internal (lvl : Nat)
    (present : pages blkno = some page) (items : page.items = .internal pivots) :
    leavesBelow pages (lvl + 1) blkno =
      pivots.flatMap fun pivot => leavesBelow pages lvl pivot.downlink := by
  rw [leavesBelow, present]
  dsimp only
  rw [items]

theorem Page.isLeaf_of_leaf (items : page.items = .leaf tuples) : page.isLeaf := by
  rw [isLeaf, items]

theorem Page.isLeaf_of_internal (items : page.items = .internal pivots) : page.isLeaf = false := by
  rw [isLeaf, items]

theorem Page.keys_leaf
    (items : page.items = .leaf tuples) : page.keys = tuples.map LeafTuple.key := by
  rw [keys, items]

theorem Page.keys_internal
    (items : page.items = .internal pivots) : page.keys = pivots.map PivotTuple.key := by
  rw [keys, items]

end

variable [LinearOrder α]

namespace Scan

def weight (scan : Scan α) (row : Row) : Nat := if scan.leafHasAgg then row.agg else scan.aggMapVal

/-- The rows that the snapshot sees, with their weights. -/
def shares (scan : Scan α) (tuples : List (LeafTuple α)) : List ((LeafTuple α × Row) × Nat) :=
  tuples.flatMap fun tup =>
    (tup.rows.filter fun row => !scan.hides row).map fun row => ((tup, row), scan.weight row)

def visibleWeight (scan : Scan α) (tuples : List (LeafTuple α)) : Nat :=
  Weighted.total (scan.shares tuples)

def beforeLow (scan : Scan α) (key : Key α) : Bool :=
  scan.range.inskeyLow.any fun low => low.passes (low.compareKey key)

/-- The key is not behind the upper end of the range. -/
def belowHigh (scan : Scan α) (key : Key α) : Bool :=
  scan.range.inskeyHigh.all fun high => high.passes (high.compareKey key)

end Scan

structure InternalOf (scan : Scan α) (below : PivotTuple α → List (LeafTuple α)) (page : Page α)
    (pivots : List (PivotTuple α)) : Prop where
  items : page.items = .internal pivots
  nonempty : pivots ≠ []
  exact : ∀ pivot ∈ pivots, scan.readAgg pivot = scan.visibleWeight (below pivot)
  separated : pivots.Pairwise fun pivot later =>
    (∀ tup ∈ below pivot, tup.key ≤ later.key) ∧ ∀ tup ∈ below later, later.key ≤ tup.key
  /-- The first key is never looked at. -/
  sorted : pivots.tail.Pairwise fun pivot later => pivot.key ≤ later.key

structure HasPage (pages : Nat → Option (Page α)) (blkno : Nat) (hikey : Option (Key α)) (lvl : Nat)
    (page : Page α) : Prop where
  present : pages blkno = some page
  live : page.ignore = false
  hikey : page.hikey = hikey
  level : page.level = lvl

def Subtree (scan : Scan α) (pages : Nat → Option (Page α)) : Nat → Nat → Option (Key α) → Prop
  | 0, blkno, hikey =>
    ∃ page tuples, HasPage pages blkno hikey 0 page ∧ page.items = .leaf tuples ∧
      tuples.Pairwise fun tup later => tup.key ≤ later.key
  | lvl + 1, blkno, hikey =>
    ∃ page pivots, HasPage pages blkno hikey (lvl + 1) page ∧
      InternalOf scan (fun pivot => leavesBelow pages lvl pivot.downlink) page pivots ∧
      ∀ i pivot, pivots[i]? = some pivot →
        Subtree scan pages lvl pivot.downlink (page.expectedHikey (page.firstDataKey + i))

theorem Subtree.hasPage {lvl blkno : Nat}
    {hikey : Option (Key α)} (subtree : Subtree scan pages lvl blkno hikey) :
    ∃ page, HasPage pages blkno hikey lvl page := by
  cases lvl with
  | zero =>
    obtain ⟨page, _, has, _⟩ := subtree
    exact ⟨page, has⟩
  | succ lvl =>
    obtain ⟨page, _, has, _⟩ := subtree
    exact ⟨page, has⟩

section

variable {scan : Scan α} {page : Page α} {pivots : List (PivotTuple α)}

theorem Scan.beforeLow_of_le (ordered : first ≤ second)
    (pre : scan.beforeLow second) : scan.beforeLow first := by
  unfold beforeLow at pre ⊢
  cases low : scan.range.inskeyLow with
  | none => rw [low] at pre; cases pre
  | some key =>
    rw [low] at pre
    exact ScanInsert.passes_of_le (scan.range.lowBound key low) ordered pre

theorem Scan.belowHigh_of_le (ordered : first ≤ second)
    (below : scan.belowHigh second) : scan.belowHigh first := by
  unfold belowHigh at below ⊢
  cases high : scan.range.inskeyHigh with
  | none => rfl
  | some key =>
    rw [high] at below
    exact ScanInsert.passes_of_le (scan.range.highBound key high) ordered below

/-- What passes the conditions of the scan is between the ends of the range. -/
theorem Scan.inside_of_checkkeys {tup : LeafTuple α} (passed : scan.range.checkkeys tup.attrs) :
    scan.beforeLow tup.key = false ∧ scan.belowHigh tup.key := by
  obtain ⟨heapTid, isKey⟩ := tup.key_eq
  rw [isKey]
  constructor
  · unfold beforeLow
    cases low : scan.range.inskeyLow with
    | none => rfl
    | some key => exact scan.range.aboveLow tup.attrs heapTid passed key low
  · unfold belowHigh
    cases high : scan.range.inskeyHigh with
    | none => rfl
    | some key => exact scan.range.belowHigh tup.attrs heapTid passed key high

theorem Page.Sorted.minoff_leaf (scan : Scan α) (sorted : page.Sorted) (leaf : page.isLeaf) :
    ∃ low, scan.minoff page = page.firstDataKey + low ∧ low ≤ page.keys.length ∧
      ∀ place key, page.keys[place]? = some key → (scan.beforeLow key ↔ place < low) := by
  unfold minoff beforeLow
  cases isLow : scan.range.inskeyLow with
  | none =>
    refine ⟨0, rfl, Nat.zero_le _, fun place key _ => ?_⟩
    exact ⟨fun pre => absurd pre Bool.false_ne_true, fun pre => absurd pre (Nat.not_lt_zero place)⟩
  | some low => exact sorted.binsrch_leaf (scan.range.lowBound low isLow) leaf

theorem Page.Sorted.maxoff_leaf (scan : Scan α) (sorted : page.Sorted) (leaf : page.isLeaf) :
    ∃ high, scan.maxoff page + 1 = page.firstDataKey + high ∧ high ≤ page.keys.length ∧
      ∀ place key, page.keys[place]? = some key → (scan.belowHigh key ↔ place < high) := by
  unfold maxoff belowHigh
  cases isHigh : scan.range.inskeyHigh with
  | none =>
    refine ⟨page.keys.length, page.maxOffset_succ, le_rfl, fun place key present => ?_⟩
    exact ⟨fun _ => (List.getElem?_eq_some_iff.mp present).1, fun _ => rfl⟩
  | some high =>
    obtain ⟨i, res, upper, splits⟩ := sorted.binsrch_leaf (scan.range.highBound high isHigh) leaf
    have pos := page.firstDataKey_pos
    refine ⟨i, ?_, upper, splits⟩
    change (if page.isLeaf = true then page.binsrch high - 1 else page.binsrch high) + 1 = _
    rw [if_pos leaf, res]
    omega

theorem Page.Sorted.minoff_internal (scan : Scan α) (sorted : page.Sorted)
    (internal : page.isLeaf = false) (nonempty : 0 < page.keys.length) :
    ∃ low, scan.minoff page = page.firstDataKey + low ∧ low < page.keys.length ∧
      ∀ place key, 0 < place → page.keys[place]? = some key →
        (scan.beforeLow key ↔ place ≤ low) := by
  unfold minoff beforeLow
  cases isLow : scan.range.inskeyLow with
  | none =>
    refine ⟨0, rfl, nonempty, fun place key later _ => ?_⟩
    exact ⟨fun pre => absurd pre Bool.false_ne_true, fun pre => by omega⟩
  | some low => exact sorted.binsrch_internal (scan.range.lowBound low isLow) internal nonempty

theorem Page.Sorted.maxoff_internal (scan : Scan α) (sorted : page.Sorted)
    (internal : page.isLeaf = false) (nonempty : 0 < page.keys.length) :
    ∃ high, scan.maxoff page = page.firstDataKey + high ∧ high < page.keys.length ∧
      ∀ place key, 0 < place → page.keys[place]? = some key →
        (scan.belowHigh key ↔ place ≤ high) := by
  unfold maxoff belowHigh
  cases isHigh : scan.range.inskeyHigh with
  | none =>
    have size := page.maxOffset_succ
    refine ⟨page.keys.length - 1, by change page.maxOffset = _; omega, by omega, ?_⟩
    intro place key later present
    have inside := (List.getElem?_eq_some_iff.mp present).1
    exact ⟨fun _ => by omega, fun _ => rfl⟩
  | some high =>
    obtain ⟨i, res, upper, splits⟩ :=
      sorted.binsrch_internal (scan.range.highBound high isHigh) internal nonempty
    refine ⟨i, ?_, upper, splits⟩
    change (if page.isLeaf = true then page.binsrch high - 1 else page.binsrch high) = _
    rw [if_neg (by simp [internal]), res]

theorem Page.sorted_leaf (items : page.items = .leaf tuples)
    (ordered : tuples.Pairwise fun tup later => tup.key ≤ later.key) : page.Sorted := by
  intro i later first second _ pre atIndex atLater
  rw [keys_leaf items] at atIndex atLater
  have keys : (tuples.map LeafTuple.key).Pairwise fun first second => first ≤ second :=
    pairwise_map.mpr ordered
  obtain ⟨inside, rfl⟩ := List.getElem?_eq_some_iff.mp atIndex
  obtain ⟨insideLater, rfl⟩ := List.getElem?_eq_some_iff.mp atLater
  exact pairwise_iff_getElem.mp keys i later inside insideLater pre

namespace InternalOf

variable {below : PivotTuple α → List (LeafTuple α)} {page : Page α} {pivots : List (PivotTuple α)}

/-- A test that stays false once it is false splits the keys of the pivots, and the tuples below
them, at a pivot. -/
def Splits (below : PivotTuple α → List (LeafTuple α)) (pivots : List (PivotTuple α))
    (test : Key α → Bool) (last : Nat) : Prop :=
  (∀ place pivot, 0 < place → pivots[place]? = some pivot → (test pivot.key ↔ place ≤ last)) ∧
    ∀ place pivot, pivots[place]? = some pivot → ∀ tup ∈ below pivot,
      (place < last → test tup.key) ∧ (last < place → test tup.key = false)

variable (internal : InternalOf scan below page pivots)
include internal

theorem pageSorted : page.Sorted := by
  intro i later first second compared pre atIndex atLater
  rw [keys_internal internal.items] at atIndex atLater
  cases compared with
  | inl leaf =>
    rw [isLeaf_of_internal internal.items] at leaf
    cases leaf
  | inr pos =>
    obtain ⟨i, rfl⟩ := Nat.exists_eq_add_of_lt pos
    obtain ⟨later, rfl⟩ := Nat.exists_eq_add_of_lt (pos.trans pre)
    have keys : (pivots.tail.map PivotTuple.key).Pairwise fun first second => first ≤ second :=
      pairwise_map.mpr internal.sorted
    rw [Nat.zero_add, ← getElem?_tail, ← map_tail] at atIndex atLater
    obtain ⟨inside, rfl⟩ := List.getElem?_eq_some_iff.mp atIndex
    obtain ⟨insideLater, rfl⟩ := List.getElem?_eq_some_iff.mp atLater
    exact pairwise_iff_getElem.mp keys i later inside insideLater (by omega)

theorem isLeaf : page.isLeaf = false := isLeaf_of_internal internal.items

theorem keys_pos : 0 < page.keys.length := by
  rw [keys_internal internal.items, length_map]
  exact length_pos_of_ne_nil internal.nonempty

/-- Every tuple below a pivot is before the key of every later pivot, and not before its own. -/
theorem key_le {place later : Nat} (pre : place < later)
    (atPlace : pivots[place]? = some pivot) (atLater : pivots[later]? = some other) :
    (∀ tup ∈ below pivot, tup.key ≤ other.key) ∧ ∀ tup ∈ below other, other.key ≤ tup.key := by
  obtain ⟨inside, rfl⟩ := List.getElem?_eq_some_iff.mp atPlace
  obtain ⟨insideLater, rfl⟩ := List.getElem?_eq_some_iff.mp atLater
  exact pairwise_iff_getElem.mp internal.separated place later inside insideLater pre

theorem splits {test : Key α → Bool}
    (falling : ∀ {first second : Key α}, first ≤ second → test second → test first)
    (inside : last < pivots.length)
    (onKeys : ∀ place key, 0 < place → page.keys[place]? = some key → (test key ↔ place ≤ last)) :
    Splits below pivots test last := by
  have onPivots : ∀ place pivot, 0 < place → pivots[place]? = some pivot →
      (test pivot.key ↔ place ≤ last) := by
    intro place pivot pos present
    refine onKeys place pivot.key pos ?_
    rw [keys_internal internal.items, getElem?_map, present]
    rfl
  refine ⟨onPivots, fun place pivot present tup mem => ⟨?_, ?_⟩⟩
  · intro pre
    have atLast := getElem?_eq_getElem inside
    have passed := (onPivots last _ (by omega) atLast).mpr (Nat.le_refl last)
    exact falling ((internal.key_le pre present atLast).1 tup mem) passed
  · intro after
    have atFirst := getElem?_eq_getElem (Nat.zero_lt_of_lt inside)
    have above := (internal.key_le (by omega) atFirst present).2 tup mem
    refine Bool.eq_false_iff.mpr fun passed => ?_
    have upTo := (onPivots place pivot (by omega) present).mp (falling above passed)
    omega

/-- The lower end of the range among the pivots: what is below an earlier pivot is before the range,
what is below a later one is not. -/
theorem minoff : ∃ low, scan.minoff page = page.firstDataKey + low ∧ low < pivots.length ∧
      Splits below pivots scan.beforeLow low := by
  obtain ⟨low, res, inside, onKeys⟩ :=
    internal.pageSorted.minoff_internal scan internal.isLeaf internal.keys_pos
  rw [keys_internal internal.items, length_map] at inside
  exact ⟨low, res, inside, internal.splits beforeLow_of_le inside onKeys⟩

/-- The upper end of the range among the pivots: what is below a later pivot is behind the range,
what is below an earlier one is not. -/
theorem maxoff : ∃ high, scan.maxoff page = page.firstDataKey + high ∧ high < pivots.length ∧
      Splits below pivots scan.belowHigh high := by
  obtain ⟨high, res, inside, onKeys⟩ :=
    internal.pageSorted.maxoff_internal scan internal.isLeaf internal.keys_pos
  rw [keys_internal internal.items, length_map] at inside
  exact ⟨high, res, inside, internal.splits belowHigh_of_le inside onKeys⟩

end InternalOf

end

end PgAqp.Sampling
