import PgAqp.Sampling.Weights

/-!
# The descent selects rows in proportion to their weights

In a tree at rest, the cutoffs below a pivot are laid out over the visible rows below
it, from left to right.  So the descent from a chosen pivot ends at the row that the
cutoff falls on.
-/

namespace PgAqp.Sampling

open Library List Option Weighted Scan Page

variable {α : Type} [LinearOrder α]

namespace Scan

def settle (scan : Scan α) (tup : LeafTuple α) (row : Row) (invProb : InvProb) : Outcome :=
  if (scan.ignoreKilledTuples && tup.dead) || !scan.range.checkkeys tup.attrs then
    .rejected (if scan.leafHasAgg then invProb.div row.agg else invProb)
  else .selected row.heapTid (if scan.leafHasAgg then invProb.div row.agg else invProb)

/-- The row is visible, not known to be dead, and in the range. -/
def returns (scan : Scan α) (tup : LeafTuple α) (row : Row) : Bool :=
  !scan.hides row && !(scan.ignoreKilledTuples && tup.dead) && scan.range.checkkeys tup.attrs

/-- What stands between the offsets of the range on a page. -/
def inRange {γ : Type} (scan : Scan α) (page : Page α) (items : List γ) : List γ :=
  (items.take (scan.maxoff page + 1 - page.firstDataKey)).drop
    (scan.minoff page - page.firstDataKey)

def candidates (scan : Scan α) (pages : Nat → Option (Page α)) (page : Page α) : List (LeafTuple α) :=
  match page.items with
  | .leaf tuples => scan.inRange page tuples
  | .internal pivots =>
    (scan.inRange page pivots).flatMap fun pivot => leavesBelow pages (page.level - 1) pivot.downlink

/-- The page below a block on which the choice begins. -/
def drawPage (scan : Scan α) (pages : Nat → Option (Page α)) : Nat → Nat → Option (Page α)
  | 0, blkno => pages blkno
  | lvl + 1, blkno =>
    (pages blkno).bind fun page =>
      if page.isLeaf = false ∧ scan.minoff page = scan.maxoff page then
        (page.pivotAt (scan.minoff page)).bind fun pivot => scan.drawPage pages lvl pivot.downlink
      else some page

/-- The weight of the pivots or rows between the offsets of the range on a page.  A tuple that is
alone is taken whole. -/
def weightOn (scan : Scan α) (page : Page α) : Nat :=
  if scan.maxoff page < scan.minoff page then 0
  else if page.isLeaf then
    if scan.minoff page = scan.maxoff page then
      match (page.leafAt (scan.minoff page)).map LeafTuple.data with
      | none => 0
      | some (.plain row) => if scan.leafHasAgg then row.agg else 1
      | some (.posting rows) =>
        if scan.leafHasAgg then
          total (scan.leafEntries 1 page (scan.minoff page) (scan.maxoff page))
        else rows.length
    else total (scan.leafEntries 1 page (scan.minoff page) (scan.maxoff page))
  else total (scan.pivotEntries page (scan.minoff page) (scan.maxoff page))

/-- The total weight that the sampler considers below a block. -/
def totalBelow (scan : Scan α) (pages : Nat → Option (Page α)) (lvl blkno : Nat) : Nat :=
  (scan.drawPage pages lvl blkno).elim 0 scan.weightOn

/-- The weight of a row in a choice that begins on a page.  Without leaf aggregates the rows of
a leaf page are counted, and those below an internal page have the weight of the aggregates. -/
def drawWeight (scan : Scan α) (page : Page α) (row : Row) : Nat :=
  if scan.leafHasAgg then row.agg else if page.isLeaf then 1 else scan.aggMapVal

/-- The posting lists of a leaf page that a cutoff can get to are readable: behind the others there
is no visible weight. -/
def ReachedReadable (scan : Scan α) (tuples : List (LeafTuple α)) : Prop :=
  ∃ count ≤ tuples.length, (∀ tup ∈ tuples.take count, scan.readable tup = true) ∧
    scan.visibleWeight (tuples.drop count) = 0

def ReadableBelow (scan : Scan α) (pages : Nat → Option (Page α)) : Nat → Nat → Prop
  | 0, blkno => ∀ page tuples, pages blkno = some page → page.items = .leaf tuples →
      scan.ReachedReadable tuples
  | lvl + 1, blkno => ∀ page pivots, pages blkno = some page → page.items = .internal pivots →
      ∀ pivot ∈ pivots, scan.ReadableBelow pages lvl pivot.downlink

/-- On the page where the choice begins: no row with a weight is chosen by a place in a posting
list on that very page, every weight is read from its own row, and below an internal page
without leaf aggregates a row that can be returned has no weight above 1. -/
structure RegularOn (scan : Scan α) (pages : Nat → Option (Page α)) (page : Page α) : Prop where
  firsts : page.isLeaf = true → scan.leafHasAgg = true ∨ scan.minoff page ≠ scan.maxoff page →
    ∀ tup ∈ scan.candidates pages page, ∀ row ∈ tup.rows.tail,
      scan.hides row = true ∨ scan.leafHasAgg = true ∧ row.agg = 0
  readable : page.isLeaf = true → scan.leafHasAgg = true →
    ∀ tup ∈ scan.candidates pages page, scan.readable tup = true
  reached : scan.leafHasAgg = true → ∀ pivots, page.items = .internal pivots →
    ∀ pivot ∈ scan.inRange page pivots, scan.ReadableBelow pages (page.level - 1) pivot.downlink
  uniform : page.isLeaf = false → scan.leafHasAgg = false →
    ∀ tup ∈ scan.candidates pages page, ∀ row ∈ tup.rows, scan.returns tup row = true →
      scan.aggMapVal ≤ 1

variable {scan : Scan α} {page : Page α}

theorem doneSampling_eq
    (found : page.resolve (off, postingOff) = some (tup, row)) (invProb : InvProb) :
    scan.doneSampling page off postingOff invProb = .finished (scan.settle tup row invProb) := by
  obtain ⟨found, present, chosen⟩ := bind_eq_some_iff.mp found
  obtain ⟨other, atPlace, same⟩ := map_eq_some_iff.mp chosen
  cases same
  unfold doneSampling settle
  rw [present]
  dsimp only
  rw [atPlace]
  dsimp only
  split <;> rfl

theorem prevCmpres_eq {hikey : Option (Key α)} (same : page.hikey = hikey) :
    prevCmpres hikey page = .eq := by
  unfold prevCmpres
  rw [same]
  cases hikey with
  | none => rfl
  | some key => exact compareKey_mkscankey key

/-- The row is selected with its inverse probability if it is to be returned, else it is rejected. -/
def Settles (scan : Scan α) (tup : LeafTuple α) (row : Row) (total : Nat) (out : Sampler α) : Prop :=
  (scan.returns tup row → out =
    .finished (.selected row.heapTid (.finite (total / scan.weight row)))) ∧
  (scan.returns tup row = false → ∃ invProb, out = .finished (.rejected invProb))

theorem settle_settles (tup : LeafTuple α) (total : Nat)
    (uniform : scan.returns tup row → scan.leafHasAgg = false → scan.aggMapVal ≤ 1)
    (weighs : 0 < scan.weight row) (visible : scan.hides row = false) :
    scan.Settles tup row total (.finished (scan.settle tup row (.finite total))) := by
  unfold weight at weighs
  unfold Settles settle weight
  constructor
  · intro returned
    have rate : (if scan.leafHasAgg then (InvProb.finite total).div row.agg else .finite total) =
        .finite (total / (if scan.leafHasAgg then row.agg else scan.aggMapVal : Nat)) := by
      cases stored : scan.leafHasAgg with
      | true =>
        rw [stored, if_pos rfl] at weighs
        rw [if_pos rfl, if_pos rfl, InvProb.div, if_neg (by omega)]
      | false =>
        rw [stored, if_neg (by decide)] at weighs
        have one : scan.aggMapVal = 1 := le_antisymm (uniform returned stored) weighs
        rw [if_neg (by decide), if_neg (by decide), one, Nat.cast_one, div_one]
    rw [rate]
    unfold returns at returned
    rw [visible] at returned
    cases dead : scan.ignoreKilledTuples && tup.dead <;>
      cases checked : scan.range.checkkeys tup.attrs <;> simp_all
  · intro notReturned
    unfold returns at notReturned
    rw [visible] at notReturned
    rw [if_pos]
    · exact ⟨_, rfl⟩
    · cases dead : scan.ignoreKilledTuples && tup.dead <;> simp_all

/-- What becomes of a row that was drawn: it is rejected if the snapshot hides it. -/
theorem drawn_settles (found : page.resolve (off, i) = some (tup, row)) (total : Nat)
    (uniform : scan.leafHasAgg = false → scan.aggMapVal = 1) (weighs : 0 < scan.weight row) :
    scan.Settles tup row total (if scan.hides row then .finished (.rejected (.finite total))
      else scan.doneSampling page off i (.finite total)) := by
  cases hidden : scan.hides row with
  | true =>
    refine ⟨fun returned => ?_, fun _ => ⟨_, rfl⟩⟩
    simp [returns, hidden] at returned
  | false =>
    rw [if_neg (by decide), doneSampling_eq found]
    exact settle_settles tup total (fun _ stored => (uniform stored).le) weighs hidden

variable {low high minoff maxoff : Nat}

/-- The cutoff falls on the same row in the loop over a leaf page as among the visible rows. -/
theorem pick_leafEntries (items : page.items = .leaf tuples)
    (isMin : minoff = page.firstDataKey + low) (isMax : maxoff + 1 = page.firstDataKey + high)
    (inside : high ≤ tuples.length) (uniform : scan.leafHasAgg = false → constant = scan.aggMapVal)
    (readable : scan.leafHasAgg → ∀ tup ∈ (tuples.take high).drop low, scan.readable tup)
    (picked : pick (scan.shares ((tuples.take high).drop low)) cutoff = some ((tup, row), rest)) :
    ∃ place, pick (scan.leafEntries constant page minoff maxoff) cutoff = some (place, rest) ∧
      page.resolve place = some (tup, row) := by
  have same := congrArg (pick · cutoff) (leafEntries_eq items isMin isMax inside uniform readable)
  rw [pick_map page.resolve, pick_map some, picked] at same
  obtain ⟨⟨place, left⟩, found, resolved⟩ := map_eq_some_iff.mp same
  cases (Prod.mk.inj resolved).2
  exact ⟨place, found, (Prod.mk.inj resolved).1⟩

theorem total_leafEntries (items : page.items = .leaf tuples)
    (isMin : minoff = page.firstDataKey + low) (isMax : maxoff + 1 = page.firstDataKey + high)
    (inside : high ≤ tuples.length) (uniform : scan.leafHasAgg = false → constant = scan.aggMapVal)
    (readable : scan.leafHasAgg → ∀ tup ∈ (tuples.take high).drop low, scan.readable tup) :
    total (scan.leafEntries constant page minoff maxoff) =
      scan.visibleWeight ((tuples.take high).drop low) := by
  rw [← total_map page.resolve, leafEntries_eq items isMin isMax inside uniform readable,
    total_map some]
  rfl

section

variable {below : PivotTuple α → List (LeafTuple α)} {low high minoff maxoff : Nat}

theorem total_pivotEntries (internal : InternalOf scan below page pivots)
    (isMin : minoff = page.firstDataKey + low) (isMax : maxoff + 1 = page.firstDataKey + high)
    (inside : high ≤ pivots.length) :
    total (scan.pivotEntries page minoff maxoff) =
      scan.visibleWeight (((pivots.take high).drop low).flatMap below) := by
  have exact : ∀ chosen : List (PivotTuple α), (∀ pivot ∈ chosen, pivot ∈ pivots) →
      total (chosen.map fun pivot => (some pivot, scan.readAgg pivot)) =
        scan.visibleWeight (chosen.flatMap below) := by
    intro chosen members
    induction chosen with
    | nil => rfl
    | cons pivot chosen ih =>
      rw [map_cons, total_cons, internal.exact pivot (members pivot mem_cons_self),
        ih fun other mem => members other (mem_cons_of_mem _ mem), visibleWeight,
        visibleWeight, visibleWeight, shares_flatMap, shares_flatMap, flatMap_cons,
        total_append]
  rw [← total_map page.pivotAt, pivotEntries_eq scan internal.items isMin isMax inside]
  exact exact _ fun pivot mem => mem_of_mem_take (mem_of_mem_drop mem)

/-- A cutoff that falls on a row among the visible rows below some pivots falls on the pivot above
that row, and what is left of it falls on the row among the visible rows below that pivot. -/
theorem pick_pivotEntries (internal : InternalOf scan below page pivots)
    (isMin : minoff = page.firstDataKey + low) (isMax : maxoff + 1 = page.firstDataKey + high)
    (inside : high ≤ pivots.length)
    (picked : pick (scan.shares (((pivots.take high).drop low).flatMap below)) cutoff =
      some (label, rest)) :
    ∃ place pivot left, pivots[place]? = some pivot ∧ pivot ∈ (pivots.take high).drop low ∧
      pick (scan.pivotEntries page minoff maxoff) cutoff = some (page.firstDataKey + place, left) ∧
      left < scan.readAgg pivot ∧
      pick (scan.shares (below pivot)) left = some (label, rest) := by
  -- choose a pivot, then a row below it
  have grouped : groups (((pivots.take high).drop low).map fun pivot =>
      scan.shares (below pivot)) = (((pivots.take high).drop low).map fun pivot =>
        (pivot, scan.readAgg pivot)).map fun e => (scan.shares (below e.1), e.2) := by
    rw [groups, List.map_map, List.map_map]
    refine map_congr_left fun pivot mem => ?_
    have isPivot := mem_of_mem_take (mem_of_mem_drop mem)
    exact Prod.ext rfl (internal.exact pivot isPivot).symm
  rw [shares_flatMap, flatMap_def, pick_flatten, grouped,
    pick_map fun pivot => scan.shares (below pivot)] at picked
  obtain ⟨⟨group, left⟩, chosen, picked⟩ := bind_eq_some_iff.mp picked
  obtain ⟨⟨pivot, num⟩, atPivot, same⟩ := map_eq_some_iff.mp chosen
  cases same
  obtain ⟨weight, mem, smaller⟩ := pick_mem atPivot
  obtain ⟨source, isSource, sameEntry⟩ := mem_map.mp mem
  cases sameEntry
  -- the same choice among the offsets
  have es := congrArg (pick · cutoff) (pivotEntries_eq scan internal.items isMin isMax inside)
  have labelled : (((pivots.take high).drop low).map fun pivot => (some pivot, scan.readAgg pivot)) =
      (((pivots.take high).drop low).map fun pivot => (pivot, scan.readAgg pivot)).map
        fun e => (some e.1, e.2) := by rw [List.map_map]; rfl
  rw [labelled, pick_map page.pivotAt, pick_map some, atPivot] at es
  obtain ⟨⟨off, leftThere⟩, found, resolved⟩ := map_eq_some_iff.mp es
  obtain ⟨present, sameLeft⟩ := Prod.mk.inj resolved
  cases sameLeft
  have above : page.firstDataKey ≤ off := by
    obtain ⟨weight, isEntry, _⟩ := pick_mem found
    obtain ⟨place, inRange, atPlace⟩ := mem_filterMap.mp isEntry
    obtain ⟨_, _, sameOffset⟩ := map_eq_some_iff.mp atPlace
    cases sameOffset
    have := (mem_range'_1.mp inRange).1
    omega
  obtain ⟨place, rfl⟩ := Nat.exists_eq_add_of_le above
  rw [pivotAt, internal.items] at present
  rw [Nat.add_sub_cancel_left] at present
  exact ⟨place, pivot, _, present, isSource, found, smaller, picked⟩

end

end Scan

namespace Sampler

variable {scan : Scan α}

theorem run_finished (out : Outcome) (fuel : Nat) :
    run scan random i fuel (.finished out) = .finished out := by
  induction fuel with
  | zero => rfl
  | succ fuel ih => exact ih

variable {hikey : Option (Key α)} {page : Page α}

theorem step_descend (has : HasPage i.pages blkno hikey lvl page) :
    step scan random i (.descend ⟨blkno, hikey, cutoff, false⟩ acc invProb) =
      scan.continueDescent page .eq ⟨blkno, hikey, cutoff, false⟩ acc invProb := by
  unfold step
  dsimp only
  rw [has.present]
  dsimp only
  rw [prevCmpres_eq has.hikey, live, if_neg (by simp), if_neg (by simp [has.live])]

theorem step_quick (has : HasPage i.pages blkno hikey lvl page) :
    step scan random i (.quick ⟨blkno, hikey, cutoff, false⟩ invProb) =
      scan.quickDescend random page := by
  unfold step
  dsimp only
  rw [has.present]
  dsimp only
  rw [prevCmpres_eq has.hikey, live, if_neg (by simp), if_neg (by simp [has.live]),
    if_pos (.inl rfl)]

theorem descend_runs (lvl : Nat) :
    ∀ {blkno cutoff fuel rest : Nat} {hikey : Option (Key α)} {invProb : InvProb}
      {tup : LeafTuple α} {row : Row},
      Subtree scan i.pages lvl blkno hikey →
      (scan.leafHasAgg → scan.ReadableBelow i.pages lvl blkno) →
      scan.visibleWeight (leavesBelow i.pages lvl blkno) < 18446744073709551616 →
      lvl < fuel →
      pick (scan.shares (leavesBelow i.pages lvl blkno)) cutoff = some ((tup, row), rest) →
      run scan random i fuel (.descend ⟨blkno, hikey, cutoff, false⟩ 0 invProb) =
        .finished (scan.settle tup row invProb) := by
  induction lvl with
  | zero =>
    intro blkno cutoff fuel rest hikey invProb tup row subtree readable fits enough picked
    obtain ⟨page, tuples, has, items, _⟩ := subtree
    obtain ⟨fuel, rfl⟩ := Nat.exists_eq_add_of_lt enough
    rw [leavesBelow_leaf has.present items] at fits picked
    have size := page.maxOffset_succ
    rw [keys_leaf items, length_map] at size
    -- the cutoff falls on the tuples in front, which are readable
    obtain ⟨count, inside, front, behind⟩ : ∃ count ≤ tuples.length,
        (scan.leafHasAgg → ∀ tup ∈ tuples.take count, scan.readable tup) ∧
          scan.visibleWeight (tuples.drop count) = 0 := by
      cases stored : scan.leafHasAgg with
      | true =>
        obtain ⟨count, inside, front, behind⟩ := readable stored page tuples has.present items
        exact ⟨count, inside, fun _ => front, behind⟩
      | false => exact ⟨tuples.length, le_rfl, fun none => (by cases none), by rw [drop_length]; rfl⟩
    have parts : scan.shares tuples =
        scan.shares (tuples.take count) ++ scan.shares (tuples.drop count) := by
      rw [shares, shares, shares, ← flatMap_append, take_append_drop]
    have before : cutoff < total (scan.shares (tuples.take count)) := by
      have low := lt_total_of_pick picked
      rw [parts, total_append] at low
      exact low.trans_eq ((congrArg _ behind).trans (Nat.add_zero _))
    rw [parts, pick_append, if_pos before] at picked
    rw [visibleWeight, parts, total_append] at fits
    have same : scan.leafHasAgg = false → scan.aggMapVal = scan.aggMapVal := fun _ => rfl
    have pos := page.firstDataKey_pos
    have first : page.firstDataKey = page.firstDataKey + 0 := rfl
    have last : page.firstDataKey + count - 1 + 1 = page.firstDataKey + count := by omega
    rw [← drop_zero (l := tuples.take count)] at front picked
    obtain ⟨place, found, resolved⟩ := pick_leafEntries items first last inside same front picked
    have sum := total_leafEntries items first last inside same front
    rw [drop_zero] at sum
    rw [Nat.zero_add, run, step_descend has, continueDescent, if_neg (by decide),
      if_pos (isLeaf_of_leaf items),
      leafEntries_append scan _ page (page.firstDataKey + count - 1) (by omega) (by omega),
      accumulate_append, accumulate_eq _ (Nat.zero_le _)
        (by rw [sum]; unfold visibleWeight; omega), Nat.sub_zero, found]
    dsimp only
    rw [doneSampling_eq resolved, run_finished]
  | succ lvl ih =>
    intro blkno cutoff fuel rest hikey invProb tup row subtree readable fits enough picked
    obtain ⟨page, pivots, has, internal, children⟩ := subtree
    obtain ⟨fuel, rfl⟩ := Nat.exists_eq_add_of_lt enough
    rw [leavesBelow_internal lvl has.present internal.items] at fits picked
    have size := page.maxOffset_succ
    rw [keys_internal internal.items, length_map] at size
    have whole : (pivots.take pivots.length).drop 0 = pivots := by rw [drop_zero, take_length]
    rw [← whole] at fits picked
    have first : page.firstDataKey = page.firstDataKey + 0 := rfl
    obtain ⟨place, pivot, left, present, _, found, smaller, below⟩ :=
      pick_pivotEntries internal first size le_rfl picked
    have total := total_pivotEntries internal first size le_rfl
    rw [whole] at total
    have mem := mem_of_getElem? present
    have atOffset : page.pivotAt (page.firstDataKey + place) = some pivot := by
      rw [pivotAt, internal.items]
      dsimp only
      rw [Nat.add_sub_cancel_left, present]
    have part := scan.visibleWeight_le (fun pivot => leavesBelow i.pages lvl pivot.downlink) mem
    rw [whole] at fits
    rw [run, step_descend has, continueDescent, if_neg (by decide),
      if_neg (by simp [internal.isLeaf]), accumulate_eq _ (Nat.zero_le _) (by omega), Nat.sub_zero,
      found]
    dsimp only
    rw [atOffset]
    exact ih (children place pivot present)
      (fun stored => readable stored page pivots has.present internal.items pivot mem) (by omega)
      (by omega) below

end Sampler

end PgAqp.Sampling
