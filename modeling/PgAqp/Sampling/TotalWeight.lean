import PgAqp.Sampling.Proportion

/-!
# The total weight of a range

`_abt_total_weight` goes down as the sampler does, and adds up the weights of the first page
with more than one candidate.  It starts again where the sampler would go on below a page that
was split.
-/

namespace PgAqp.Sampling

open Library List Option Scan Weighted Sampler

variable {α : Type} [LinearOrder α]

/-- `quick_descend_path` of `_abt_total_weight`; `goDown` goes on at the child of a pivot.
`tot_weight` is a double. -/
def Scan.weigh (scan : Scan α) (goDown : Nat → Option (Key α) → Option Nat) (page : Page α) :
    Option Nat :=
  let onLeaf := doubleTotal (scan.leafEntries 1 page (scan.minoff page) (scan.maxoff page))
  if scan.maxoff page < scan.minoff page then some 0
  else if scan.minoff page = scan.maxoff page then
    if page.isLeaf then
      (page.leafAt (scan.minoff page)).map fun tup =>
        match tup.data with
        | .posting rows => if scan.leafHasAgg then onLeaf else rows.length
        | .plain row => if scan.leafHasAgg then toDouble row.agg else 1
    else
      (page.pivotAt (scan.minoff page)).bind fun pivot =>
        goDown pivot.downlink (page.expectedHikey (scan.minoff page))
  else if page.isLeaf then some onLeaf
  else some (doubleTotal (scan.pivotEntries page (scan.minoff page) (scan.maxoff page)))

/-- `_abt_total_weight` from `retry` on, or from the page that is locked next with the high key
that it should have; `moved` is as for the sampler.  `fuel` bounds the pages that are locked. -/
def totalFrom (scan : Scan α) (i : Index α) : Nat → Option (Nat × Option (Key α) × Bool) →
    Option Nat
  | 0, _ => none
  | fuel + 1, none =>
    match i.root with
    | none => some 0
    | some blkno => (i.pages blkno).bind
        (scan.weigh fun blkno hikey => totalFrom scan i fuel (some (blkno, hikey, false)))
  | fuel + 1, some (blkno, hikey, moved) =>
    (i.pages blkno).bind fun page =>
      if moved && page.rightmost then none
      else if page.ignore then
        page.right.bind fun right => totalFrom scan i fuel (some (right.2, hikey, true))
      else if prevCmpres hikey page = .eq ∨ page.rightmost = true then
        scan.weigh (fun blkno hikey => totalFrom scan i fuel (some (blkno, hikey, false))) page
      else totalFrom scan i fuel none

/-- `_abt_total_weight`. -/
def totalWeight (scan : Scan α) (i : Index α) (fuel : Nat) : Option Nat :=
  if scan.range.qualOk then totalFrom scan i fuel none else some 0

variable {scan : Scan α} {i : Index α} {page : Page α} {random : Draw}

/-- The inverse probability of a row of the tree has the numerator `total`. -/
def Numerator (scan : Scan α) (i : Index α) (total heapTid : Nat) (invProb : InvProb) : Prop :=
  ∃ blkno page off tup place row, i.pages blkno = some page ∧
    page.leafAt off = some tup ∧ tup.rowAt place = some row ∧ row.heapTid = heapTid ∧
    invProb = if scan.leafHasAgg then (InvProb.finite total).div row.agg else .finite total

/-- The sampler has drawn from `total` units. -/
inductive Drawn (scan : Scan α) (i : Index α) (total : Nat) : Sampler α → Prop where
  | descend (child : Child α) (acc : Nat) :
      Drawn scan i total (.descend child acc (.finite total))
  | selected {heapTid : Nat} {invProb : InvProb}
      (numerator : Numerator scan i total heapTid invProb) :
      Drawn scan i total (.finished (.selected heapTid invProb))
  | rejected (invProb : InvProb) : Drawn scan i total (.finished (.rejected invProb))
  | crashed : Drawn scan i total .crashed

section

variable {total blkno : Nat} (present : i.pages blkno = some page)
include present

theorem doneSampling_drawn (off postingOff : Nat) :
    Drawn scan i total (scan.doneSampling page off postingOff (.finite total)) := by
  unfold doneSampling
  split
  · exact .crashed
  next tup atOffset =>
    split
    · exact .crashed
    next row atPlace =>
      dsimp only
      split
      · exact .rejected _
      · exact .selected
          ⟨blkno, page, off, tup, postingOff, row, present, atOffset, atPlace, rfl, rfl⟩

theorem continueDescent_drawn (cmpres : Ordering) (child : Child α) (acc : Nat) :
    Drawn scan i total (scan.continueDescent page cmpres child acc (.finite total)) := by
  unfold continueDescent goRight
  repeat' split
  all_goals first
    | exact .rejected _
    | exact .crashed
    | exact .descend ..
    | exact doneSampling_drawn present ..

theorem chooseLeaf_drawn (minoff maxoff : Nat)
    (isTotal : Weighted.total (scan.leafEntries 1 page minoff maxoff) = total)
    (fits : total < 18446744073709551616) :
    Drawn scan i total (scan.chooseLeaf random page minoff maxoff) := by
  unfold chooseLeaf
  dsimp only
  split
  · exact .rejected _
  · cases stored : scan.leafHasAgg with
    | true =>
      rw [if_pos rfl, runningSums_getLastD (by omega), isTotal]
      exact doneSampling_drawn present ..
    | false =>
      rw [if_neg (by decide), ← total_of_ones (leafEntries_ones stored), isTotal]
      exact doneSampling_drawn present ..

theorem singleLeaf_drawn (leaf : page.isLeaf) (single : scan.minoff page = scan.maxoff page)
    (fits : scan.weightOn page < 18446744073709551616) :
    Drawn scan i (scan.weightOn page) (scan.singleLeaf random page (scan.minoff page)) := by
  unfold weightOn at fits ⊢
  rw [if_neg (by omega), if_pos leaf, if_pos single] at fits ⊢
  unfold singleLeaf
  cases atOffset : page.leafAt (scan.minoff page) with
  | none => exact .crashed
  | some tup =>
    simp only [atOffset, map_some] at fits ⊢
    cases data : tup.data with
    | plain row =>
      have weight : (if scan.leafHasAgg then (row.agg : ℚ) else 1) =
          ((if scan.leafHasAgg then row.agg else 1 : Nat) : ℚ) := by
        split <;> simp
      simp only [weight]
      by_cases hidden : scan.hides row
      · rw [if_pos hidden]
        exact .rejected _
      · rw [if_neg hidden]
        exact doneSampling_drawn present ..
    | posting rows =>
      simp only [data] at fits ⊢
      split
      next stored =>
        rw [if_pos stored, ← single] at fits
        rw [← single]
        exact chooseLeaf_drawn present _ _ rfl fits
      · split
        · exact .crashed
        · split
          · exact .rejected _
          · exact doneSampling_drawn present ..

/-- The sampler draws from the weight of the page, unless it goes down below one pivot. -/
theorem quickDescend_drawn (branches : page.isLeaf ∨ scan.minoff page ≠ scan.maxoff page)
    (fits : scan.weightOn page < 18446744073709551616) :
    Drawn scan i (scan.weightOn page) (scan.quickDescend random page) := by
  unfold quickDescend
  split
  · exact .rejected _
  next some =>
    split
    next single =>
      have leaf := branches.resolve_right (absurd single)
      rw [if_pos leaf]
      exact singleLeaf_drawn present leaf single fits
    next several =>
      unfold weightOn at fits ⊢
      rw [if_neg some] at fits ⊢
      split
      next leaf =>
        rw [if_pos leaf, if_neg several] at fits
        exact chooseLeaf_drawn present _ _ rfl fits
      next internal =>
        rw [if_neg internal, ← total_filter] at fits
        rw [← total_filter]
        unfold choosePivot
        dsimp only
        split
        · exact .rejected _
        · split
          · exact .crashed
          · rw [runningSums_getLastD fits]
            exact .descend ..

end

theorem Drawn.run {total : Nat} (drawn : Drawn scan i total sampler)
    (fuel : Nat) : Drawn scan i total (run scan random i fuel sampler) := by
  induction fuel generalizing sampler with
  | zero => exact drawn
  | succ fuel ih =>
    refine ih ?_
    cases drawn with
    | descend child acc =>
      simp only [step]
      split
      · exact .crashed
      next page present =>
        unfold live
        repeat' split
        all_goals first
          | exact .crashed
          | exact .descend ..
          | exact continueDescent_drawn present ..
    | selected numerator => exact .selected numerator
    | rejected invProb => exact .rejected invProb
    | crashed => exact .crashed

/-- From a page on, one descent finds the total and the other one draws from it. -/
structure Agrees (scan : Scan α) (random : Draw) (i : Index α) (page : Page α)
    (lvl total : Nat) : Prop where
  weighed : total ≤ 9007199254740992 → ∀ fuel, lvl ≤ fuel → scan.weigh
    (fun blkno hikey => totalFrom scan i fuel (some (blkno, hikey, false))) page = some total
  numerators : total ≤ 9007199254740992 → ∀ {steps heapTid invProb},
    run scan random i steps (scan.quickDescend random page) =
      .finished (.selected heapTid invProb) → Numerator scan i total heapTid invProb

theorem weigh_here (isPage : i.pages blkno = some page)
    (branches : page.isLeaf ∨ scan.minoff page ≠ scan.maxoff page)
    (found : scan.minoff page = scan.maxoff page → (page.leafAt (scan.minoff page)).isSome) :
    Agrees scan random i page lvl (scan.totalBelow i.pages lvl blkno) := by
  rw [(scan.totalBelow_here lvl isPage branches).2]
  refine ⟨fun fits fuel _ => ?_, fun fits {steps heapTid invProb} returned => ?_⟩
  · unfold weightOn at fits ⊢
    unfold weigh
    split
    · rfl
    next some =>
      rw [if_neg some] at fits
      split
      next single =>
        have leaf := branches.resolve_right (absurd single)
        obtain ⟨tup, isTuple⟩ := isSome_iff_exists.mp (found single)
        rw [if_pos leaf, isTuple, map_some] at fits ⊢
        rw [if_pos leaf, map_some]
        cases data : tup.data with
        | plain row =>
          simp only [data, if_pos single] at fits ⊢
          by_cases stored : scan.leafHasAgg
          · rw [if_pos stored] at fits ⊢
            rw [if_pos stored, toDouble_eq fits]
          · rw [if_neg stored, if_neg stored]
        | posting rows =>
          simp only [data, if_pos single] at fits ⊢
          by_cases stored : scan.leafHasAgg
          · rw [if_pos stored] at fits ⊢
            rw [if_pos stored, doubleTotal_eq fits]
          · rw [if_neg stored, if_neg stored]
      next several =>
        rw [if_neg several] at fits
        split at fits
        next leaf =>
          rw [if_pos leaf, if_pos leaf, doubleTotal_eq fits]
        next internal => rw [if_neg internal, if_neg internal, doubleTotal_eq fits]
  · have drawn : Drawn scan i (scan.weightOn page) _ :=
      returned ▸ (quickDescend_drawn isPage branches (by omega)).run steps
    cases drawn with
    | selected numerator => exact numerator

theorem weigh_below (lvl : Nat) : ∀ {blkno : Nat} {hikey : Option (Key α)} {page : Page α},
    Subtree scan i.pages lvl blkno hikey → i.pages blkno = some page →
    Agrees scan random i page lvl (scan.totalBelow i.pages lvl blkno) := by
  induction lvl with
  | zero =>
    intro blkno hikey page subtree isPage
    obtain ⟨found, tuples, has, items, sorted⟩ := subtree
    cases has.present.symm.trans isPage
    have isLeaf := Page.isLeaf_of_leaf items
    refine weigh_here isPage (.inl isLeaf) fun single => ?_
    obtain ⟨low, isMin, -⟩ := (Page.sorted_leaf items sorted).minoff_leaf scan isLeaf
    obtain ⟨high, isMax, inside, -⟩ := (Page.sorted_leaf items sorted).maxoff_leaf scan isLeaf
    rw [Page.keys_leaf items, length_map] at inside
    rw [Page.leafAt, items, isMin]
    dsimp only
    rw [Nat.add_sub_cancel_left, getElem?_eq_getElem (by omega)]
    rfl
  | succ lvl ih =>
    intro blkno hikey page subtree isPage
    by_cases single : scan.minoff page = scan.maxoff page
    · obtain ⟨internal, pivot, child, atOffset, below, has, drawn, same⟩ :=
        subtree.single isPage single
      have total : scan.totalBelow i.pages (lvl + 1) blkno =
          scan.totalBelow i.pages lvl pivot.downlink := by
        rw [totalBelow, drawn]
        rfl
      have agrees := ih below has.present
      rw [total]
      refine ⟨fun fits fuel enough => ?_, fun fits {steps heapTid invProb} returned => ?_⟩
      · obtain ⟨fuel, rfl⟩ := Nat.exists_eq_add_of_le' enough
        rw [← agrees.weighed fits (fuel + lvl) (Nat.le_add_left ..), weigh, if_neg (by omega),
          if_pos single, if_neg (by simp [internal]), atOffset, bind_some, ← Nat.add_assoc,
          totalFrom, has.present, bind_some]
        simp only [Bool.false_and, Bool.false_eq_true, if_false, has.live,
          prevCmpres_eq has.hikey, true_or, if_true]
      · cases steps with
        | zero =>
          rw [run, quickDescend, if_neg (by omega), if_pos single,
            if_neg (by simp [internal]), singlePivot, atOffset] at returned
          cases returned
        | succ steps => exact agrees.numerators fits (same random steps ▸ returned)
    · exact weigh_here isPage (.inr single) (absurd · single)

def wideRows : Index Nat :=
  rootLeaf [postingTuple 1 10 5 9007199254740992, postingTuple 2 20 5 1, postingTuple 3 30 5 1]
    (by decide)

end PgAqp.Sampling
