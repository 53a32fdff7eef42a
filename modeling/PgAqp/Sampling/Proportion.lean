import PgAqp.Sampling.Fair

/-!
# The sampler selects rows in proportion to their weights

The whole call on a tree at rest.  The place in a posting list is lost in the item index
of the first page, and the pointer to the aggregates of a posting list is not moved over
hidden rows.  Without leaf aggregates the inverse probability is not divided by the weight.
-/

namespace PgAqp.Sampling

open VersionStore (Xid AbtSnapshot)
open Library List Option LeafTuple Scan Page Weighted Sampler

variable {α : Type} [LinearOrder α] {γ : Type} {items : List γ} {scan : Scan α}

theorem mem_slice
    (present : items[place]? = some item) (above : low ≤ place) (below : place < high) :
    item ∈ (items.take high).drop low := by
  refine mem_of_getElem? (i := place - low) ?_
  rw [getElem?_drop, getElem?_take, Nat.add_sub_cancel' above, if_pos below, present]

theorem slice_sublist (items : List γ) (low high : Nat) :
    ((items.take high).drop low).Sublist items :=
  (drop_sublist _ _).trans (take_sublist _ _)

theorem slice_single
    (present : items[place]? = some item) : (items.take (place + 1)).drop place = [item] := by
  have inside := (List.getElem?_eq_some_iff.mp present).1
  rw [take_add_one, present, drop_append_of_le_length (by rw [length_take]; omega),
    drop_of_length_le (by rw [length_take]; omega)]
  rfl

namespace Scan

variable {scan : Scan α}

theorem singlePlain_fair (present : page.leafAt off = some tup) (plain : tup.data = .plain row)
    (mem : tup ∈ tuples) (uniform : scan.leafHasAgg = false → scan.aggMapVal = 1)
    (inRange : ∀ other ∈ tuples, scan.range.checkkeys other.attrs → other = tup) :
    Fair scan tuples (scan.weight row)
      (fun cutoff => scan.singleLeaf (.ofCutoff cutoff) page off) [((tup, row), scan.weight row)] := by
  have rows : tup.rows = [row] := by rw [rows, plain]
  have isRow : row ∈ tup.rows := rows ▸ mem_singleton_self row
  refine ⟨Nat.add_zero _, ?_, ?_, ?_, ?_, ?_⟩
  · intro e isEntry
    rw [mem_singleton.mp isEntry]
  · intro e isEntry
    rw [mem_singleton.mp isEntry]
    exact ⟨mem, isRow⟩
  · exact singleton_sublist.mpr (mem_flatMap.mpr ⟨tup, mem, isRow⟩)
  · intro other isOther otherRow isOtherRow returned
    cases inRange other isOther (Bool.and_eq_true_iff.mp returned).2
    rw [rows] at isOtherRow
    rw [mem_singleton.mp isOtherRow]
    exact mem_singleton_self _
  · intro cutoff other otherRow rest picked
    obtain ⟨weight, isEntry, smaller⟩ := pick_mem picked
    cases mem_singleton.mp isEntry
    have total : (if scan.leafHasAgg then (row.agg : ℚ) else 1) = (scan.weight row : ℚ) := by
      unfold weight
      cases stored : scan.leafHasAgg with
      | true => rfl
      | false => simp [uniform stored]
    unfold singleLeaf
    rw [present]
    dsimp only
    rw [plain]
    dsimp only
    rw [total]
    have resolved : page.resolve (off, 0) = some (tup, row) := by
      simp [resolve, present, rowAt, plain]
    exact drawn_settles resolved (scan.weight row) uniform (Nat.zero_lt_of_lt smaller)

/-- A posting list that is alone in the range, without leaf aggregates: hidden rows are drawn too,
and then rejected. -/
theorem singlePosting_fair {rows : List Row} (present : page.leafAt off = some tup)
    (posting : tup.data = .posting rows) (mem : tup ∈ tuples)
    (noAgg : scan.leafHasAgg = false) (one : scan.aggMapVal = 1)
    (inRange : ∀ other ∈ tuples, scan.range.checkkeys other.attrs → other = tup) :
    Fair scan tuples rows.length (fun cutoff => scan.singleLeaf (.ofCutoff cutoff) page off)
      (rows.map fun row => ((tup, row), 1)) := by
  have isRows : tup.rows = rows := by rw [LeafTuple.rows, posting]
  have weighs : ∀ row, scan.weight row = 1 := by
    intro row
    rw [weight, if_neg (by simp [noAgg]), one]
  have ones : ∀ e ∈ rows.map fun row => ((tup, row), 1), e.2 = 1 := by
    intro e isEntry
    obtain ⟨row, _, same⟩ := mem_map.mp isEntry
    rw [← same]
  refine ⟨by rw [total_of_ones ones, length_map], ?_, ?_, ?_, ?_, ?_⟩
  · intro e isEntry
    rw [ones e isEntry, weighs]
  · intro e isEntry
    obtain ⟨row, isRow, same⟩ := mem_map.mp isEntry
    cases same
    exact ⟨mem, isRows ▸ isRow⟩
  · have whole := (singleton_sublist.mpr mem).flatMap LeafTuple.rows
    rw [flatMap_singleton, isRows] at whole
    rw [List.map_map]
    exact (map_id rows).symm ▸ whole
  · intro other isOther row isRow returned
    cases inRange other isOther (Bool.and_eq_true_iff.mp returned).2
    rw [weighs]
    exact mem_map.mpr ⟨row, isRows ▸ isRow, rfl⟩
  · intro cutoff other row rest picked
    rw [pick_of_ones ones, getElem?_map, Option.map_map] at picked
    obtain ⟨found, atCutoff, same⟩ := map_eq_some_iff.mp picked
    cases same
    unfold singleLeaf
    rw [present]
    dsimp only
    rw [posting]
    dsimp only
    rw [if_neg (by simp [noAgg]), Draw.cutoff_ofCutoff, atCutoff]
    dsimp only
    have chosen : tup.rowAt cutoff.val = some row := by
      rw [rowAt, posting]
      exact atCutoff
    have resolved : page.resolve (off, cutoff.val) = some (tup, row) := by
      rw [resolve, present, bind_some, chosen]
      rfl
    exact drawn_settles resolved rows.length (fun _ => one) (by rw [weighs]; exact Nat.one_pos)

theorem singleLeaf_fair
    (items : page.items = .leaf tuples) (isMin : scan.minoff page = page.firstDataKey + low)
    (isMax : scan.maxoff page = scan.minoff page) (inside : low < tuples.length)
    (uniform : scan.leafHasAgg = false → scan.aggMapVal = 1) (regular : scan.RegularOn pages page)
    (fits : scan.weightOn page < 18446744073709551616)
    (inSlice : ∀ tup ∈ tuples, scan.range.checkkeys tup.attrs →
      tup ∈ (tuples.take (low + 1)).drop low) :
    ∃ es, Fair scan tuples (scan.weightOn page)
      (fun cutoff => scan.singleLeaf (.ofCutoff cutoff) page (scan.minoff page)) es := by
  have isLeaf := isLeaf_of_leaf items
  obtain ⟨tup, atLow⟩ : ∃ tup, tuples[low]? = some tup := ⟨_, getElem?_eq_getElem inside⟩
  have mem := mem_of_getElem? atLow
  have present : page.leafAt (scan.minoff page) = some tup := by
    rw [leafAt, items]
    dsimp only
    rw [isMin, Nat.add_sub_cancel_left, atLow]
  have alone : ∀ other ∈ tuples, scan.range.checkkeys other.attrs → other = tup := by
    intro other isOther checked
    have isMember := inSlice other isOther checked
    rw [slice_single atLow] at isMember
    exact mem_singleton.mp isMember
  have notEmpty : ¬ scan.maxoff page < scan.minoff page := by omega
  cases data : tup.data with
  | plain row =>
    have weighs : scan.weightOn page = scan.weight row := by
      rw [weightOn, if_neg notEmpty, if_pos isLeaf, if_pos isMax.symm, present, map_some, data]
      unfold weight
      cases stored : scan.leafHasAgg with
      | true => rfl
      | false => exact (uniform stored).symm
    rw [weighs]
    exact ⟨_, singlePlain_fair present data mem uniform alone⟩
  | posting rows =>
    cases stored : scan.leafHasAgg with
    | true =>
      have weighs : scan.weightOn page =
          total (scan.leafEntries 1 page (scan.minoff page) (scan.minoff page)) := by
        rw [weightOn, if_neg notEmpty, if_pos isLeaf, if_pos isMax.symm, present, map_some, data]
        dsimp only
        rw [if_pos stored, isMax]
      have isCandidate : scan.candidates pages page = (tuples.take (low + 1)).drop low := by
        rw [candidates, items]
        dsimp only [inRange]
        rw [isMax, isMin, Nat.add_assoc, Nat.add_sub_cancel_left, Nat.add_sub_cancel_left]
      have readable : scan.leafHasAgg →
          ∀ tup ∈ (tuples.take (low + 1)).drop low, scan.readable tup := by
        rw [← isCandidate]
        exact regular.readable isLeaf
      have firsts : ∀ tup ∈ (tuples.take (low + 1)).drop low, ∀ row ∈ tup.rows.tail,
          scan.hides row ∨ scan.leafHasAgg ∧ row.agg = 0 := by
        rw [← isCandidate]
        exact regular.firsts isLeaf (.inl stored)
      have top : scan.minoff page + 1 = page.firstDataKey + (low + 1) := by omega
      refine ⟨_, Fair.ofShares (fun _ _ _ _ _ stored => (uniform stored).le) ?_
        (slice_sublist tuples low (low + 1)) inSlice ?_⟩
      · rw [weighs, total_leafEntries items isMin top (by omega)
          (fun noAgg => (uniform noAgg).symm) readable]
      · intro cutoff other row rest picked
        unfold singleLeaf
        rw [present]
        dsimp only
        rw [data]
        dsimp only
        rw [if_pos stored]
        exact chooseLeaf_eq items isMin top (by omega) uniform readable firsts weighs.symm fits
          cutoff picked
    | false =>
      have weighs : scan.weightOn page = rows.length := by
        rw [weightOn, if_neg notEmpty, if_pos isLeaf, if_pos isMax.symm, present, map_some, data]
        dsimp only
        rw [if_neg (by simp [stored])]
      rw [weighs]
      exact ⟨_, singlePosting_fair present data mem stored (uniform stored) alone⟩

theorem leaf_fair (items : page.items = .leaf tuples)
    (sorted : tuples.Pairwise fun tup later => tup.key ≤ later.key)
    (uniform : scan.leafHasAgg = false → scan.aggMapVal = 1) (regular : scan.RegularOn pages page)
    (fits : scan.weightOn page < 18446744073709551616) :
    ∃ es, Fair scan tuples (scan.weightOn page)
      (fun cutoff => scan.quickDescend (.ofCutoff cutoff) page) es := by
  have pageSorted := sorted_leaf items sorted
  have isLeaf := isLeaf_of_leaf items
  obtain ⟨low, isMin, _, pre⟩ := pageSorted.minoff_leaf scan isLeaf
  obtain ⟨high, isMax, inside, below⟩ := pageSorted.maxoff_leaf scan isLeaf
  have keyAt : ∀ (place : Nat) (tup : LeafTuple α), tuples[place]? = some tup →
      page.keys[place]? = some tup.key := by
    intro place tup present
    rw [keys_leaf items, getElem?_map, present]
    rfl
  rw [keys_leaf items, length_map] at inside
  have inRange : ∀ tup ∈ tuples, scan.range.checkkeys tup.attrs →
      ∃ place, tuples[place]? = some tup ∧ low ≤ place ∧ place < high := by
    intro tup mem checked
    obtain ⟨notBefore, notBehind⟩ := inside_of_checkkeys checked
    obtain ⟨place, present⟩ := getElem?_of_mem mem
    refine ⟨place, present, Nat.le_of_not_lt fun early => ?_,
      (below place _ (keyAt place tup present)).mp notBehind⟩
    rw [(pre place _ (keyAt place tup present)).mpr early] at notBefore
    cases notBefore
  by_cases none : scan.maxoff page < scan.minoff page
  · -- nothing is in the range
    have nothing : scan.weightOn page = 0 := if_pos none
    rw [nothing]
    refine ⟨[], Fair.nothing fun tup isTuple checked => ?_⟩
    obtain ⟨place, _, above, upTo⟩ := inRange tup isTuple checked
    omega
  · have slice : scan.candidates pages page = (tuples.take high).drop low := by
      rw [candidates, items]
      dsimp only [Scan.inRange]
      rw [isMin, isMax, Nat.add_sub_cancel_left, Nat.add_sub_cancel_left]
    have inSlice : ∀ tup ∈ tuples, scan.range.checkkeys tup.attrs →
        tup ∈ (tuples.take high).drop low := by
      intro tup mem checked
      obtain ⟨place, present, above, upTo⟩ := inRange tup mem checked
      exact mem_slice present above upTo
    by_cases single : scan.minoff page = scan.maxoff page
    · have isHigh : high = low + 1 := by omega
      rw [isHigh] at inSlice
      obtain ⟨es, fair⟩ := singleLeaf_fair items isMin single.symm (by omega) uniform regular fits
        inSlice
      refine ⟨es, ?_⟩
      have same : ∀ random, scan.quickDescend random page =
          scan.singleLeaf random page (scan.minoff page) := by
        intro random
        rw [quickDescend, if_neg none, if_pos single, if_pos isLeaf]
      simp only [same]
      exact fair
    · have weighs : scan.weightOn page =
          total (scan.leafEntries 1 page (scan.minoff page) (scan.maxoff page)) := by
        rw [weightOn, if_neg none, if_pos isLeaf, if_neg single]
      have readable : scan.leafHasAgg → ∀ tup ∈ (tuples.take high).drop low, scan.readable tup := by
        rw [← slice]
        exact regular.readable isLeaf
      have firsts : ∀ tup ∈ (tuples.take high).drop low, ∀ row ∈ tup.rows.tail,
          scan.hides row ∨ scan.leafHasAgg ∧ row.agg = 0 := by
        rw [← slice]
        exact regular.firsts isLeaf (.inr single)
      have ones : scan.leafHasAgg = false → 1 = scan.aggMapVal := fun stored => (uniform stored).symm
      refine ⟨_, Fair.ofShares (fun _ _ _ _ _ stored => (uniform stored).le) ?_
        (slice_sublist tuples low high) inSlice ?_⟩
      · rw [weighs, total_leafEntries items isMin isMax inside ones readable]
      · intro cutoff tup row rest picked
        rw [quickDescend, if_neg none, if_neg single, if_pos isLeaf]
        exact chooseLeaf_eq items isMin isMax inside uniform readable firsts weighs.symm fits cutoff
          picked

end Scan

/-- The pivots between the ends of the range on an internal page: everything in the range is below
one of them. -/
theorem InternalOf.inSlice (internal : InternalOf scan below page pivots) :
    ∃ low high, scan.minoff page = page.firstDataKey + low ∧ low < pivots.length ∧
      scan.maxoff page = page.firstDataKey + high ∧ high < pivots.length ∧
      ∀ tup ∈ pivots.flatMap below, scan.range.checkkeys tup.attrs →
        tup ∈ ((pivots.take (high + 1)).drop low).flatMap below := by
  obtain ⟨low, isMin, lowInside, _, pre⟩ := internal.minoff
  obtain ⟨high, isMax, highInside, _, behind⟩ := internal.maxoff
  refine ⟨low, high, isMin, lowInside, isMax, highInside, fun tup mem checked => ?_⟩
  obtain ⟨notBefore, notBehind⟩ := inside_of_checkkeys checked
  obtain ⟨pivot, isPivot, isBelow⟩ := mem_flatMap.mp mem
  obtain ⟨place, present⟩ := getElem?_of_mem isPivot
  refine mem_flatMap.mpr ⟨pivot, mem_slice present ?_ ?_, isBelow⟩
  · refine Nat.le_of_not_lt fun early => ?_
    rw [(pre place pivot present tup isBelow).1 early] at notBefore
    cases notBefore
  · refine Nat.lt_succ_of_le (Nat.le_of_not_lt fun late => ?_)
    rw [(behind place pivot present tup isBelow).2 late] at notBehind
    cases notBehind

section

variable {scan : Scan α} {index : Index α} {page : Page α}

/-- The choice begins on a page with several candidates, or with a leaf tuple. -/
theorem Scan.totalBelow_here (scan : Scan α) (lvl : Nat) (isPage : index.pages blkno = some page)
    (branches : page.isLeaf ∨ scan.minoff page ≠ scan.maxoff page) :
    scan.drawPage index.pages lvl blkno = some page ∧
      scan.totalBelow index.pages lvl blkno = scan.weightOn page := by
  have drawn : scan.drawPage index.pages lvl blkno = some page := by
    cases lvl with
    | zero => exact isPage
    | succ lvl =>
      rw [drawPage, isPage, bind_some, if_neg]
      rintro ⟨internal, single⟩
      rcases branches with leaf | several
      · rw [leaf] at internal
        cases internal
      · exact several single
  exact ⟨drawn, by rw [totalBelow, drawn]; rfl⟩

/-- Below a page with a single candidate the choice begins as on its child. -/
theorem Subtree.single {hikey : Option (Key α)}
    (subtree : Subtree scan index.pages (lvl + 1) blkno hikey)
    (isPage : index.pages blkno = some page) (single : scan.minoff page = scan.maxoff page) :
    page.isLeaf = false ∧ ∃ pivot child, page.pivotAt (scan.minoff page) = some pivot ∧
      Subtree scan index.pages lvl pivot.downlink (page.expectedHikey (scan.minoff page)) ∧
      HasPage index.pages pivot.downlink (page.expectedHikey (scan.minoff page)) lvl child ∧
      scan.drawPage index.pages (lvl + 1) blkno = scan.drawPage index.pages lvl pivot.downlink ∧
      ∀ random fuel, run scan random index (fuel + 1) (scan.quickDescend random page) =
        run scan random index fuel (scan.quickDescend random child) := by
  obtain ⟨found, pivots, has, internal, children⟩ := subtree
  cases has.present.symm.trans isPage
  obtain ⟨low, -, isMin, lowInside, -⟩ := internal.inSlice
  have atLow := getElem?_eq_getElem lowInside
  have atOffset : page.pivotAt (scan.minoff page) = some pivots[low] := by
    rw [pivotAt, internal.items]
    dsimp only
    rw [isMin, Nat.add_sub_cancel_left, atLow]
  have child := children low _ atLow
  rw [← isMin] at child
  obtain ⟨childPage, childHas⟩ := child.hasPage
  refine ⟨internal.isLeaf, pivots[low], childPage, atOffset, child, childHas, ?_, ?_⟩
  · rw [drawPage, isPage, bind_some, if_pos ⟨internal.isLeaf, single⟩, atOffset, bind_some]
  · intro random fuel
    rw [quickDescend, if_neg (by omega), if_pos single, if_neg (by simp [internal.isLeaf]),
      singlePivot, atOffset]
    rw [run, step_quick childHas]

end

/-- The scan with the constant weight of a row where the choice begins on a page. -/
def Scan.drawScan (scan : Scan α) (page : Page α) : Scan α :=
  { scan with aggMapVal := if page.isLeaf then 1 else scan.aggMapVal }

section

variable (scan : Scan α) (page : Page α)

theorem postingWeights_drawScan (rows : List Row) (aggs : List Nat) (i : Nat) :
    (scan.drawScan page).postingWeights rows aggs i = scan.postingWeights rows aggs i := by
  induction rows generalizing aggs i with
  | nil => rfl
  | cons row rows ih =>
    simp only [postingWeights, ih]
    rfl

theorem leafEntries_drawScan (constant : Nat) :
    (scan.drawScan page).leafEntries constant = scan.leafEntries constant := by
  funext page minoff maxoff
  simp only [leafEntries, rowWeights, postingWeights_drawScan]
  rfl

theorem weightOn_drawScan : (scan.drawScan page).weightOn page = scan.weightOn page := by
  simp only [weightOn, leafEntries_drawScan]
  rfl

theorem quickDescend_drawScan (random : Draw) :
    (scan.drawScan page).quickDescend random page = scan.quickDescend random page := by
  simp only [quickDescend, singleLeaf, chooseLeaf, leafEntries_drawScan]
  rfl
end

theorem Scan.RegularOn.drawScan (regular : scan.RegularOn pages page) (isLeaf : page.isLeaf) :
    (scan.drawScan page).RegularOn pages page where
  firsts := regular.firsts
  readable := regular.readable
  reached _ pivots items := by simp [isLeaf_of_internal items] at isLeaf
  uniform internal := by simp [isLeaf] at internal

theorem quickDescend_fair (lvl : Nat) :
    ∀ {blkno fuel : Nat} {hikey : Option (Key α)} {page drawn : Page α},
      Subtree scan index.pages lvl blkno hikey → index.pages blkno = some page →
      scan.drawPage index.pages lvl blkno = some drawn → scan.RegularOn index.pages drawn →
      scan.totalBelow index.pages lvl blkno < 18446744073709551616 → lvl ≤ fuel →
      ∃ es, Fair (scan.drawScan drawn) (leavesBelow index.pages lvl blkno)
        (scan.totalBelow index.pages lvl blkno) (fun cutoff => run scan (.ofCutoff cutoff) index fuel
          (scan.quickDescend (.ofCutoff cutoff) page)) es := by
  induction lvl with
  | zero =>
    intro blkno fuel hikey page drawn subtree isPage isDrawn regular fits _
    obtain ⟨found, tuples, has, items, sorted⟩ := subtree
    cases has.present.symm.trans isPage
    cases isPage.symm.trans isDrawn
    have isLeaf := isLeaf_of_leaf items
    rw [(scan.totalBelow_here 0 isPage (.inl isLeaf)).2] at fits ⊢
    rw [leavesBelow_leaf isPage items]
    -- the choice on a leaf page does not read the constant weight
    obtain ⟨es, fair⟩ := leaf_fair items sorted (fun _ => if_pos isLeaf) (regular.drawScan isLeaf)
      (weightOn_drawScan scan page ▸ fits)
    rw [weightOn_drawScan] at fair
    simp only [quickDescend_drawScan] at fair
    exact ⟨es, fair.run scan _ fuel⟩
  | succ lvl ih =>
    intro blkno fuel hikey page drawn subtree isPage isDrawn regular fits enough
    have whole := subtree
    obtain ⟨found, pivots, has, internal, children⟩ := subtree
    cases has.present.symm.trans isPage
    obtain ⟨low, high, isMin, lowInside, isMax, highInside, inSlice⟩ := internal.inSlice
    have leaves := leavesBelow_internal lvl isPage internal.items
    by_cases single : scan.minoff page = scan.maxoff page
    · -- go down below the only pivot
      obtain ⟨-, pivot, childPage, atOffset, child, childHas, sameDraw, same⟩ :=
        whole.single isPage single
      have total : scan.totalBelow index.pages (lvl + 1) blkno =
          scan.totalBelow index.pages lvl pivot.downlink := by
        rw [totalBelow, sameDraw]
        rfl
      obtain ⟨fuel, rfl⟩ := Nat.exists_eq_add_of_lt ((Nat.succ_pos lvl).trans_le enough)
      rw [total] at fits ⊢
      rw [sameDraw] at isDrawn
      obtain ⟨es, fair⟩ :=
        ih child childHas.present isDrawn regular fits (Nat.le_of_succ_le_succ enough)
      refine ⟨es, ?_⟩
      simp only [same]
      rw [pivotAt, internal.items] at atOffset
      rw [isMin, Nat.add_sub_cancel_left] at atOffset
      refine fair.widen ?_ fun tup mem checked => ?_
      · rw [leaves]
        have one := (singleton_sublist.mpr (mem_of_getElem? atOffset)).flatMap
          fun pivot => leavesBelow index.pages lvl pivot.downlink
        rwa [flatMap_singleton] at one
      · rw [leaves] at mem
        have isBelow := inSlice tup mem checked
        have isHigh : high = low := by omega
        rw [isHigh, slice_single atOffset, flatMap_singleton] at isBelow
        exact isBelow
    · obtain ⟨here, total⟩ := scan.totalBelow_here (lvl + 1) isPage (.inr single)
      cases here.symm.trans isDrawn
      have asDrawn : scan.drawScan page = scan := by
        simp [Scan.drawScan, internal.isLeaf]
      rw [total] at fits ⊢
      rw [leaves, asDrawn]
      by_cases none : scan.maxoff page < scan.minoff page
      · -- the range is empty
        have nothing : scan.weightOn page = 0 := if_pos none
        rw [nothing]
        refine ⟨[], Fair.nothing fun tup mem checked => ?_⟩
        have isBelow := inSlice tup mem checked
        rw [drop_of_length_le (by rw [length_take]; omega)] at isBelow
        exact absurd isBelow not_mem_nil
      · have weighs : scan.weightOn page =
            Weighted.total (scan.pivotEntries page (scan.minoff page) (scan.maxoff page)) := by
          rw [weightOn, if_neg none, if_neg (by simp [internal.isLeaf])]
        have top : scan.maxoff page + 1 = page.firstDataKey + (high + 1) := by omega
        have isCandidate : scan.candidates index.pages page =
            ((pivots.take (high + 1)).drop low).flatMap fun pivot =>
              leavesBelow index.pages lvl pivot.downlink := by
          rw [candidates, internal.items]
          dsimp only [inRange]
          rw [top, isMin, Nat.add_sub_cancel_left, Nat.add_sub_cancel_left, has.level,
            Nat.add_sub_cancel]
        have sum := total_pivotEntries internal isMin top (by omega)
        refine ⟨_, Fair.ofShares (fun tup isTuple row isRow returned stored =>
          regular.uniform internal.isLeaf stored tup (isCandidate ▸ isTuple) row isRow returned)
          (weighs.trans sum).symm ((slice_sublist pivots low (high + 1)).flatMap _) inSlice ?_⟩
        intro cutoff tup row rest picked
        obtain ⟨place, pivot, left, present, mem, chosen, _, later⟩ :=
          choosePivot_eq internal isMin top (by omega) weighs.symm fits cutoff picked
        have part := scan.visibleWeight_le
          (fun pivot => leavesBelow index.pages lvl pivot.downlink) mem
        rw [quickDescend, if_neg none, if_neg single, if_neg (by simp [internal.isLeaf]), chosen]
        refine descend_runs lvl (children place pivot present) ?_ ?_ (by omega) later
        · intro stored
          have slice : scan.inRange page pivots = (pivots.take (high + 1)).drop low := by
            rw [inRange, top, isMin, Nat.add_sub_cancel_left, Nat.add_sub_cancel_left]
          have reached := regular.reached stored pivots internal.items pivot (slice ▸ mem)
          rwa [has.level, Nat.add_sub_cancel] at reached
        · omega

structure AtRest (scan : Scan α) (index : Index α) (root lvl : Nat) : Prop where
  isRoot : index.root = some root
  subtree : Subtree scan index.pages lvl root none
  distinct : (((leavesBelow index.pages lvl root).flatMap rows).map Row.heapTid).Nodup

def wholeRange : Range Nat where
  qualOk := true
  inskeyLow := none
  inskeyHigh := none
  checkkeys _ := true
  lowBound key mem := by cases mem
  highBound key mem := by cases mem
  satisfiable _ _ := rfl
  aboveLow _ _ _ key mem := by cases mem
  belowHigh _ _ _ key mem := by cases mem

def fromTwo : Range Nat where
  qualOk := true
  inskeyLow := some (.bound [2] false)
  inskeyHigh := none
  checkkeys attrs := attrs.head?.any fun attr => decide (2 ≤ attr)
  lowBound key mem := by cases mem; exact ⟨rfl, rfl⟩
  highBound key mem := by cases mem
  satisfiable _ _ := rfl
  aboveLow attrs heapTid checked key mem := by
    cases mem
    cases attrs with
    | nil => cases checked
    | cons attr attrs =>
      have above : 2 ≤ attr := of_decide_eq_true checked
      rw [ScanInsert.compareKey_bound_cons]
      cases Nat.lt_or_eq_of_le above with
      | inl greater => rw [compare_lt_iff_lt.mpr greater]; rfl
      | inr same =>
        rw [← same, compare_eq_iff_eq.mpr rfl, Ordering.eq_then,
          ScanInsert.compareKey_bound_nil, if_neg (by simp)]
        rfl
  belowHigh _ _ _ key mem := by cases mem

/-- Transactions before 10 are seen, those from 20 on are not. -/
def midSnapshot : AbtSnapshot where
  xmin := 10
  xmax := 20
  xip := []

def plainTuple (key heapTid : Nat) : LeafTuple Nat where
  attrs := [key]
  data := .plain ⟨heapTid, 5, 2⟩
  dead := false
  filled same := by cases same

/-- A posting list of two rows of weight 2, the first with this `xmin` and aggregate. -/
def postingTuple (key heapTid : Nat) (xmin : Xid) (agg : Nat) : LeafTuple Nat where
  attrs := [key]
  data := .posting [⟨heapTid, xmin, agg⟩, ⟨heapTid + 1, 5, 2⟩]
  dead := false
  filled same := by cases same

/-- A scan under `midSnapshot` of an index without leaf aggregates. -/
def countScan (range : Range Nat) : Scan Nat where
  range := range
  ignoreKilledTuples := true
  snapshot := some midSnapshot
  leafHasAgg := false
  aggMapVal := 1
  aggType := .int8
  versions _ := []

def rootLeaf (tuples : List (LeafTuple Nat)) (fits : tuples.length < 2048) : Index Nat where
  root := some 1
  pages blkno := if blkno = 1 then some ⟨.leaf tuples, none, 0, false, fits⟩ else none

def twoLeaves (left right : List (LeafTuple Nat)) (leftAgg rightAgg : Nat)
    (leftFits : left.length < 2048) (rightFits : right.length < 2048) : Index Nat where
  root := some 1
  pages blkno :=
    if blkno = 1 then
      some ⟨.internal [⟨⟨[], none⟩, 2, leftAgg⟩, ⟨⟨[3], none⟩, 3, rightAgg⟩], none, 1, false,
        Nat.le_of_ble_eq_true rfl⟩
    else if blkno = 2 then some ⟨.leaf left, some (⟨[3], none⟩, 3), 0, false, leftFits⟩
    else if blkno = 3 then some ⟨.leaf right, none, 0, false, rightFits⟩
    else none

theorem rootLeaf_atRest {scan : Scan Nat} {fits : tuples.length < 2048}
    (sorted : tuples.Pairwise fun tup later => tup.key ≤ later.key)
    (diff : ((tuples.flatMap rows).map Row.heapTid).Nodup) :
    AtRest scan (rootLeaf tuples fits) 1 0 :=
  ⟨rfl, ⟨_, tuples, ⟨rfl, rfl, rfl, rfl⟩, rfl, sorted⟩, diff⟩

theorem twoLeaves_atRest {scan : Scan Nat} {left right : List (LeafTuple Nat)}
    {leftFits : left.length < 2048} {rightFits : right.length < 2048}
    (leftSorted : left.Pairwise fun tup later => tup.key ≤ later.key)
    (rightSorted : right.Pairwise fun tup later => tup.key ≤ later.key)
    (leftBelow : ∀ tup ∈ left, tup.key ≤ ⟨[3], none⟩)
    (rightAbove : ∀ tup ∈ right, (⟨[3], none⟩ : Key Nat) ≤ tup.key)
    (leftExact : scan.readAgg ⟨⟨[], none⟩, 2, leftAgg⟩ = scan.visibleWeight left)
    (rightExact : scan.readAgg ⟨⟨[3], none⟩, 3, rightAgg⟩ = scan.visibleWeight right)
    (diff : (((left ++ right).flatMap rows).map Row.heapTid).Nodup) :
    AtRest scan (twoLeaves left right leftAgg rightAgg leftFits rightFits) 1 1 := by
  refine ⟨rfl, ⟨_, [⟨⟨[], none⟩, 2, leftAgg⟩, ⟨⟨[3], none⟩, 3, rightAgg⟩], ⟨rfl, rfl, rfl, rfl⟩,
    ⟨rfl, cons_ne_nil _ _, ?_, ?_, pairwise_singleton _ _⟩, ?_⟩, ?_⟩
  · intro pivot isPivot
    cases mem_cons.mp isPivot with
    | inl isLeft => rw [isLeft]; exact leftExact
    | inr isRight => rw [mem_singleton.mp isRight]; exact rightExact
  · exact pairwise_pair.mpr ⟨leftBelow, rightAbove⟩
  · intro place pivot present
    match place with
    | 0 =>
      cases present
      exact ⟨_, left, ⟨rfl, rfl, rfl, rfl⟩, rfl, leftSorted⟩
    | 1 =>
      cases present
      exact ⟨_, right, ⟨rfl, rfl, rfl, rfl⟩, rfl, rightSorted⟩
    | place + 2 => cases present
  · have leaves : leavesBelow (twoLeaves left right leftAgg rightAgg leftFits rightFits).pages 1 1 =
        left ++ (right ++ []) := rfl
    rw [leaves, append_nil]
    exact diff

/-- Five visible rows, four of them with keys from 2 on, one of them behind a hidden row. -/
def fiveRows : Index Nat :=
  twoLeaves [plainTuple 1 10, postingTuple 2 20 30 0] [plainTuple 3 30, postingTuple 4 40 5 2] 2 3
    (by decide) (by decide)

end PgAqp.Sampling
