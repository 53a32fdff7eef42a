import PgAqp.Sampling.Descent

/-!
# Fair choices

The choice on the first page with more than one candidate is fair if the numbers
below the total weight are laid out over the rows that are considered, and each number
decides as its row does.
-/

namespace PgAqp.Sampling

open Library List Option Weighted Draw

variable {α : Type} [LinearOrder α]

theorem and_mask (value : UInt32) : (value &&& 0xffff).toNat = value.toNat % 65536 := by
  exact Nat.and_two_pow_sub_one_eq_mod value.toNat 16

theorem toNat_ofNat_small (small : offset < 65536) : (UInt32.ofNat offset).toNat = offset := by
  exact Nat.mod_eq_of_lt (by omega)

theorem itemindexGetOffset_offset (small : offset < 65536) :
    (itemindexGetOffset (offsetGetItemindex (.ofNat offset))).toNat = offset := by
  rw [itemindexGetOffset, offsetGetItemindex, and_mask, and_mask, toNat_ofNat_small small]
  omega

theorem postingOff_lost (postingOff : UInt32) : (postingOff &&& 0xffff0000) <<< 16 = 0 := by
  have low : (postingOff.toNat &&& 4294901760) % 65536 = 0 := by
    have parts := Nat.and_mod_two_pow (a := postingOff.toNat) (b := 4294901760) (n := 16)
    exact parts.trans (Nat.and_zero _)
  apply UInt32.toNat_inj.mp
  change (postingOff.toNat &&& 4294901760) <<< 16 % 4294967296 = 0
  omega

theorem itemindex_offset (postingOff : UInt32) (small : offset < 65536) :
    (itemindexGetOffset (offsetAndPostingOffGetItemindex (.ofNat offset) postingOff)).toNat =
      offset := by
  rw [offsetAndPostingOffGetItemindex, postingOff_lost, UInt32.or_zero]
  exact itemindexGetOffset_offset small

theorem itemindex_postingOff (offset postingOff : UInt32) :
    itemindexGetPostingOff (offsetAndPostingOffGetItemindex offset postingOff) = 0 := by
  rw [offsetAndPostingOffGetItemindex, postingOff_lost, UInt32.or_zero, itemindexGetPostingOff,
    offsetGetItemindex, UInt32.and_assoc]
  have none : (0xffff : UInt32) &&& 0xffff0000 = 0 := by decide
  rw [none, UInt32.and_zero]
  decide

theorem Draw.cutoff_ofCutoff {total : Nat} (cutoff : Fin total) :
    (ofCutoff cutoff).cutoff total = cutoff := by
  have scaled : (ofCutoff cutoff).scale total = cutoff :=
    Nat.mul_div_cancel_left _ (Nat.zero_lt_of_lt cutoff.isLt)
  rw [Draw.cutoff, scaled, if_neg (cutoff.isLt.ne)]

namespace Scan

variable {scan : Scan α} {minoff maxoff total : Nat}

theorem mem_shares (mem : e ∈ scan.shares tuples) : e.1.1 ∈ tuples ∧ e.1.2 ∈ e.1.1.rows ∧
    scan.hides e.1.2 = false ∧ e.2 = scan.weight e.1.2 := by
  obtain ⟨tup, isTuple, isEntry⟩ := mem_flatMap.mp mem
  obtain ⟨row, kept, same⟩ := mem_map.mp isEntry
  obtain ⟨isRow, visible⟩ := mem_filter.mp kept
  cases same
  exact ⟨isTuple, isRow, (Bool.not_eq_true' _).mp visible, rfl⟩

theorem rowWeights_first (firsts : ∀ row ∈ tup.rows.tail, scan.hides row) :
    ∀ e ∈ scan.rowWeights constant tup, e.1 = 0 := by
  obtain ⟨attrs, data, dead⟩ := tup
  intro e mem
  cases data with
  | plain row =>
    change e ∈ (if scan.hides row then [] else [(0, _)] : List (Nat × Nat)) at mem
    split at mem
    · exact absurd mem not_mem_nil
    · rw [mem_singleton.mp mem]
  | posting rows =>
    cases rows with
    | nil => exact absurd mem not_mem_nil
    | cons row rows =>
      have hidden : rows.all scan.hides := all_eq_true.mpr firsts
      change e ∈ scan.postingWeights (row :: rows) _ 0 at mem
      rw [postingWeights, postingWeights_hidden hidden, postingWeights_hidden hidden] at mem
      split at mem
      · exact absurd mem not_mem_nil
      · rw [mem_singleton.mp mem]

theorem leafEntries_place (items : page.items = .leaf tuples)
    (isMin : minoff = page.firstDataKey + low) (isMax : maxoff + 1 = page.firstDataKey + high)
    (inside : high ≤ tuples.length) {weight : Nat}
    (mem : (place, weight) ∈ scan.leafEntries constant page minoff maxoff) :
    (itemindexGetOffset
        (offsetAndPostingOffGetItemindex (.ofNat place.1) (.ofNat place.2))).toNat = place.1 ∧
      ∃ tup ∈ (tuples.take high).drop low, ∃ e ∈ scan.rowWeights constant tup, e.1 = place.2 := by
  obtain ⟨offset, inRange, isEntry⟩ := mem_flatMap.mp mem
  cases present : page.leafAt offset with
  | none =>
    rw [present] at isEntry
    exact absurd isEntry not_mem_nil
  | some tup =>
    rw [present] at isEntry
    obtain ⟨e, isRow, same⟩ := mem_map.mp isEntry
    cases same
    have isTuple : tup ∈ (tuples.take high).drop low := by
      have found := mem_map_of_mem (f := fun offset => tuples[offset - page.firstDataKey]?) inRange
      rw [map_range' isMin isMax inside] at found
      rw [Page.leafAt, items] at present
      dsimp only at found present
      rw [present] at found
      obtain ⟨_, isMember, same⟩ := mem_map.mp found
      cases same
      exact isMember
    have size := page.fits
    rw [items] at size
    change tuples.length < 2048 at size
    have first : page.firstDataKey ≤ 2 := by
      unfold Page.firstDataKey
      split <;> decide
    obtain ⟨above, bound⟩ := mem_range'_1.mp inRange
    exact ⟨itemindex_offset _ (by change offset < 65536; omega), tup, isTuple, e, isRow, rfl⟩

theorem leafEntries_decoded (items : page.items = .leaf tuples)
    (isMin : minoff = page.firstDataKey + low) (isMax : maxoff + 1 = page.firstDataKey + high)
    (inside : high ≤ tuples.length)
    (firsts : ∀ tup ∈ (tuples.take high).drop low, ∀ row ∈ tup.rows.tail, scan.hides row)
    {weight : Nat} (mem : (place, weight) ∈ scan.leafEntries constant page minoff maxoff) :
    (itemindexGetOffset
        (offsetAndPostingOffGetItemindex (.ofNat place.1) (.ofNat place.2))).toNat = place.1 ∧
      (itemindexGetPostingOff
        (offsetAndPostingOffGetItemindex (.ofNat place.1) (.ofNat place.2))).toNat = place.2 := by
  obtain ⟨isOffset, tup, isTuple, e, isRow, same⟩ := leafEntries_place items isMin isMax inside mem
  refine ⟨isOffset, ?_⟩
  rw [itemindex_postingOff, ← same, rowWeights_first (firsts tup isTuple) e isRow]
  rfl

/-- A row with a weight is found without its place in the list if only first rows have one. -/
theorem resolve_first {page : Page α} (resolved : page.resolve place = some (tup, row))
    (firsts : ∀ row ∈ tup.rows.tail, scan.hides row ∨ scan.leafHasAgg ∧ row.agg = 0)
    (visible : scan.hides row = false) (weighs : 0 < scan.weight row) :
    page.resolve (place.1, 0) = some (tup, row) := by
  obtain ⟨found, present, chosen⟩ := bind_eq_some_iff.mp resolved
  obtain ⟨other, atPlace, same⟩ := map_eq_some_iff.mp chosen
  cases same
  rw [Page.resolve, present, bind_some]
  unfold LeafTuple.rowAt at atPlace ⊢
  unfold LeafTuple.rows at firsts
  cases data : tup.data with
  | plain only =>
    rw [data] at atPlace
    rw [atPlace]
    rfl
  | posting rows =>
    rw [data] at atPlace firsts
    dsimp only at atPlace firsts ⊢
    cases isPlace : place.2 with
    | zero => rw [← isPlace, atPlace]; rfl
    | succ later =>
      rw [isPlace] at atPlace
      have isTail : row ∈ rows.tail := mem_of_getElem? (by rw [getElem?_tail]; exact atPlace)
      unfold weight at weighs
      rcases firsts row isTail with hidden | ⟨stored, none⟩
      · simp [visible] at hidden
      · rw [if_pos stored, none] at weighs
        exact absurd weighs (Nat.lt_irrefl 0)

theorem chooseLeaf_eq (items : page.items = .leaf tuples) (isMin : minoff = page.firstDataKey + low)
    (isMax : maxoff + 1 = page.firstDataKey + high) (inside : high ≤ tuples.length)
    (uniform : scan.leafHasAgg = false → scan.aggMapVal = 1)
    (readable : scan.leafHasAgg → ∀ tup ∈ (tuples.take high).drop low, scan.readable tup)
    (firsts : ∀ tup ∈ (tuples.take high).drop low, ∀ row ∈ tup.rows.tail,
      scan.hides row ∨ scan.leafHasAgg ∧ row.agg = 0)
    (isTotal : Weighted.total (scan.leafEntries 1 page minoff maxoff) = total)
    (fits : total < 18446744073709551616) (cutoff : Fin total)
    (picked : pick (scan.shares ((tuples.take high).drop low)) cutoff = some ((tup, row), rest)) :
    scan.chooseLeaf (.ofCutoff cutoff) page minoff maxoff =
      .finished (scan.settle tup row (.finite total)) := by
  obtain ⟨place, found, resolved⟩ := pick_leafEntries items isMin isMax inside
    (fun stored => (uniform stored).symm) readable picked
  obtain ⟨isTuple, -, visible, isWeight⟩ := mem_shares (pick_mem picked).choose_spec.1
  have weighs := Nat.lt_of_lt_of_eq (Nat.zero_lt_of_lt (pick_mem picked).choose_spec.2) isWeight
  have decoded : ∀ i weight, (scan.leafEntries 1 page minoff maxoff)[i]? = some (place, weight) →
      scan.doneSampling page
        (itemindexGetOffset (((scan.leafEntries 1 page minoff maxoff).map fun e =>
          offsetAndPostingOffGetItemindex (.ofNat e.1.1) (.ofNat e.1.2)).getD i 0)).toNat
        (itemindexGetPostingOff (((scan.leafEntries 1 page minoff maxoff).map fun e =>
          offsetAndPostingOffGetItemindex (.ofNat e.1.1) (.ofNat e.1.2)).getD i 0)).toNat
        (.finite total) = .finished (scan.settle tup row (.finite total)) := by
    intro i weight present
    obtain ⟨isOffset, -⟩ := leafEntries_place items isMin isMax inside (mem_of_getElem? present)
    rw [getD_eq_getElem?_getD, getElem?_map, present]
    simp only [map_some, getD_some]
    rw [isOffset, itemindex_postingOff]
    exact doneSampling_eq (resolve_first resolved (firsts tup isTuple) visible weighs) _
  have nonempty : scan.leafEntries 1 page minoff maxoff ≠ [] := by
    intro empty
    have pos := Nat.zero_lt_of_lt cutoff.isLt
    rw [← isTotal, empty] at pos
    exact Nat.lt_irrefl 0 pos
  unfold chooseLeaf
  dsimp only
  rw [if_neg nonempty]
  cases stored : scan.leafHasAgg with
  | true =>
    rw [if_pos rfl, runningSums_getLastD (by omega), isTotal, cutoff_ofCutoff]
    obtain ⟨e, present, same⟩ := cutoffIndex_spec (by omega)
      (Nat.lt_of_lt_of_eq cutoff.isLt isTotal.symm)
    rw [found] at same
    cases same
    exact decoded _ e.2 present
  | false =>
    have ones : ∀ e ∈ scan.leafEntries 1 page minoff maxoff, e.2 = 1 := leafEntries_ones stored
    rw [pick_of_ones ones] at found
    obtain ⟨e, present, same⟩ := map_eq_some_iff.mp found
    cases same
    rw [if_neg (by decide), ← total_of_ones ones, isTotal, cutoff_ofCutoff]
    exact decoded _ e.2 present

theorem choosePivot_eq
    (internal : InternalOf scan below page pivots) (isMin : minoff = page.firstDataKey + low)
    (isMax : maxoff + 1 = page.firstDataKey + high) (inside : high ≤ pivots.length)
    (isTotal : Weighted.total (scan.pivotEntries page minoff maxoff) = total)
    (fits : total < 18446744073709551616) (cutoff : Fin total)
    (picked : pick (scan.shares (((pivots.take high).drop low).flatMap below)) cutoff =
      some (label, rest)) :
    ∃ place pivot left, pivots[place]? = some pivot ∧ pivot ∈ (pivots.take high).drop low ∧
      scan.choosePivot (.ofCutoff cutoff) page minoff maxoff =
        .descend ⟨pivot.downlink, page.expectedHikey (page.firstDataKey + place), left, false⟩ 0
          (.finite total) ∧
      left < scan.readAgg pivot ∧
      pick (scan.shares (below pivot)) left = some (label, rest) := by
  obtain ⟨place, pivot, left, present, mem, found, smaller, later⟩ :=
    pick_pivotEntries internal isMin isMax inside picked
  refine ⟨place, pivot, left, present, mem, ?_, smaller, later⟩
  -- pivots without weight are left out of the sums
  rw [← pick_filter] at found
  rw [← total_filter] at isTotal
  have nonempty :
      (scan.pivotEntries page minoff maxoff).filter (fun e => decide (e.2 ≠ 0)) ≠ [] := by
    intro empty
    rw [empty] at found
    cases found
  obtain ⟨e, atIndex, same⟩ := cutoffIndex_spec (by omega)
    (Nat.lt_of_lt_of_eq cutoff.isLt isTotal.symm)
  rw [found] at same
  obtain ⟨isOffset, isLeft⟩ := Prod.mk.inj (some.inj same)
  have small : page.firstDataKey + place < 65536 := by
    have size := page.fits
    rw [internal.items] at size
    change pivots.length < 2048 at size
    have first : page.firstDataKey ≤ 2 := by
      unfold Page.firstDataKey
      split <;> decide
    have bound := (List.getElem?_eq_some_iff.mp present).1
    omega
  have atOffset : page.pivotAt (page.firstDataKey + place) = some pivot := by
    rw [Page.pivotAt, internal.items]
    dsimp only
    rw [Nat.add_sub_cancel_left, present]
  unfold choosePivot
  dsimp only
  rw [if_neg nonempty, runningSums_getLastD (by omega), isTotal, cutoff_ofCutoff,
    getD_eq_getElem?_getD, getElem?_map, atIndex]
  simp only [map_some, getD_some]
  rw [← isOffset, itemindexGetOffset_offset small, atOffset, isLeft]

end Scan

/-- The numbers below the total are laid out over rows, and each number decides as its row does. -/
structure Fair (scan : Scan α) (tuples : List (LeafTuple α)) (total : Nat)
    (out : Fin total → Sampler α) (es : List ((LeafTuple α × Row) × Nat)) : Prop where
  sum : Weighted.total es = total
  weights : ∀ e ∈ es, e.2 = scan.weight e.1.2
  members : ∀ e ∈ es, e.1.1 ∈ tuples ∧ e.1.2 ∈ e.1.1.rows
  rows : (es.map fun e => e.1.2).Sublist (tuples.flatMap LeafTuple.rows)
  complete : ∀ tup ∈ tuples, ∀ row ∈ tup.rows, scan.returns tup row = true →
    ((tup, row), scan.weight row) ∈ es
  drawn : ∀ cutoff tup row rest, pick es cutoff.val = some ((tup, row), rest) →
    (scan.returns tup row = true → out cutoff =
      .finished (.selected row.heapTid (.finite (total / scan.weight row)))) ∧
    (scan.returns tup row = false → ∃ invProb, out cutoff = .finished (.rejected invProb))

namespace Fair

variable {scan : Scan α} {tuples : List (LeafTuple α)} {total : Nat} {out : Fin total → Sampler α}

theorem settled (fair : Fair scan tuples total out es) (cutoff : Fin total) :
    (∃ tup ∈ tuples, ∃ row ∈ tup.rows, scan.returns tup row ∧ out cutoff =
      .finished (.selected row.heapTid (.finite (total / scan.weight row)))) ∨
    ∃ invProb, out cutoff = .finished (.rejected invProb) := by
  obtain ⟨⟨⟨tup, row⟩, weight⟩, mem, rest, _, picked⟩ :=
    pick_lt (Nat.lt_of_lt_of_eq cutoff.isLt fair.sum.symm)
  obtain ⟨selects, rejects⟩ := fair.drawn cutoff tup row rest picked
  cases returned : scan.returns tup row with
  | true =>
    obtain ⟨isTuple, isRow⟩ := fair.members _ mem
    exact .inl ⟨tup, isTuple, row, isRow, returned, selects returned⟩
  | false => exact .inr (rejects returned)

/-- A visible row in the range is selected by as many numbers as its weight. -/
theorem card (fair : Fair scan tuples total out es)
    (diff : ((tuples.flatMap LeafTuple.rows).map Row.heapTid).Nodup) (isTuple : tup ∈ tuples)
    (isRow : row ∈ tup.rows) (returned : scan.returns tup row) :
    (Finset.univ.filter fun cutoff : Fin total => out cutoff =
        .finished (.selected row.heapTid (.finite (total / scan.weight row)))).card =
      scan.weight row := by
  have views : (es.map fun e => e.1.2.heapTid).Nodup := by
    have tids := (fair.rows.map Row.heapTid).nodup diff
    rwa [List.map_map] at tids
  have mem := fair.complete tup isTuple row isRow returned
  have sameLabel : ∀ e ∈ es, e.1.2.heapTid = row.heapTid → e.1 = (tup, row) := by
    intro e isEntry same
    exact congrArg Prod.fst (inj_on_of_nodup_map views isEntry mem same)
  have sum := fair.sum
  subst sum
  have picks := card_picks (fun label : LeafTuple α × Row => label.2.heapTid) row.heapTid es
  have weighs := total_filter_of_unique (fun label : LeafTuple α × Row => label.2.heapTid) views mem
  refine Eq.trans ?_ (picks.trans weighs)
  refine congrArg Finset.card (Finset.filter_congr fun cutoff _ => ?_)
  obtain ⟨⟨⟨other, otherRow⟩, weight⟩, isEntry, rest, _, picked⟩ := pick_lt cutoff.isLt
  obtain ⟨selects, rejects⟩ := fair.drawn cutoff other otherRow rest picked
  rw [picked, map_some, some.injEq]
  constructor
  · intro selected
    cases otherReturned : scan.returns other otherRow with
    | true =>
      have same := (selects otherReturned).symm.trans selected
      exact (Outcome.selected.inj (Sampler.finished.inj same)).1
    | false =>
      obtain ⟨invProb, rejected⟩ := rejects otherReturned
      rw [rejected] at selected
      cases selected
  · intro same
    cases sameLabel _ isEntry same
    exact selects returned

theorem nothing {out : Fin 0 → Sampler α}
    (outside : ∀ tup ∈ tuples, scan.range.checkkeys tup.attrs → False) :
    Fair scan tuples 0 out [] where
  sum := rfl
  weights _ mem := absurd mem not_mem_nil
  members _ mem := absurd mem not_mem_nil
  rows := nil_sublist _
  complete tup isTuple _ _ returned :=
    (outside tup isTuple (Bool.and_eq_true_iff.mp returned).2).elim
  drawn cutoff := cutoff.elim0

theorem run (fair : Fair scan tuples total out es) (other : Scan α) (random : Fin total → Draw)
    (fuel : Nat) :
    Fair scan tuples total (fun cutoff => Sampler.run other (random cutoff) i fuel (out cutoff))
      es :=
  { fair with
    drawn cutoff tup row rest picked := by
      obtain ⟨selects, rejects⟩ := fair.drawn cutoff tup row rest picked
      constructor
      · intro returned
        rw [selects returned]
        exact Sampler.run_finished _ fuel
      · intro notReturned
        obtain ⟨invProb, rejected⟩ := rejects notReturned
        exact ⟨invProb, by rw [rejected]; exact Sampler.run_finished _ fuel⟩ }

theorem widen (fair : Fair scan tuples total out es) (sublist : tuples.Sublist more)
    (inside : ∀ tup ∈ more, scan.range.checkkeys tup.attrs → tup ∈ tuples) :
    Fair scan more total out es :=
  { fair with
    members e mem := ⟨sublist.subset (fair.members e mem).1, (fair.members e mem).2⟩
    rows := fair.rows.trans (sublist.flatMap _)
    complete tup isTuple row isRow returned := by
      refine fair.complete tup (inside tup isTuple ?_) row isRow returned
      exact (Bool.and_eq_true_iff.mp returned).2 }

/-- The visible rows of the candidates, when each number settles on the row that it falls on. -/
theorem ofShares (uniform : ∀ tup ∈ chosen, ∀ row ∈ tup.rows, scan.returns tup row →
      scan.leafHasAgg = false → scan.aggMapVal ≤ 1)
    (sum : scan.visibleWeight chosen = total) (sublist : chosen.Sublist tuples)
    (inside : ∀ tup ∈ tuples, scan.range.checkkeys tup.attrs → tup ∈ chosen)
    (drawn : ∀ cutoff tup row rest, pick (scan.shares chosen) cutoff.val = some ((tup, row), rest) →
      out cutoff = .finished (scan.settle tup row (.finite total))) :
    Fair scan tuples total out (scan.shares chosen) := by
  refine ⟨sum, ?_, ?_, ?_, ?_, ?_⟩
  · intro e mem
    exact (Scan.mem_shares mem).2.2.2
  · intro e mem
    exact ⟨sublist.subset (Scan.mem_shares mem).1, (Scan.mem_shares mem).2.1⟩
  · have rows : (scan.shares chosen).map (fun e => e.1.2) =
        chosen.flatMap fun tup => tup.rows.filter fun row => !scan.hides row := by
      rw [Scan.shares, map_flatMap]
      refine flatMap_congr fun tup _ => ?_
      rw [List.map_map]
      exact map_id _
    rw [rows]
    refine List.Sublist.trans ?_ (sublist.flatMap LeafTuple.rows)
    clear sum sublist inside drawn uniform rows
    induction chosen with
    | nil => exact List.Sublist.refl _
    | cons tup chosen ih => exact List.Sublist.append filter_sublist ih
  · intro tup isTuple row isRow returned
    obtain ⟨alive, checked⟩ := Bool.and_eq_true_iff.mp returned
    refine mem_flatMap.mpr ⟨tup, inside tup isTuple checked, mem_map.mpr ⟨row, ?_, rfl⟩⟩
    exact mem_filter.mpr ⟨isRow, (Bool.and_eq_true_iff.mp alive).1⟩
  · intro cutoff tup row rest picked
    obtain ⟨weight, mem, smaller⟩ := pick_mem picked
    obtain ⟨isTuple, isRow, visible, isWeight⟩ := Scan.mem_shares mem
    rw [drawn cutoff tup row rest picked]
    exact Scan.settle_settles tup total (uniform tup isTuple row isRow)
      (Nat.lt_of_lt_of_eq (Nat.zero_lt_of_lt smaller) isWeight) visible

end Fair

end PgAqp.Sampling
