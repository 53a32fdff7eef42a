import PgAqp.BulkLoad.Sort

/-!
# Room on the pages

A leaf tuple that passes the size check leaves room for two more of its size on a page, and
the keys that are made of it pass the check on the levels above.
-/

namespace PgAqp.BulkLoad

open Abtree Sampling SizedKey

variable {ι α : Type}

/-! ## Sizes -/

theorem le_maxalign (length : Int) : length ≤ maxalign length := by
  unfold maxalign typealign
  omega

theorem dvd_maxalign (length : Int) : 8 ∣ maxalign length :=
  ⟨(length + (8 - 1)) / 8, Int.mul_comm _ _⟩

theorem maxalign_eq (aligned : 8 ∣ length) : maxalign length = length := by
  unfold maxalign typealign
  omega

theorem maxalign_mono (le : first ≤ second) : maxalign first ≤ maxalign second := by
  unfold maxalign typealign
  omega

variable (ix : Index ι α) (tup : LeafTuple ι)

theorem Index.sizes : ix.info.extraSpaceWhenTidPresent = 16 ∧ maxItemSize ix.info = 2688 ∧
      (ix.info.extraSpaceWhenTidMissing = 8 ∨ ix.info.extraSpaceWhenTidMissing = 16) ∧
      (ix.info.extraSpaceForNonpivotTuple = 8 ∨ ix.info.extraSpaceForNonpivotTuple = 16) ∧
      (ix.leafHasAgg → ix.info.extraSpaceForNonpivotTuple = ix.info.extraSpaceWhenTidMissing) ∧
      0 ≤ ix.info.aggStride.toInt := by
  unfold Index.info
  generalize ix.aggType = aggType
  generalize ix.leafHasAgg = leafHasAgg
  cases aggType <;> cases leafHasAgg <;> decide

theorem Index.plainSize_eq (image : ι) : (ix.plainSize image : Int) =
      ix.formSize image + ix.info.extraSpaceForNonpivotTuple := by
  obtain ⟨-, -, -, extra, -⟩ := ix.sizes
  unfold Index.plainSize
  omega

theorem Index.dvd_plainSize (image : ι) : (8 : Int) ∣ ix.plainSize image := by
  obtain ⟨-, -, -, extra, -⟩ := ix.sizes
  have aligned := ix.formSize_aligned image
  have size := ix.plainSize_eq image
  omega

theorem LeafTuple.posting_size (posting : tup.isPosting) :
    (ix.plainSize tup.image : Int) + 24 ≤ tup.size ix := by
  obtain ⟨-, -, -, -, -, stride⟩ := ix.sizes
  have aligned := ix.dvd_plainSize tup.image
  have many : 2 ≤ tup.tids.length := by
    unfold isPosting at posting
    cases more : tup.moreTids with
    | nil => simp [more] at posting
    | cons tid rest => simp [tids, more]
  have aggs : 0 ≤ ix.info.aggStride.toInt * tup.tids.length :=
    Int.mul_nonneg stride (Int.natCast_nonneg _)
  have aggsAligned := le_maxalign (ix.info.aggStride.toInt * tup.tids.length)
  have tids := maxalign_mono (show (ix.plainSize tup.image : Int) + 12 ≤
      ix.plainSize tup.image + 6 * tup.tids.length by omega)
  have first : maxalign ((ix.plainSize tup.image : Int) + 12) = ix.plainSize tup.image + 16 := by
    unfold maxalign typealign
    omega
  have xmins := le_maxalign (4 * tup.tids.length)
  rw [LeafTuple.size, if_pos posting, postingSize, if_pos (by omega)]
  split <;> omega

theorem LeafTuple.size_of_plain
    (plain : ¬ tup.isPosting) : tup.size ix = ix.plainSize tup.image := by
  rw [LeafTuple.size, if_neg plain]

theorem LeafTuple.plainSize_le : (ix.plainSize tup.image : Int) ≤ tup.size ix := by
  by_cases posting : tup.isPosting
  · have size := tup.posting_size ix posting
    omega
  · rw [tup.size_of_plain ix posting]

/-! ## What is small enough -/

structure PivotSize (size : Int) : Prop where
  lower : 8 ≤ size
  upper : size ≤ 2704
  aligned : 8 ∣ size

def Item.Sized : Item ι α → Prop
  | .leaf tup => maxalign (tup.size ix) ≤ 2704 ∧ ix.formSize tup.image ≤ 2688
  | .pivot tup => PivotSize tup.size

theorem minusInfinitySize_sized : PivotSize (minusInfinitySize ix) := by
  obtain ⟨-, -, missing, -⟩ := ix.sizes
  have header : maxalign 8 = 8 := by decide
  unfold minusInfinitySize
  constructor <;> omega

variable {item : Item ι α} {s : PageState ι α}

theorem Item.Sized.bounds {ix : Index ι α} (sized : item.Sized ix) :
    8 ≤ maxalign (item.size ix) ∧ maxalign (item.size ix) ≤ 2704 := by
  cases item with
  | leaf tup =>
    obtain ⟨-, -, -, extra, -⟩ := ix.sizes
    have plain := ix.plainSize_eq tup.image
    have size := tup.plainSize_le ix
    have aligned := le_maxalign (tup.size ix)
    refine ⟨?_, sized.1⟩
    change 8 ≤ maxalign (tup.size ix)
    omega
  | pivot tup =>
    change 8 ≤ maxalign tup.size ∧ maxalign tup.size ≤ 2704
    rw [maxalign_eq sized.aligned]
    exact ⟨sized.lower, sized.upper⟩

theorem Item.Sized.truncateFirst {ix : Index ι α}
    (sized : item.Sized ix) : (item.truncateFirst ix).Sized ix := by
  cases item with
  | leaf tup => exact sized
  | pivot tup => exact minusInfinitySize_sized ix

def LeafTuple.TooLarge : Prop :=
  maxItemSize ix.info < maxalign (tup.size ix) - ix.info.extraSpaceForNonpivotTuple

theorem checkSize_leaf : (checkSize ix 0 (.leaf tup : Item ι α) = .ok () ∧
        (.leaf tup : Item ι α).Sized ix) ∨
      (checkSize ix 0 (.leaf tup : Item ι α) = .error .oversized ∧ tup.TooLarge ix) := by
  obtain ⟨-, limit, missing, extra, same, -⟩ := ix.sizes
  have plain := ix.plainSize_eq tup.image
  have size := tup.plainSize_le ix
  have aligned := le_maxalign (tup.size ix)
  have whole := dvd_maxalign (tup.size ix)
  have itupsz : (.leaf tup : Item ι α).size ix = tup.size ix := rfl
  unfold checkSize LeafTuple.TooLarge Item.Sized
  rw [if_pos rfl, limit, itupsz]
  by_cases fits : maxalign (tup.size ix) - ix.info.extraSpaceForNonpivotTuple ≤ 2688
  · left
    exact ⟨if_pos fits, by omega, by omega⟩
  · right
    refine ⟨?_, by omega⟩
    rw [if_neg fits, if_neg]
    by_cases agg : ix.leafHasAgg
    · rw [if_pos agg, maxalign_eq (by omega), ← same agg]
      exact fits
    · rw [if_neg agg]
      omega

theorem sized_of_checkSize {ix : Index ι α} {tup : LeafTuple ι}
    (accepted : checkSize ix 0 (.leaf tup : Item ι α) = .ok ()) :
    (.leaf tup : Item ι α).Sized ix := by
  rcases checkSize_leaf ix tup with good | bad
  · exact good.2
  · exact nomatch accepted.symm.trans bad.1

theorem checkSize_pivot {ix : Index ι α} {tup : PivotTuple α}
    (inner : lvl ≠ 0) (sized : PivotSize tup.size) :
    checkSize ix lvl (.pivot tup : Item ι α) = .ok () := by
  have limit : maxItemSizeNoHeapTid = 2704 := by decide
  have fits : maxalign ((.pivot tup : Item ι α).size ix) ≤ maxItemSizeNoHeapTid := by
    change maxalign tup.size ≤ maxItemSizeNoHeapTid
    rw [limit, maxalign_eq sized.aligned]
    exact sized.upper
  unfold checkSize
  rw [if_neg inner, if_pos fits, ite_self]

/-! ## Separators -/

structure Separator.Fits (ix : Index ι α) (between : Separator α) (last : Item ι α) : Prop where
  same : between.high.key = between.low.key
  high : maxalign between.high.size ≤ maxalign (last.size ix)
  low : PivotSize between.low.size

theorem truncate_size [DecidableEq α] {ix : Index ι α} (lastleft : LeafTuple ι)
    (sized : (.leaf firstright : Item ι α).Sized ix) :
    ∃ size : Int, 0 ≤ size ∧ size ≤ 2688 ∧ 8 ∣ size ∧ size + 8 ≤ firstright.size ix ∧
      (truncate ix lastleft firstright).size =
        if (truncate ix lastleft firstright).key.heapTid.isSome then size + 8 else size := by
  obtain ⟨-, -, -, extra, -⟩ := ix.sizes
  obtain ⟨whole, form⟩ := sized
  have plain := ix.plainSize_eq firstright.image
  have atLeast := firstright.plainSize_le ix
  have aligned := le_maxalign (firstright.size ix)
  have plainAligned := ix.dvd_plainSize firstright.image
  have tid : maxalign 6 = 8 := by decide
  unfold truncate
  by_cases truncated : keepNatts (ix.attrs lastleft.image) (ix.attrs firstright.image) < ix.nkeyatts
  · have shorter := ix.truncateSize_le firstright.image
      (keepNatts (ix.attrs lastleft.image) (ix.attrs firstright.image))
    have shortAligned := ix.truncateSize_aligned firstright.image
      (keepNatts (ix.attrs lastleft.image) (ix.attrs firstright.image))
    simp only [if_pos truncated]
    exact ⟨_, Int.natCast_nonneg _, by omega, by omega, by omega, rfl⟩
  · simp only [if_neg truncated, tid]
    by_cases posting : firstright.isPosting
    · have long := firstright.posting_size ix posting
      refine ⟨ix.plainSize firstright.image, Int.natCast_nonneg _, by omega, plainAligned,
        by omega, ?_⟩
      split <;> rfl
    · refine ⟨ix.formSize firstright.image, Int.natCast_nonneg _, by omega, by omega, by omega, ?_⟩
      split <;> rfl

theorem SizedKey.reserve_key (pivot : SizedKey α) : (pivot.reserve ix).key = pivot.key := by
  unfold reserve
  split <;> rfl

theorem SizedKey.purge_key (pivot : SizedKey α) : (pivot.purge ix).key = pivot.key := by
  unfold purge
  split <;> rfl

theorem separator_leaf_fits [DecidableEq α] {ix : Index ι α}
    (sized : (.leaf last : Item ι α).Sized ix) :
    Separator.Fits ix ⟨truncate ix prev last, (truncate ix prev last).reserve ix⟩
      (.leaf last : Item ι α) := by
  obtain ⟨present, -, missing, -⟩ := ix.sizes
  obtain ⟨size, lower, upper, aligned, within, total⟩ := truncate_size prev sized
  refine ⟨(reserve_key ix _).symm, maxalign_mono ?_, ?_⟩
  · change (truncate ix prev last).size ≤ last.size ix
    rw [total]
    split <;> omega
  · unfold reserve
    split
    next some =>
      simp only [total]
      unfold maxalignDown
      constructor <;> omega
    next none =>
      rw [if_neg none] at total
      simp only [total]
      constructor <;> omega

theorem separator_pivot_fits {ix : Index ι α} (sized : PivotSize last.size) :
    Separator.Fits ix ⟨(⟨last.key, last.size⟩ : SizedKey α).purge ix, ⟨last.key, last.size⟩⟩
      (.pivot last : Item ι α) := by
  obtain ⟨present, -, missing, -⟩ := ix.sizes
  refine ⟨purge_key ix _, ?_, sized⟩
  obtain ⟨lower, upper, aligned⟩ := sized
  change _ ≤ maxalign last.size
  unfold purge
  split
  · simp only [maxalign, typealign]
    omega
  · simp only [maxalign, typealign]
    omega

/-! ## Open pages -/

/-- The items of an open page have room and are small enough, and so is its low key. -/
structure PageState.Sized (ix : Index ι α) (s : PageState ι α) : Prop where
  space : 0 ≤ pageSpace ix s.items
  items : ∀ item ∈ s.items, item.Sized ix
  lowkey : ∀ low ∈ s.lowkey, PivotSize low.size

theorem pageSpace_nil : pageSpace ix [] = 8140 := by
  have special : maxalign 24 = 24 := by decide
  unfold pageSpace usedSpace
  rfl

theorem pageSpace_cons (item : Item ι α) (items : List (Item ι α)) :
    pageSpace ix (item :: items) = pageSpace ix items - (maxalign (item.size ix) + 4) := by
  unfold pageSpace
  rw [usedSpace]
  omega

theorem freshState_sized (lvl blkno : Nat) : (freshState lvl blkno : PageState ι α).Sized ix where
  space := by
    change 0 ≤ pageSpace ix []
    rw [pageSpace_nil]
    decide
  items := nofun
  lowkey := nofun

theorem pageSpace_of_small (small : ∀ item ∈ items, maxalign (item.size ix) ≤ 2704) :
    8140 - 2708 * (items.length : Int) ≤ pageSpace ix items := by
  induction items with
  | nil => exact (pageSpace_nil ix).ge
  | cons item rest ih =>
    have others := ih fun other later => small other (List.mem_cons_of_mem _ later)
    have this := small item List.mem_cons_self
    rw [pageSpace_cons, List.length_cons]
    omega

theorem room_of_few {ix : Index ι α} (few : items.length ≤ 1)
    (sized : ∀ item ∈ items, item.Sized ix) : 5432 ≤ pageSpace ix items := by
  have room := pageSpace_of_small ix fun item isIn => (sized item isIn).bounds.2
  omega

theorem two_items_of_mustFinish {ix : Index ι α} (sized : s.Sized ix)
    (small : item.Sized ix) (finish : mustFinish ix s item) : 2 ≤ s.items.length := by
  have tid : maxalign 6 = 8 := by decide
  have bounds := small.bounds
  by_contra few
  have room := room_of_few (by omega) sized.items
  have free : freeSpace ix s.items = pageSpace ix s.items - 4 := by
    unfold freeSpace
    rw [if_neg (by omega)]
  unfold mustFinish at finish
  simp only [Bool.or_eq_true, Bool.and_eq_true, decide_eq_true_eq] at finish
  cases finish with
  | inl full => split at full <;> omega
  | inr soft => omega

theorem room_of_not_mustFinish {ix : Index ι α}
    (small : item.Sized ix) (open_ : ¬ mustFinish ix s item) :
    4 + maxalign (item.size ix) ≤ pageSpace ix s.items := by
  have tid : maxalign 6 = 8 := by decide
  have bounds := small.bounds
  unfold mustFinish at open_
  simp only [Bool.or_eq_true, Bool.and_eq_true, decide_eq_true_eq, not_or] at open_
  obtain ⟨hard, -⟩ := open_
  unfold freeSpace at hard
  split at hard <;> split at hard <;> omega

/-! ## Three to a page -/

section

variable [LinearOrder α]

theorem truncate_small {ix : Index ι α} (lastleft : LeafTuple ι)
    (accepted : checkSize ix 0 (.leaf firstright : Item ι α) = .ok ()) :
    maxalign (truncate ix lastleft firstright).size ≤ 2696 := by
  obtain ⟨size, -, upper, aligned, -, total⟩ := truncate_size lastleft (sized_of_checkSize accepted)
  rw [total, maxalign_eq (by split <;> omega)]
  split <;> omega

/-- Whatever leaf tuples pass the check, three pivots made of them fit on an internal page,
and two of them on a leaf page, with a high key made of a third. -/
theorem accepted_fit (ix : Index ι α) : (∀ pivots : List (PivotTuple α), pivots.length ≤ 3 →
        (∀ pivot ∈ pivots, ∃ lastleft firstright : LeafTuple ι,
          checkSize ix 0 (.leaf firstright : Item ι α) = .ok () ∧
            pivot.size = ((truncate ix lastleft firstright).reserve ix).size) →
        0 ≤ pageSpace ix (pivots.map .pivot)) ∧
      ∀ tuples : List (LeafTuple ι), tuples.length ≤ 2 →
        (∀ tup ∈ tuples, checkSize ix 0 (.leaf tup : Item ι α) = .ok ()) →
        ∀ lastleft firstright : LeafTuple ι, checkSize ix 0 (.leaf firstright : Item ι α) = .ok () →
            maxalign (truncate ix lastleft firstright).size ≤ pageSpace ix (tuples.map .leaf) := by
  constructor
  · intro pivots three made
    have small : ∀ item ∈ pivots.map (Item.pivot (ι := ι)), maxalign (item.size ix) ≤ 2704 := by
      refine List.forall_mem_map.mpr fun pivot isPivot => ?_
      obtain ⟨lastleft, firstright, accepted, size⟩ := made pivot isPivot
      have low : PivotSize ((truncate ix lastleft firstright).reserve ix).size :=
        (separator_leaf_fits (sized_of_checkSize accepted)).low
      change maxalign pivot.size ≤ 2704
      rw [size, maxalign_eq low.aligned]
      exact low.upper
    have room := pageSpace_of_small ix small
    rw [List.length_map] at room
    omega
  · intro tuples two accepted lastleft firstright highkey
    have small : ∀ item ∈ tuples.map (Item.leaf (α := α)), maxalign (item.size ix) ≤ 2704 :=
      List.forall_mem_map.mpr fun tup isTuple => (sized_of_checkSize (accepted tup isTuple)).1
    have room := pageSpace_of_small ix small
    have high := truncate_small lastleft highkey
    rw [List.length_map] at room
    omega

/-- Two of the longest rows that are accepted. -/
theorem two_rows_fit : checkSize wideIndex 0 (.leaf ⟨2, 1, []⟩ : Item Nat Nat) = .ok () ∧
    maxalign (truncate wideIndex ⟨2, 2, []⟩ ⟨2, 3, []⟩).size ≤
      pageSpace wideIndex ([⟨2, 1, []⟩, ⟨2, 2, []⟩].map .leaf) :=
  ⟨by decide, (accepted_fit wideIndex).2 [⟨2, 1, []⟩, ⟨2, 2, []⟩] (by decide) (by decide)
    ⟨2, 2, []⟩ ⟨2, 3, []⟩ (by decide)⟩

end

end PgAqp.BulkLoad
