import Mathlib.Algebra.Order.BigOperators.Group.List
import PgAqp.Sampling.Proportion

/-!
# The arrays of the sampler

`abtsampletuple` allocates `prefix_sums` and `item_indexes` once, for as many entries as
values of the aggregate type would fill a page.  `_abt_sample_extended` then writes an
entry for every visible row between two offsets of a leaf page, or for every pivot.
-/

namespace PgAqp.Sampling

open List Option
open VersionStore (AggType)

/-- `agg_typlen`. -/
def aggTyplen : AggType → Nat
  | .int2 => 2
  | .int4 => 4
  | .int8 => 8

/-- `max_num_items`; the page header and the special space have 24 bytes each. -/
def maxNumItems (aggType : AggType) : Nat :=
  (8192 - 24 - 24 + (aggTyplen aggType - 1)) / aggTyplen aggType

/-- The least that a leaf tuple takes: its line pointer and header, and six bytes of a TID and
four of an `xmin` for each row of a posting list, or the aligned `xmin` of a plain tuple. -/
def LeafTuple.bytes {α : Type} (tup : LeafTuple α) : Nat :=
  match tup.data with
  | .plain _ => 4 + 8 + 8
  | .posting rows => 4 + 8 + (6 + 4) * rows.length

/-- The least that the items take.  A pivot has space for its aggregate. -/
def Items.bytes {α : Type} : Items α → Nat
  | .leaf tuples => (tuples.map LeafTuple.bytes).sum
  | .internal pivots => (4 + 8 + 8) * pivots.length

/-- A loop that writes each entry behind those that it has kept stays inside an array. -/
def WritesInside {β : Type} (capacity : Nat) (keep : β → Bool) (es : List β) : Prop :=
  ∀ front e back, es = front ++ e :: back → (front.filter keep).length < capacity

theorem writesInside_of_length {capacity} {β : Type} {es : List β} (keep : β → Bool)
    (room : es.length ≤ capacity) : WritesInside capacity keep es := by
  rintro front e back rfl
  have kept := length_filter_le keep front
  rw [length_append, length_cons] at room
  omega

variable {α : Type} [LinearOrder α]

namespace Scan

/-- No write is out of bounds, and every index that is stored can be read back.  Only one of the
two loops has entries. -/
structure ArraysSafe (scan : Scan α) (page : Page α) (minoff maxoff : Nat) : Prop where
  leafInside : WritesInside (maxNumItems scan.aggType) (fun _ => true)
    (scan.leafEntries 1 page minoff maxoff)
  pivotInside : WritesInside (maxNumItems scan.aggType) (fun e => decide (e.2 ≠ 0))
    (scan.pivotEntries page minoff maxoff)
  leafIndex : ∀ e ∈ scan.leafEntries 1 page minoff maxoff,
    (itemindexGetOffset (offsetAndPostingOffGetItemindex (.ofNat e.1.1) (.ofNat e.1.2))).toNat =
        e.1.1 ∧
      (itemindexGetPostingOff
        (offsetAndPostingOffGetItemindex (.ofNat e.1.1) (.ofNat e.1.2))).toNat = e.1.2
  pivotIndex : ∀ e ∈ scan.pivotEntries page minoff maxoff,
    (itemindexGetOffset (offsetGetItemindex (.ofNat e.1))).toNat = e.1

variable {scan : Scan α} {minoff maxoff : Nat}

theorem length_postingWeights (scan : Scan α) (rows : List Row) :
    ∀ aggs i, (scan.postingWeights rows aggs i).length ≤ rows.length := by
  induction rows with
  | nil => exact fun _ _ => le_rfl
  | cons row rows ih =>
    intro aggs i
    rw [postingWeights]
    split
    · exact (ih aggs (i + 1)).trans (Nat.le_succ _)
    · exact Nat.succ_le_succ (ih aggs.tail (i + 1))

theorem length_rowWeights (tup : LeafTuple α) :
    10 * (scan.rowWeights 1 tup).length ≤ tup.bytes := by
  obtain ⟨attrs, data, dead, filled⟩ := tup
  cases data with
  | plain row =>
    simp only [rowWeights, LeafTuple.bytes]
    split <;> simp
  | posting rows =>
    have count := length_postingWeights scan rows
      (if scan.leafHasAgg then rows.map Row.agg else replicate rows.length 1) 0
    simp only [rowWeights, LeafTuple.bytes]
    omega

theorem length_leafEntries (scan : Scan α) (items : page.items = .leaf tuples)
    (isMin : minoff = page.firstDataKey + low) (isMax : maxoff + 1 = page.firstDataKey + high)
    (inside : high ≤ tuples.length) :
    10 * (scan.leafEntries 1 page minoff maxoff).length ≤ (tuples.map LeafTuple.bytes).sum := by
  have byOffset : 10 * (scan.leafEntries 1 page minoff maxoff).length ≤
      ((range' minoff (maxoff + 1 - minoff)).map fun off =>
        (tuples[off - page.firstDataKey]?).elim 0 LeafTuple.bytes).sum := by
    rw [leafEntries, length_flatMap, ← sum_map_mul_left]
    apply sum_le_sum
    intro off _
    rw [Page.leafAt, items]
    dsimp only
    cases tuples[off - page.firstDataKey]? with
    | none => exact le_rfl
    | some tup => simpa using length_rowWeights tup
  refine byOffset.trans ?_
  have onPage := congrArg (fun found => (found.map fun tup => tup.elim 0 LeafTuple.bytes).sum)
    (map_range' isMin isMax inside)
  simp only [List.map_map, Function.comp_def, elim_some] at onPage
  refine onPage.le.trans ?_
  have part : ((tuples.take high).drop low).Sublist tuples :=
    (drop_sublist low _).trans (take_sublist high tuples)
  exact (part.map LeafTuple.bytes).sum_le_sum fun _ _ => Nat.zero_le _

theorem mem_postingWeights (visible : scan.hides row = false) (rows : List Row) :
    ∀ aggs i place, rows[place]? = some row →
      ∃ weight, (i + place, weight) ∈ scan.postingWeights rows aggs i := by
  induction rows with
  | nil => exact fun _ _ _ found => absurd found (by simp)
  | cons first rows ih =>
    intro aggs i place found
    rw [postingWeights]
    cases place with
    | zero =>
      cases found
      rw [visible]
      exact ⟨_, mem_cons_self⟩
    | succ place =>
      rw [Nat.add_comm place, ← Nat.add_assoc]
      split
      · exact ih aggs (i + 1) place found
      · obtain ⟨weight, later⟩ := ih aggs.tail (i + 1) place found
        exact ⟨weight, mem_cons_of_mem _ later⟩

/-- A visible row that is not the first of its tuple is stored with a place that is lost. -/
theorem hides_of_leafIndex (safe : scan.ArraysSafe page minoff maxoff) (above : minoff ≤ off)
    (below : off ≤ maxoff) (found : page.leafAt off = some tup)
    (isTail : row ∈ tup.rows.tail) : scan.hides row := by
  obtain ⟨attrs, data, dead, filled⟩ := tup
  cases data with
  | plain other => cases isTail
  | posting rows =>
    by_contra shown
    obtain ⟨first, rest, rfl⟩ :=
      exists_cons_of_ne_nil (fun none => filled (congrArg _ none) : rows ≠ [])
    obtain ⟨place, present⟩ := mem_iff_getElem?.mp isTail
    obtain ⟨weight, stored⟩ := mem_postingWeights (Bool.eq_false_of_not_eq_true shown) (first :: rest)
      (if scan.leafHasAgg then (first :: rest).map Row.agg else replicate (first :: rest).length 1)
      0 (place + 1) present
    have isEntry : ((off, 0 + (place + 1)), weight) ∈ scan.leafEntries 1 page minoff maxoff := by
      refine mem_flatMap.mpr ⟨off, mem_range'_1.mpr (by omega), ?_⟩
      rw [found]
      exact mem_map.mpr ⟨_, stored, rfl⟩
    have decoded := (safe.leafIndex _ isEntry).2
    rw [itemindex_postingOff] at decoded
    exact absurd decoded (by simp)

theorem pivotEntries_inside {e : Nat × Nat} (isEntry : e ∈ scan.pivotEntries page minoff maxoff) :
    minoff ≤ e.1 ∧ e.1 ≤ maxoff := by
  obtain ⟨off, inRange, found⟩ := mem_filterMap.mp isEntry
  obtain ⟨pivot, -, rfl⟩ := map_eq_some_iff.mp found
  have bounds := mem_range'_1.mp inRange
  dsimp only
  omega

theorem capacity_le (aggType : AggType) : 1018 ≤ maxNumItems aggType := by
  cases aggType <;> decide

/-- The arrays are large enough for whatever fits on a page.  An item index has no room for the
place in a posting list, so it can be read back only if no row behind the first of a tuple
is visible. -/
theorem arraysSafe_iff (scan : Scan α) (page : Page α) (minoff maxoff : Nat)
    (fits : page.items.bytes ≤ 8192 - 24 - 24) (first : page.firstDataKey ≤ minoff)
    (ordered : minoff ≤ maxoff) (last : maxoff ≤ page.maxOffset) :
    scan.ArraysSafe page minoff maxoff ↔
      ∀ off tup, minoff ≤ off → off ≤ maxoff → page.leafAt off = some tup →
        ∀ row ∈ tup.rows.tail, scan.hides row = true := by
  refine ⟨fun safe off tup above below found row isTail =>
    hides_of_leafIndex safe above below found isTail, fun hidden => ?_⟩
  have capacity := capacity_le scan.aggType
  have start : 1 ≤ page.firstDataKey ∧ page.firstDataKey ≤ 2 := by
    unfold Page.firstDataKey
    split <;> decide
  have size := page.fits
  unfold Page.maxOffset at last
  have pivotIndex (e : Nat × Nat) (isEntry : e ∈ scan.pivotEntries page minoff maxoff) :
      (itemindexGetOffset (offsetGetItemindex (.ofNat e.1))).toNat = e.1 := by
    have inside := pivotEntries_inside isEntry
    exact itemindexGetOffset_offset (by omega)
  cases items : page.items with
  | internal pivots =>
    rw [items] at fits size last
    simp only [Items.bytes, Items.length] at fits size last
    have noLeaf : scan.leafEntries 1 page minoff maxoff = [] := by
      simp [leafEntries, Page.leafAt, items]
    have few : (scan.pivotEntries page minoff maxoff).length ≤ maxoff + 1 - minoff :=
      (length_filterMap_le _ _).trans length_range'.le
    refine ⟨?_, writesInside_of_length _ (by omega), ?_, pivotIndex⟩
    · rw [noLeaf]
      exact writesInside_of_length _ (Nat.zero_le _)
    · rw [noLeaf]
      exact fun _ none => absurd none not_mem_nil
  | leaf tuples =>
    rw [items] at fits size last
    simp only [Items.bytes, Items.length] at fits size last
    obtain ⟨low, isMin⟩ := Nat.exists_eq_add_of_le first
    obtain ⟨high, isMax⟩ := Nat.exists_eq_add_of_le (by omega : page.firstDataKey ≤ maxoff + 1)
    have inside : high ≤ tuples.length := by omega
    have noPivot : scan.pivotEntries page minoff maxoff = [] := by
      simp [pivotEntries, Page.pivotAt, items]
    have few := length_leafEntries scan items isMin isMax inside
    refine ⟨writesInside_of_length _ (by omega), ?_, ?_, pivotIndex⟩
    · rw [noPivot]
      exact writesInside_of_length _ (Nat.zero_le _)
    · rintro ⟨place, weight⟩ isEntry
      refine leafEntries_decoded items isMin isMax inside (fun tup isTup => ?_) isEntry
      -- the tuples between the two places are those at the offsets of the range
      obtain ⟨i, found⟩ := mem_iff_getElem?.mp isTup
      rw [getElem?_drop, getElem?_take] at found
      obtain ⟨below, found⟩ := ite_none_right_eq_some.mp found
      refine hidden (page.firstDataKey + (low + i)) tup (by omega) (by omega) ?_
      rw [Page.leafAt, items]
      simpa using found

end Scan

/-- A leaf page with a plain tuple and a posting list of which only the first row is visible. -/
def hiddenTailPage : Page Nat :=
  ⟨.leaf [plainTuple 1 10, ⟨[2], .posting [⟨20, 5, 2⟩, ⟨21, 30, 2⟩, ⟨22, 31, 2⟩], false, nofun⟩],
    none, 0, false, by decide⟩

theorem hidden_tail_safe : (countScan fromTwo).ArraysSafe hiddenTailPage 1 2 := by
  refine (Scan.arraysSafe_iff (countScan fromTwo) hiddenTailPage 1 2 (by decide) (by decide)
    (by decide) (by decide)).mpr fun off tup above below found => ?_
  obtain rfl | rfl : off = 1 ∨ off = 2 := by omega
  · cases found
    exact nofun
  · cases found
    decide

/-- A leaf page with a plain tuple and a posting list of two visible rows. -/
def postingPage : Page Nat :=
  ⟨.leaf [plainTuple 1 10, postingTuple 2 20 5 2], none, 0, false, by decide⟩

/-- The second row of the list is stored as if it were the first. -/
theorem second_row_lost : ((2, 1), 1) ∈ (countScan fromTwo).leafEntries 1 postingPage 1 2 ∧
    itemindexGetPostingOff (offsetAndPostingOffGetItemindex 2 1) = 0 := by
  decide

end PgAqp.Sampling
