import PgAqp.Sampling.Tree

/-!
# The weights that the sampler adds up

The two ways in which the sampler finds the place of a cutoff are the weighted choice of
the library, as long as the sums fit 64 bits.
-/

namespace PgAqp.Sampling

open VersionStore (sub64_eq)
open Library Function List Option Weighted

section

variable {β : Type}

theorem add64_eq (fits : first + second < 18446744073709551616) :
    add64 first second = first + second := Nat.mod_eq_of_lt fits

theorem accumulate_eq (es : List (β × Nat)) :
    ∀ {acc : Nat}, acc ≤ cutoff → acc + total es < 18446744073709551616 → accumulate cutoff acc es =
        match pick es (cutoff - acc) with
        | some found => .inl found
        | none => .inr (acc + total es) := by
  induction es with
  | nil => intro acc _ _; rfl
  | cons e es ih =>
    intro acc passed fits
    rw [total_cons] at fits
    rw [accumulate, pick, add64_eq (by omega)]
    by_cases here : cutoff < acc + e.2
    · rw [if_pos here, if_pos (by omega), sub64_eq passed (by omega)]
    · rw [if_neg here, if_neg (by omega), ih (by omega) (by omega), Nat.sub_sub,
        total_cons, Nat.add_assoc]

theorem accumulate_append (first second : List (β × Nat)) :
    ∀ acc, accumulate cutoff acc (first ++ second) =
      match accumulate cutoff acc first with
      | .inl found => .inl found
      | .inr acc => accumulate cutoff acc second := by
  induction first with
  | nil => exact fun _ => rfl
  | cons e first ih =>
    intro acc
    rw [cons_append, accumulate, accumulate]
    split
    · rfl
    · exact ih _

theorem length_runningSums (ws : List Nat) : ∀ acc, (runningSums acc ws).length = ws.length := by
  induction ws with
  | nil => intro acc; rfl
  | cons weight ws ih => intro acc; exact congrArg Nat.succ (ih _)

theorem runningSums_getD (es : List (β × Nat)) :
    ∀ acc i : Nat, acc + total es < 18446744073709551616 → i < es.length →
      (runningSums acc (es.map Prod.snd)).getD i 0 = acc + total (es.take (i + 1)) := by
  induction es with
  | nil => intro acc i _ inside; exact absurd inside (Nat.not_lt_zero _)
  | cons e es ih =>
    intro acc i fits inside
    rw [total_cons] at fits
    rw [map_cons, runningSums, add64_eq (by omega), take_succ_cons, total_cons]
    cases i with
    | zero => rfl
    | succ i =>
      rw [getD_cons_succ, ih _ _ (by omega) (Nat.lt_of_succ_lt_succ inside), Nat.add_assoc]

theorem runningSums_getLastD (fits : total es < 18446744073709551616) :
    (runningSums 0 (es.map Prod.snd)).getLastD 0 = total es := by
  cases es with
  | nil => rfl
  | cons e rest =>
    have last := runningSums_getD (e :: rest) 0 rest.length (by omega) (Nat.lt_succ_self _)
    have whole : (e :: rest).take (rest.length + 1) = e :: rest := take_of_length_le le_rfl
    rw [whole, Nat.zero_add] at last
    rw [← last, getLastD_eq_getLast?, getLast?_eq_getElem?, length_runningSums,
      length_map, getD_eq_getElem?_getD]
    rfl

theorem total_take_le (es : List (β × Nat)) (upTo : i ≤ later) :
    total (es.take i) ≤ total (es.take later) := by
  have front : es.take i = (es.take later).take i := by rw [take_take, Nat.min_eq_left upTo]
  rw [front]
  calc total ((es.take later).take i) ≤ total ((es.take later).take i) +
          total ((es.take later).drop i) := Nat.le_add_right _ _
    _ = total (es.take later) := by rw [← total_append, take_append_drop]

theorem cutoffIndex_spec (fits : total es < 18446744073709551616) (below : cutoff < total es) :
    ∃ e, es[cutoffIndex (runningSums 0 (es.map Prod.snd)) cutoff]? = some e ∧
      pick es cutoff = some (e.1, residual (runningSums 0 (es.map Prod.snd))
          (cutoffIndex (runningSums 0 (es.map Prod.snd)) cutoff) cutoff) := by
  have size : (runningSums 0 (es.map Prod.snd)).length = es.length := by
    rw [length_runningSums, length_map]
  have sums : ∀ i, i < es.length →
      (runningSums 0 (es.map Prod.snd)).getD i 0 = total (es.take (i + 1)) := by
    intro i inside
    rw [runningSums_getD es 0 i (by omega) inside, Nat.zero_add]
  have rising : Bisect.Rising
      (fun i => decide (cutoff < (runningSums 0 (es.map Prod.snd)).getD i 0)) 0
      (runningSums 0 (es.map Prod.snd)).length := by
    intro i later _ upTo inside passed
    rw [size] at inside
    have reached := of_decide_eq_true passed
    rw [sums i (by omega)] at reached
    have grows := total_take_le es (Nat.add_le_add_right upTo 1)
    exact decide_eq_true (by rw [sums later inside]; omega)
  have found := Bisect.first_isFirst (Nat.zero_le _) rising
  change Bisect.IsFirst _ _ _ (cutoffIndex (runningSums 0 (es.map Prod.snd)) cutoff) at found
  generalize cutoffIndex (runningSums 0 (es.map Prod.snd)) cutoff = i at found ⊢
  have upper := found.upper
  rw [size] at upper
  have inside : i < es.length := by
    refine Nat.lt_of_le_of_ne upper fun atEnd => ?_
    -- the last sum is the total, which is above the cutoff
    have pos : 0 < es.length := by
      cases es with
      | nil => exact absurd below (Nat.not_lt_zero _)
      | cons e rest => exact Nat.succ_pos _
    have fails := found.fails (es.length - 1) (Nat.zero_le _) (by omega)
    rw [decide_eq_false_iff_not, sums _ (by omega), Nat.sub_add_cancel pos,
      take_of_length_le le_rfl] at fails
    exact fails below
  have passes := found.passes i le_rfl (by omega)
  rw [decide_eq_true_eq, sums i inside] at passes
  have above : total (es.take i) ≤ cutoff := by
    cases i with
    | zero => exact Nat.zero_le _
    | succ pre =>
      have fails := found.fails pre (Nat.zero_le _) (Nat.lt_succ_self _)
      rw [decide_eq_false_iff_not, sums pre (by omega)] at fails
      omega
  have left : residual (runningSums 0 (es.map Prod.snd)) i cutoff = cutoff - total (es.take i) := by
    cases i with
    | zero => rfl
    | succ pre =>
      rw [residual, if_neg (Nat.succ_ne_zero pre), Nat.add_sub_cancel, sums pre (by omega),
        sub64_eq above (by omega)]
  have present := getElem?_eq_getElem inside
  rw [left]
  exact ⟨_, present, pick_of_take present above passes⟩

end

variable {α : Type}

theorem map_range' {items : List γ} (isMin : minoff = first + low)
    (isMax : maxoff + 1 = first + high) (inside : high ≤ items.length) :
    (range' minoff (maxoff + 1 - minoff)).map (fun off => items[off - first]?) =
      ((items.take high).drop low).map some := by
  have count : maxoff + 1 - minoff = high - low := by omega
  rw [count, isMin]
  refine ext_getElem? fun place => ?_
  rw [getElem?_map, getElem?_map, getElem?_drop, getElem?_take]
  by_cases within : place < high - low
  · have bound : low + place < items.length := by omega
    rw [getElem?_range' within, if_pos (by omega), map_some, Nat.one_mul, Nat.add_assoc,
      Nat.add_sub_cancel_left, getElem?_eq_getElem bound, map_some]
  · rw [getElem?_eq_none (by rw [length_range']; omega), if_neg (by omega)]
    rfl

def Page.resolve (page : Page α) (place : Nat × Nat) : Option (LeafTuple α × Row) :=
  (page.leafAt place.1).bind fun tup => (tup.rowAt place.2).map fun row => (tup, row)

variable [LinearOrder α]

namespace Scan

variable {scan : Scan α}

/-- In a posting list, no row that the snapshot hides is before one that it sees. -/
def readable (scan : Scan α) (tup : LeafTuple α) : Bool :=
  match tup.data with
  | .plain _ => true
  | .posting rows => (rows.dropWhile fun row => !scan.hides row).all scan.hides

theorem postingWeights_hidden (hidden : rows.all scan.hides) :
    ∀ aggs i, scan.postingWeights rows aggs i = [] := by
  induction rows with
  | nil => intro aggs i; rfl
  | cons row rows ih =>
    intro aggs i
    rw [all_cons, Bool.and_eq_true] at hidden
    rw [postingWeights, if_pos hidden.1, ih hidden.2]

theorem postingWeights_constant (all rows : List Row) :
    ∀ {count i : Nat}, rows.length ≤ count → all.drop i = rows →
      (scan.postingWeights rows (replicate count constant) i).map (fun e => (all[e.1]?, e.2)) =
        (rows.filter fun row => !scan.hides row).map fun row => (some row, constant) := by
  induction rows with
  | nil => intro count i _ _; rfl
  | cons row rows ih =>
    intro count i enough rest
    have present : all[i]? = some row := by rw [← head?_drop, rest, head?_cons]
    have later : all.drop (i + 1) = rows := by rw [← tail_drop, rest, tail_cons]
    rw [length_cons] at enough
    rw [postingWeights]
    cases hidden : scan.hides row with
    | true => rw [if_pos rfl, ih (by omega) later, filter_cons_of_neg (by simp [hidden])]
    | false =>
      obtain ⟨count, rfl⟩ := Nat.exists_eq_add_of_lt ((Nat.succ_pos _).trans_le enough)
      rw [if_neg (by decide), filter_cons_of_pos (by simp [hidden]), map_cons,
        map_cons, Nat.zero_add, replicate_succ, tail_cons, ih (by omega) later,
        present]
      rfl

/-- If no hidden row is before a visible one, every weight is read at its own place. -/
theorem postingWeights_readable (all rows : List Row) :
    ∀ {i : Nat}, (rows.dropWhile fun row => !scan.hides row).all scan.hides → all.drop i = rows →
      (scan.postingWeights rows (rows.map Row.agg) i).map (fun e => (all[e.1]?, e.2)) =
        (rows.filter fun row => !scan.hides row).map fun row => (some row, row.agg) := by
  induction rows with
  | nil => intro i _ _; rfl
  | cons row rows ih =>
    intro i readable rest
    have present : all[i]? = some row := by rw [← head?_drop, rest, head?_cons]
    have later : all.drop (i + 1) = rows := by rw [← tail_drop, rest, tail_cons]
    cases hidden : scan.hides row with
    | true =>
      -- everything from here on is hidden
      rw [dropWhile_cons_of_neg (by simp [hidden])] at readable
      rw [postingWeights_hidden readable, filter_eq_nil_iff.mpr]
      · rfl
      · intro other mem
        simp [all_eq_true.mp readable other mem]
    | false =>
      rw [dropWhile_cons_of_pos (by simp [hidden])] at readable
      rw [postingWeights, if_neg (by simp [hidden]), filter_cons_of_pos (by simp [hidden]),
        map_cons, map_cons, map_cons, tail_cons, ih readable later, present]
      rfl

theorem rowWeights_eq (uniform : scan.leafHasAgg = false → constant = scan.aggMapVal)
    (readable : scan.leafHasAgg → scan.readable tup) :
    (scan.rowWeights constant tup).map (fun e => (tup.rowAt e.1, e.2)) =
      (tup.rows.filter fun row => !scan.hides row).map fun row => (some row, scan.weight row) := by
  obtain ⟨attrs, data, dead⟩ := tup
  unfold weight
  cases data with
  | plain row =>
    have same : (if scan.leafHasAgg then row.agg else constant) =
        if scan.leafHasAgg then row.agg else scan.aggMapVal := by
      cases stored : scan.leafHasAgg with
      | true => rfl
      | false => exact uniform stored
    cases hidden : scan.hides row with
    | true => simp [rowWeights, LeafTuple.rows, hidden]
    | false => simp [rowWeights, LeafTuple.rows, LeafTuple.rowAt, hidden, same]
  | posting rows =>
    change (scan.postingWeights rows _ 0).map (fun e => (rows[e.1]?, e.2)) = _
    cases stored : scan.leafHasAgg with
    | true => exact postingWeights_readable rows rows (readable stored) rfl
    | false =>
      rw [uniform stored]
      exact postingWeights_constant rows rows le_rfl rfl

theorem leafEntries_append (scan : Scan α) (constant : Nat) (page : Page α) (mid : Nat)
    {minoff maxoff : Nat} (first : minoff ≤ mid + 1) (second : mid ≤ maxoff) :
    scan.leafEntries constant page minoff maxoff =
      scan.leafEntries constant page minoff mid ++ scan.leafEntries constant page (mid + 1) maxoff := by
  rw [leafEntries, leafEntries, leafEntries, ← flatMap_append,
    show range' minoff (maxoff + 1 - minoff) = range' minoff (mid + 1 - minoff + (maxoff - mid)) by
      congr 1; omega, ← range'_append_1, show minoff + (mid + 1 - minoff) = mid + 1 by omega,
    Nat.add_sub_add_right]

theorem leafEntries_ones (uniform : scan.leafHasAgg = false) {minoff maxoff : Nat} :
    ∀ e ∈ scan.leafEntries 1 page minoff maxoff, e.2 = 1 := by
  intro e mem
  obtain ⟨off, -, isEntry⟩ := mem_flatMap.mp mem
  cases present : page.leafAt off with
  | none => simp [present] at isEntry
  | some tup =>
    rw [present] at isEntry
    obtain ⟨row, isRow, rfl⟩ := mem_map.mp isEntry
    unfold rowWeights at isRow
    cases data : tup.data with
    | plain other =>
      simp only [data, uniform] at isRow
      split at isRow
      · cases isRow
      · rw [mem_singleton.mp isRow]
        rfl
    | posting rows =>
      simp only [data, uniform] at isRow
      have image := mem_map_of_mem (f := fun e => (rows[e.1]?, e.2)) isRow
      rw [if_neg (by decide), postingWeights_constant rows rows le_rfl rfl] at image
      obtain ⟨_, -, same⟩ := mem_map.mp image
      exact (Prod.mk.inj same).2.symm

theorem shares_flatMap (scan : Scan α) (below : γ → List (LeafTuple α)) (items : List γ) :
    scan.shares (items.flatMap below) = items.flatMap fun item => scan.shares (below item) :=
  flatMap_assoc

theorem visibleWeight_le (scan : Scan α) (below : γ → List (LeafTuple α)) {items : List γ}
    (mem : item ∈ items) :
    scan.visibleWeight (below item) ≤ scan.visibleWeight (items.flatMap below) := by
  obtain ⟨front, back, rfl⟩ := append_of_mem mem
  unfold visibleWeight
  rw [shares_flatMap, flatMap_append, flatMap_cons, total_append, total_append]
  omega

theorem leafEntries_eq {low high minoff maxoff : Nat} (items : page.items = .leaf tuples)
    (isMin : minoff = page.firstDataKey + low) (isMax : maxoff + 1 = page.firstDataKey + high)
    (inside : high ≤ tuples.length) (uniform : scan.leafHasAgg = false → constant = scan.aggMapVal)
    (readable : scan.leafHasAgg → ∀ tup ∈ (tuples.take high).drop low, scan.readable tup) :
    (scan.leafEntries constant page minoff maxoff).map (fun e => (page.resolve e.1, e.2)) =
      (scan.shares ((tuples.take high).drop low)).map fun e => (some e.1, e.2) := by
  have atOffset : ∀ off, page.leafAt off = tuples[off - page.firstDataKey]? := by
    intro off
    rw [Page.leafAt, items]
  -- what is found at an offset depends on the tuple there only
  let found : Option (LeafTuple α) → List (Option (LeafTuple α × Row) × Nat) := fun tup =>
    tup.elim [] fun tup => (scan.rowWeights constant tup).map fun e =>
      ((tup.rowAt e.1).map fun row => (tup, row), e.2)
  have perOffset : ∀ off, ((page.leafAt off).elim [] fun tup =>
      (scan.rowWeights constant tup).map fun e => ((off, e.1), e.2)).map
        (fun e => (page.resolve e.1, e.2)) = found tuples[off - page.firstDataKey]? := by
    intro off
    rw [← atOffset]
    cases present : page.leafAt off with
    | none => rfl
    | some tup =>
      change map _ (map _ _) = map _ _
      rw [List.map_map]
      refine map_congr_left fun e _ => ?_
      simp only [comp_apply, Page.resolve, present, bind_some]
  have perTuple : ∀ tup ∈ (tuples.take high).drop low, found (some tup) =
      ((tup.rows.filter fun row => !scan.hides row).map fun row =>
        ((tup, row), scan.weight row)).map fun e => (some e.1, e.2) := by
    intro tup mem
    have rows := rowWeights_eq uniform fun stored => readable stored tup mem
    have paired := congrArg (map fun e : Option Row × Nat =>
      (e.1.map fun row => (tup, row), e.2)) rows
    rw [List.map_map, List.map_map] at paired
    rw [List.map_map]
    exact paired
  calc (scan.leafEntries constant page minoff maxoff).map (fun e => (page.resolve e.1, e.2))
      = (range' minoff (maxoff + 1 - minoff)).flatMap fun off =>
          found tuples[off - page.firstDataKey]? := by
        rw [leafEntries, map_flatMap]
        exact flatMap_congr fun off _ => perOffset off
    _ = (((tuples.take high).drop low).map some).flatMap found := by
        rw [← map_range' isMin isMax inside, flatMap_map]
    _ = (scan.shares ((tuples.take high).drop low)).map fun e => (some e.1, e.2) := by
        rw [flatMap_map, shares, map_flatMap]
        exact flatMap_congr perTuple

theorem pivotEntries_eq (scan : Scan α) {low high minoff maxoff : Nat}
    (items : page.items = .internal pivots) (isMin : minoff = page.firstDataKey + low)
    (isMax : maxoff + 1 = page.firstDataKey + high) (inside : high ≤ pivots.length) :
    (scan.pivotEntries page minoff maxoff).map (fun e => (page.pivotAt e.1, e.2)) =
      ((pivots.take high).drop low).map fun pivot => (some pivot, scan.readAgg pivot) := by
  have atOffset : ∀ off, page.pivotAt off = pivots[off - page.firstDataKey]? := by
    intro off
    rw [Page.pivotAt, items]
  calc (scan.pivotEntries page minoff maxoff).map (fun e => (page.pivotAt e.1, e.2))
      = (range' minoff (maxoff + 1 - minoff)).filterMap fun off =>
          pivots[off - page.firstDataKey]?.map fun pivot => (some pivot, scan.readAgg pivot) := by
        rw [pivotEntries, map_filterMap]
        refine filterMap_congr fun off _ => ?_
        rw [Option.map_map, atOffset]
        cases present : pivots[off - page.firstDataKey]? with
        | none => rfl
        | some pivot => simp [atOffset, present]
    _ = (((pivots.take high).drop low).map some).filterMap fun pivot =>
          pivot.map fun pivot => (some pivot, scan.readAgg pivot) := by
        rw [← map_range' isMin isMax inside, filterMap_map]
        rfl
    _ = ((pivots.take high).drop low).map fun pivot => (some pivot, scan.readAgg pivot) := by
        rw [filterMap_map]
        exact filterMap_eq_map_iff_forall_eq_some.mpr fun pivot _ => rfl

end Scan

end PgAqp.Sampling
