import Mathlib.Algebra.BigOperators.Fin

/-!
# Weighted choice

A list of labels with weights, laid out one after the other on the numbers below
its total weight.  A number picks the label that it falls on, together with its
distance from the start of that label.
-/

namespace PgAqp.Library.Weighted

open List Option

variable {α β : Type}

def total : List (α × Nat) → Nat
  | [] => 0
  | (_, weight) :: rest => weight + total rest

def pick : List (α × Nat) → Nat → Option (α × Nat)
  | [], _ => none
  | (label, weight) :: rest, num =>
    if num < weight then some (label, num) else pick rest (num - weight)

@[simp] theorem total_cons (e : α × Nat) (rest : List (α × Nat)) :
    total (e :: rest) = e.2 + total rest := rfl

/-- The value of a nonnegative integer as a double: 53 significant bits, rounded to the nearest
and from the middle to the even one. -/
def toDouble (n : Nat) : Nat :=
  let ulp := 2 ^ (n.log2 - 52)
  let low := n / ulp
  ulp * if 2 * (n % ulp) < ulp then low else if ulp < 2 * (n % ulp) then low + 1 else low + low % 2

/-- The total weight, added up in a double. -/
def doubleTotal (es : List (α × Nat)) : Nat :=
  es.foldl (fun tot e => toDouble (tot + toDouble e.2)) 0

theorem toDouble_eq {n : Nat} (fits : n ≤ 9007199254740992) : toDouble n = n := by
  rcases Nat.lt_or_eq_of_le fits with small | rfl
  · have noBits : n.log2 - 52 = 0 := by
      by_cases zero : n = 0
      · simp [zero]
      · have : n.log2 < 53 := (Nat.log2_lt zero).mpr small
        omega
    simp [toDouble, noBits, Nat.mod_one]
  · decide

theorem doubleTotal_eq {es : List (α × Nat)} (fits : total es ≤ 9007199254740992) :
    doubleTotal es = total es := by
  suffices ∀ tot, tot + total es ≤ 9007199254740992 →
      es.foldl (fun tot e => toDouble (tot + toDouble e.2)) tot = tot + total es from
    (this 0 (by omega)).trans (Nat.zero_add _)
  clear fits
  intro tot fits
  induction es generalizing tot with
  | nil => rfl
  | cons e es ih =>
    rw [total_cons] at fits ⊢
    rw [foldl_cons, toDouble_eq (n := e.2) (by omega), toDouble_eq (by omega), ih _ (by omega),
      Nat.add_assoc]

@[simp] theorem total_append (first second : List (α × Nat)) :
    total (first ++ second) = total first + total second := by
  induction first with
  | nil => exact (Nat.zero_add _).symm
  | cons e first ih => rw [cons_append, total_cons, total_cons, ih, Nat.add_assoc]

theorem total_map (f : α → β) (es : List (α × Nat)) :
    total (es.map fun e => (f e.1, e.2)) = total es := by
  induction es with
  | nil => rfl
  | cons e es ih => rw [map_cons, total_cons, total_cons, ih]

theorem pick_append (first second : List (α × Nat)) (num : Nat) : pick (first ++ second) num =
      if num < total first then pick first num else pick second (num - total first) := by
  induction first generalizing num with
  | nil => rfl
  | cons e first ih =>
    rw [cons_append, pick, pick, ih, total_cons]
    by_cases here : num < e.2
    · rw [if_pos here, if_pos here, if_pos (by omega)]
    · rw [if_neg here, if_neg here]
      by_cases inside : num - e.2 < total first
      · rw [if_pos inside, if_pos (by omega)]
      · rw [if_neg inside, if_neg (by omega), Nat.sub_sub]

variable {es : List (α × Nat)} {num : Nat}

theorem pick_lt (below : num < total es) :
    ∃ e ∈ es, ∃ rest, rest < e.2 ∧ pick es num = some (e.1, rest) := by
  induction es generalizing num with
  | nil => exact absurd below (Nat.not_lt_zero _)
  | cons e es ih =>
    rw [pick]
    by_cases here : num < e.2
    · exact ⟨e, mem_cons_self, num, here, if_pos here⟩
    · rw [total_cons] at below
      have later : num - e.2 < total es := by omega
      obtain ⟨other, mem, rest, inside, picked⟩ := ih later
      exact ⟨other, mem_cons_of_mem _ mem, rest, inside, by rw [if_neg here, picked]⟩

theorem lt_total_of_pick (picked : pick es num = some found) : num < total es := by
  induction es generalizing num with
  | nil => cases picked
  | cons e es ih =>
    rw [total_cons]
    by_cases here : num < e.2
    · omega
    · rw [pick, if_neg here] at picked
      have := ih picked
      omega

theorem pick_mem (picked : pick es num = some (label, rest)) :
    ∃ weight, (label, weight) ∈ es ∧ rest < weight := by
  induction es generalizing num with
  | nil => cases picked
  | cons e es ih =>
    rw [pick] at picked
    by_cases here : num < e.2
    · rw [if_pos here] at picked
      cases picked
      exact ⟨e.2, mem_cons_self, here⟩
    · rw [if_neg here] at picked
      obtain ⟨weight, mem, inside⟩ := ih picked
      exact ⟨weight, mem_cons_of_mem _ mem, inside⟩

theorem pick_map (f : α → β) (es : List (α × Nat)) (num : Nat) :
    pick (es.map fun e => (f e.1, e.2)) num =
      (pick es num).map fun picked => (f picked.1, picked.2) := by
  induction es generalizing num with
  | nil => rfl
  | cons e es ih =>
    rw [map_cons, pick, pick, ih]
    split <;> rfl

theorem pick_filter (es : List (α × Nat)) (num : Nat) :
    pick (es.filter fun e => e.2 ≠ 0) num = pick es num := by
  induction es generalizing num with
  | nil => rfl
  | cons e es ih =>
    by_cases empty : e.2 = 0
    · rw [filter_cons_of_neg (by simpa using empty), ih, pick, if_neg (by omega), empty,
        Nat.sub_zero]
    · rw [filter_cons_of_pos (by simpa using empty), pick, pick, ih]

theorem total_filter (es : List (α × Nat)) : total (es.filter fun e => e.2 ≠ 0) = total es := by
  induction es with
  | nil => rfl
  | cons e es ih =>
    by_cases empty : e.2 = 0
    · rw [filter_cons_of_neg (by simpa using empty), ih, total_cons, empty, Nat.zero_add]
    · rw [filter_cons_of_pos (by simpa using empty), total_cons, total_cons, ih]

theorem pick_of_take (present : es[i]? = some e) (above : total (es.take i) ≤ num)
    (below : num < total (es.take (i + 1))) :
    pick es num = some (e.1, num - total (es.take i)) := by
  have parts : es = es.take i ++ e :: es.drop (i + 1) := by
    obtain ⟨inside, same⟩ := List.getElem?_eq_some_iff.mp present
    rw [← same, ← drop_eq_getElem_cons inside, take_append_drop]
  have step : total (es.take (i + 1)) = total (es.take i) + e.2 := by
    rw [take_add_one, present, total_append]
    rfl
  have outside : ¬ num < total (es.take i) := by omega
  calc pick es num = pick (es.take i ++ e :: es.drop (i + 1)) num := by rw [← parts]
    _ = pick (e :: es.drop (i + 1)) (num - total (es.take i)) := by rw [pick_append, if_neg outside]
    _ = some (e.1, num - total (es.take i)) := by rw [pick, if_pos (by omega)]

theorem pick_of_ones (ones : ∀ e ∈ es, e.2 = 1) (num : Nat) :
    pick es num = es[num]?.map fun e => (e.1, 0) := by
  induction es generalizing num with
  | nil => rfl
  | cons e es ih =>
    have one := ones e mem_cons_self
    cases num with
    | zero => rw [pick, if_pos (by omega)]; rfl
    | succ num =>
      rw [pick, if_neg (by omega), one, Nat.add_sub_cancel, getElem?_cons_succ]
      exact ih (fun other mem => ones other (mem_cons_of_mem _ mem)) num

theorem total_of_ones (ones : ∀ e ∈ es, e.2 = 1) : total es = es.length := by
  induction es with
  | nil => rfl
  | cons e es ih =>
    rw [total_cons, ones e mem_cons_self, length_cons,
      ih fun other mem => ones other (mem_cons_of_mem _ mem), Nat.add_comm]

def groups (lists : List (List (α × Nat))) : List (List (α × Nat) × Nat) :=
  lists.map fun list => (list, total list)

theorem pick_flatten (lists : List (List (α × Nat))) (num : Nat) : pick lists.flatten num =
      (pick (groups lists) num).bind fun picked => pick picked.1 picked.2 := by
  induction lists generalizing num with
  | nil => rfl
  | cons list lists ih =>
    rw [flatten_cons, pick_append]
    change _ = bind (pick ((list, total list) :: groups lists) num) _
    rw [pick]
    by_cases here : num < total list
    · rw [if_pos here, if_pos here]
      rfl
    · rw [if_neg here, if_neg here]
      exact ih _

variable [DecidableEq β]

/-- How many numbers pick a label with the given view, for any view of the labels. -/
theorem sum_picks (view : α → β) (target : β) (es : List (α × Nat)) :
    (∑ num ∈ Finset.range (total es),
        if (pick es num).map (fun picked => view picked.1) = some target then 1 else 0) =
      total (es.filter fun e => view e.1 = target) := by
  induction es with
  | nil => rfl
  | cons e es ih =>
    rw [total_cons, Finset.sum_range_add, filter_cons]
    -- the first numbers fall on the first label, the others are as without it
    have front : (∑ num ∈ Finset.range e.2,
        if (pick (e :: es) num).map (fun picked => view picked.1) = some target
        then 1 else 0) = if view e.1 = target then e.2 else 0 := by
      rw [Finset.sum_congr rfl (g := fun _ => if view e.1 = target then 1 else 0)]
      · rw [Finset.sum_const, Finset.card_range, smul_eq_mul, mul_ite, mul_one, mul_zero]
      · intro num inside
        rw [pick, if_pos (Finset.mem_range.mp inside)]
        simp only [map_some, some.injEq]
    have back : (∑ num ∈ Finset.range (total es),
        if (pick (e :: es) (e.2 + num)).map (fun picked => view picked.1) =
          some target then 1 else 0) =
        total (es.filter fun e => view e.1 = target) := by
      rw [← ih]
      refine Finset.sum_congr rfl fun num _ => ?_
      have beyond : ¬ e.2 + num < e.2 := by omega
      rw [pick, if_neg beyond, Nat.add_sub_cancel_left]
    rw [front, back]
    by_cases same : view e.1 = target
    · rw [if_pos same, if_pos (decide_eq_true same), total_cons]
    · rw [if_neg same, if_neg (by simpa using same), Nat.zero_add]

theorem card_picks (view : α → β) (target : β) (es : List (α × Nat)) :
    (Finset.univ.filter fun num : Fin (total es) =>
        (pick es num).map (fun picked => view picked.1) = some target).card =
      total (es.filter fun e => view e.1 = target) := by
  rw [Finset.card_filter, ← sum_picks view target es]
  exact Fin.sum_univ_eq_sum_range (fun num =>
    if (pick es num).map (fun picked => view picked.1) = some target then 1 else 0) _

/-- If no other label has the view, the weight of the view is the weight of the label. -/
theorem total_filter_of_unique (view : α → β)
    (diff : (es.map fun e => view e.1).Nodup) (mem : e ∈ es) :
    total (es.filter fun other => view other.1 = view e.1) = e.2 := by
  induction es with
  | nil => exact absurd mem not_mem_nil
  | cons other es ih =>
    rw [map_cons, nodup_cons] at diff
    cases mem_cons.mp mem with
    | inl same =>
      have none : es.filter (fun later => decide (view later.1 = view e.1)) = [] := by
        refine filter_eq_nil_iff.mpr fun later isLater equal => diff.1 ?_
        rw [← same, ← of_decide_eq_true equal]
        exact mem_map_of_mem isLater
      rw [← same, filter_cons, if_pos (decide_eq_true rfl), none]
      exact Nat.add_zero _
    | inr later =>
      have differs : ¬ view other.1 = view e.1 := fun equal => diff.1 (equal ▸ mem_map_of_mem later)
      rw [filter_cons_of_neg (by simpa using differs)]
      exact ih diff.2 later

end PgAqp.Library.Weighted
