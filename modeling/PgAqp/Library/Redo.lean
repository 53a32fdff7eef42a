import Mathlib.Data.List.Basic

/-!
# Replay of a log onto a stamped copy

A copy of a state has the number of the last log record whose effect it has.
Replay skips the records that are not after it, except those that restore the
whole state.  If the copy has exactly the effects of the records up to its number,
replay gives it the effects of all records, each of them once.  Replay may be
interrupted and start again on what it has left.
-/

namespace PgAqp.Library

open List Option

/-- A copy of the state with the number of a log record. -/
structure Stamped (State : Type) where
  lsn : Nat
  content : State
  deriving DecidableEq, Repr

namespace Redo

variable {State Record View : Type}

/-- Replay one record, unless the copy has its effect. -/
def redo (apply : State → Record → Option State) (restores : Record → Bool) (number : Nat)
    (page : Stamped State) (record : Record) : Option (Stamped State) :=
  if number ≤ page.lsn ∧ restores record = false then some page
  else (apply page.content record).map fun content => ⟨number, content⟩

def replay (apply : State → Record → Option State) (restores : Record → Bool) :
    Nat → Stamped State → List Record → Option (Stamped State)
  | _, page, [] => some page
  | number, page, record :: rest =>
    (redo apply restores number page record).bind fun page =>
      replay apply restores (number + 1) page rest

/-- What `apply` does, in terms of what a state stands for. -/
structure Simulates (apply : State → Record → Option State) (restores : Record → Bool)
    (Agrees : State → View → Prop) (effect : View → Record → View) (Valid : Record → Prop) :
    Prop where
  applies : ∀ {content view record}, Valid record → Agrees content view →
    ∃ next, apply content record = some next ∧ Agrees next (effect view record)
  restored : ∀ {content view record}, Valid record → restores record = true →
    ∃ next, apply content record = some next ∧ Agrees next (effect view record)

variable {apply : State → Record → Option State} {restores : Record → Bool}
  {Agrees : State → View → Prop} {effect : View → Record → View} {Valid : Record → Prop}

/-- One record: the copy has the effects of the records before it and of those up to its own
number, and afterwards also that of the record. -/
theorem redo_exact (simulates : Simulates apply restores Agrees effect Valid) (valid : Valid record)
    (within : page.lsn ≤ (pre ++ record :: rest).length)
    (agrees : Agrees page.content
      (((pre ++ record :: rest).take (max pre.length page.lsn)).foldl effect base)) :
    ∃ next, redo apply restores (pre.length + 1) page record = some next ∧
      next.lsn ≤ (pre ++ record :: rest).length ∧
      Agrees next.content (((pre ++ record :: rest).take (max (pre.length + 1) next.lsn)).foldl
          effect base) := by
  have total : (pre ++ record :: rest).length = pre.length + 1 + rest.length := by
    rw [length_append, length_cons]
    omega
  have upTo : (pre ++ record :: rest).take (pre.length + 1) = pre ++ [record] := by
    rw [take_append, take_of_length_le (Nat.le_succ _), Nat.add_sub_cancel_left]
    rfl
  have folded : ((pre ++ record :: rest).take (pre.length + 1)).foldl effect base =
      effect (pre.foldl effect base) record := by
    rw [upTo, foldl_append, foldl_cons, foldl_nil]
  by_cases skipped : pre.length + 1 ≤ page.lsn ∧ restores record = false
  · refine ⟨page, if_pos skipped, within, ?_⟩
    rw [Nat.max_eq_right skipped.1]
    rw [Nat.max_eq_right (Nat.le_of_succ_le skipped.1)] at agrees
    exact agrees
  · have applied : ∃ next, apply page.content record = some next ∧
        Agrees next (effect (pre.foldl effect base) record) := by
      cases restoring : restores record with
      | true => exact simulates.restored valid restoring
      | false =>
        have behind : page.lsn ≤ pre.length :=
          Nat.le_of_not_lt fun ahead => skipped ⟨ahead, restoring⟩
        rw [Nat.max_eq_left behind, take_left' rfl] at agrees
        exact simulates.applies valid agrees
    obtain ⟨next, isNext, agreesNext⟩ := applied
    refine ⟨⟨pre.length + 1, next⟩, ?_, ?_, ?_⟩
    · rw [redo, if_neg skipped, isNext, map_some]
    · change pre.length + 1 ≤ _
      omega
    · rw [Nat.max_self, folded]
      exact agreesNext

/-- A copy with the effects of the records up to its number gets those of all records. -/
theorem replay_exact (simulates : Simulates apply restores Agrees effect Valid) :
    ∀ {rest pre : List Record} {page : Stamped State}, (∀ record ∈ rest, Valid record) →
      page.lsn ≤ (pre ++ rest).length →
      Agrees page.content (((pre ++ rest).take (max pre.length page.lsn)).foldl effect base) →
      ∃ res, replay apply restores (pre.length + 1) page rest = some res ∧
        Agrees res.content ((pre ++ rest).foldl effect base) := by
  intro rest
  induction rest with
  | nil =>
    intro pre page _ within agrees
    rw [append_nil] at within agrees ⊢
    rw [Nat.max_eq_left within, take_length] at agrees
    exact ⟨page, rfl, agrees⟩
  | cons record rest ih =>
    intro pre page valid within agrees
    obtain ⟨next, done, withinNext, agreesNext⟩ :=
      redo_exact simulates (valid record mem_cons_self) within agrees
    have split : pre ++ record :: rest = (pre ++ [record]) ++ rest := by
      rw [append_assoc, singleton_append]
    have length : (pre ++ [record]).length = pre.length + 1 := length_append
    rw [split] at withinNext agreesNext ⊢
    rw [← length] at agreesNext
    obtain ⟨res, replayed, exact⟩ :=
      ih (fun other mem => valid other (mem_cons_of_mem record mem)) withinNext agreesNext
    refine ⟨res, ?_, exact⟩
    rw [length] at replayed
    rw [replay, done, bind_some]
    exact replayed

theorem redo_lsn (done : redo apply restores number page record = some res) :
    number ≤ res.lsn := by
  unfold redo at done
  split at done
  next skipped =>
    cases done
    exact skipped.1
  · obtain ⟨content, -, rfl⟩ := map_eq_some_iff.mp done
    exact Nat.le_refl number

theorem replay_lsn (done : replay apply restores number page log = some res)
    (reached : low ≤ page.lsn) (within : low ≤ number) : low ≤ res.lsn := by
  induction log generalizing number page with
  | nil =>
    cases done
    exact reached
  | cons record log ih =>
    obtain ⟨next, isNext, later⟩ := bind_eq_some_iff.mp done
    exact ih later (Nat.le_trans within (redo_lsn isNext)) (Nat.le_succ_of_le within)

/-- Replay that starts again on a copy it has left in the middle comes to the same result. -/
theorem replay_interrupted (whole : ∀ {record}, restores record = true →
      ∀ content other, apply content record = apply other record)
    (done : replay apply restores number page (log.take stop) = some middle) :
    replay apply restores number middle log = replay apply restores number page log := by
  induction log generalizing number page stop with
  | nil =>
    rw [take_nil] at done
    cases done
    rfl
  | cons record log ih =>
    cases stop with
    | zero =>
      cases done
      rfl
    | succ stop =>
      obtain ⟨next, isNext, later⟩ := bind_eq_some_iff.mp done
      have reached := replay_lsn later (redo_lsn isNext) (Nat.le_succ number)
      rw [replay, replay, isNext, bind_some]
      cases restoring : restores record with
      | false =>
        rw [redo, if_pos ⟨reached, restoring⟩, bind_some]
        exact ih later
      | true =>
        have same : redo apply restores number middle record = some next := by
          rw [← isNext, redo, redo, whole restoring middle.content page.content]
          simp [restoring]
        rw [same, bind_some]

end Redo

end PgAqp.Library
