import Mathlib.Logic.Function.Basic

/-!
# Scheduled runs of a transition system

A system is given by an executable partial step function.  A schedule is the
list of labels that an arbitrary scheduler picks.  An invariant that each allowed step
preserves holds in every state that an allowed schedule reaches.
-/

namespace PgAqp.Library.Run

open Function List Option

variable {State Label : Type}

/-- Execute a schedule; a label that is not enabled leaves it without a result. -/
def run (step : State → Label → Option State) : State → List Label → Option State
  | s, [] => some s
  | s, label :: rest =>
    match step s label with
    | none => none
    | some next => run step next rest

def last (step : State → Label → Option State) (s : State) (schedule : List Label) : State :=
  (run step s schedule).getD s

def Meets (step : State → Label → Option State) (guard : State → Label → Prop) :
    State → List Label → Prop
  | _, [] => True
  | s, label :: rest =>
    guard s label ∧
      match step s label with
      | none => True
      | some next => Meets step guard next rest

instance Meets.decidable (step : State → Label → Option State)
    (guard : State → Label → Prop) [∀ s label, Decidable (guard s label)] :
    ∀ (s : State) (schedule : List Label), Decidable (Meets step guard s schedule)
  | _, [] => inferInstanceAs (Decidable True)
  | s, label :: rest =>
    match h : step s label with
    | none => decidable_of_iff (guard s label) (by simp [Meets, h])
    | some next =>
      have : Decidable (Meets step guard next rest) := Meets.decidable step guard next rest
      decidable_of_iff (guard s label ∧ Meets step guard next rest) (by simp [Meets, h])

variable {step : State → Label → Option State} {s : State} {guard : State → Label → Prop}

theorem run_last (ends : (run step s schedule).isSome) :
    run step s schedule = some (last step s schedule) := by
  obtain ⟨final, reached⟩ := isSome_iff_exists.mp ends
  simp [last, reached]

variable {label : Label}

theorem run_cons_eq_some : run step s (label :: rest) = some final ↔
      ∃ next, step s label = some next ∧ run step next rest = some final := by
  cases hstep : step s label <;> simp [run, hstep]

theorem run_append (s : State) (first second : List Label) : run step s (first ++ second) =
      (run step s first).bind fun middle => run step middle second := by
  induction first generalizing s with
  | nil => rfl
  | cons label rest ih => cases hstep : step s label <;> simp [run, hstep, ih]

theorem meets_cons {next} (hstep : step s label = some next) : Meets step guard s (label :: rest) ↔
      guard s label ∧ Meets step guard next rest := by
  simp [Meets, hstep]

theorem Meets.mono (weaker : ∀ {s label}, guard s label → guard' s label)
    (meets : Meets step guard s schedule) :
    Meets step guard' s schedule := by
  induction schedule generalizing s with
  | nil => trivial
  | cons label rest ih =>
    refine ⟨weaker meets.1, ?_⟩
    have later := meets.2
    cases hstep : step s label with
    | none => trivial
    | some next =>
      rw [hstep] at later
      exact ih later

theorem meets_unguarded (step : State → Label → Option State) (s : State)
    (schedule : List Label) : Meets step (fun _ _ => True) s schedule := by
  induction schedule generalizing s with
  | nil => trivial
  | cons label rest ih =>
    refine ⟨trivial, ?_⟩
    cases step s label with
    | none => trivial
    | some next => exact ih next

/-- An invariant of every allowed step holds wherever an allowed schedule ends. -/
theorem invariant (Inv : State → Prop) (preserved : ∀ {s next : State} {label : Label},
      Inv s → guard s label → step s label = some next → Inv next)
    (initial : Inv s) (meets : Meets step guard s schedule)
    (reached : run step s schedule = some final) :
    Inv final := by
  induction schedule generalizing s with
  | nil =>
    cases some.inj reached
    exact initial
  | cons label rest ih =>
    obtain ⟨next, hstep, hrest⟩ := run_cons_eq_some.mp reached
    obtain ⟨allowed, restMeets⟩ := (meets_cons hstep).mp meets
    exact ih (preserved initial allowed hstep) restMeets hrest

/-- If every allowed step of one label lowers a rank or reaches the goal, then repeating
the label reaches the goal, unless the guard stops it. -/
theorem reaches (label : Label) (Inv Goal : State → Prop) (rank : State → Nat)
    (progress : ∀ {s}, Inv s → guard s label →
      ∃ next, step s label = some next ∧ (Goal next ∨ Inv next ∧ rank next < rank s))
    (initial : Inv s) :
    ∃ count ≤ rank s + 1, Meets step guard s (replicate count label) →
      ∃ final, run step s (replicate count label) = some final ∧ Goal final := by
  induction bound : rank s using Nat.strongRecOn generalizing s with
  | _ value ih =>
    subst bound
    by_cases allowed : guard s label
    · obtain ⟨next, hstep, goal | ⟨kept, lower⟩⟩ := progress initial allowed
      · refine ⟨1, Nat.succ_le_succ (Nat.zero_le _), fun _ => ⟨next, ?_, goal⟩⟩
        exact run_cons_eq_some.mpr ⟨next, hstep, rfl⟩
      · obtain ⟨count, within, later⟩ := ih (rank next) lower kept rfl
        refine ⟨count + 1, Nat.succ_le_succ (Nat.le_trans within lower), fun meets => ?_⟩
        obtain ⟨final, reached, goal⟩ := later ((meets_cons hstep).mp meets).2
        exact ⟨final, run_cons_eq_some.mpr ⟨next, hstep, reached⟩, goal⟩
    · exact ⟨1, Nat.succ_le_succ (Nat.zero_le _), fun meets => absurd meets.1 allowed⟩

/-- If every allowed step lowers a rank or reaches the goal, then every allowed schedule
that is longer than the rank passes through the goal. -/
theorem passes (Inv Goal : State → Prop) (rank : State → Nat)
    (progress : ∀ {s label}, Inv s → guard s label →
      ∃ next, step s label = some next ∧ (Goal next ∨ Inv next ∧ rank next < rank s)) (initial : Inv s)
    (meets : Meets step guard s schedule) (long : rank s < schedule.length) :
    ∃ front back final, schedule = front ++ back ∧ run step s front = some final ∧ Goal final := by
  induction schedule generalizing s with
  | nil => exact absurd long (Nat.not_lt_zero _)
  | cons label rest ih =>
    obtain ⟨next, hstep, goal | ⟨kept, lower⟩⟩ := progress initial meets.1
    · exact ⟨[label], rest, next, rfl, run_cons_eq_some.mpr ⟨next, hstep, rfl⟩, goal⟩
    · obtain ⟨front, back, final, split, reached, goal⟩ :=
        ih kept ((meets_cons hstep).mp meets).2 (Nat.lt_of_lt_of_le lower (Nat.le_of_lt_succ long))
      exact ⟨label :: front, back, final, by rw [split, cons_append],
        run_cons_eq_some.mpr ⟨next, hstep, reached⟩, goal⟩

/-- After one party's entry is written, an entry is the new one of that party or an old one. -/
theorem of_update [DecidableEq Party] {es : Party → Entry}
    {party other : Party} {new e : Entry} (holds : update es party new other = e) :
    new = e ∧ other = party ∨ es other = e ∧ other ≠ party := by
  by_cases same : other = party
  · subst same
    exact .inl ⟨(update_self ..).symm.trans holds, rfl⟩
  · exact .inr ⟨(update_of_ne same ..).symm.trans holds, same⟩

end PgAqp.Library.Run
