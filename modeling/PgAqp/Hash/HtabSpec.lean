import PgAqp.Hash.HtabHistory

/-!
# The map that the table implements

The abstract state maps a key to its entry and the value stored there.  `toMap` reads
it off a memory.
-/

namespace PgAqp.Hash

open Function

/-- An entry: where its value is stored and what is stored there. -/
structure Slot where
  addr : Addr
  value : Nat
  deriving DecidableEq, Repr

abbrev Map := Key → Option Slot

inductive SeqStep (t : Table) (key : Key) : HashAction → Map → Outcome → Map → Prop where
  | found {map : Map} {slot : Slot} (present : map key = some slot)
      (live : t.isSentinel slot.value = false) :
      SeqStep t key .find map (.entry slot.addr) map
  | notFound {map : Map}
      (dead : ∀ slot, map key = some slot → t.isSentinel slot.value = true) :
      SeqStep t key .find map .null map
  | existing {map : Map} {slot : Slot} (present : map key = some slot)
      (live : t.isSentinel slot.value = false) :
      SeqStep t key .enter map (.entry slot.addr) map
  | entered {map : Map} (slot : Slot) (absent : map key = none) :
      SeqStep t key .enter map (.entry slot.addr) (update map key (some slot))
  | removed {map : Map} {slot : Slot} {oldVal : Nat} (present : map key = some slot)
      (removable : t.hasSentinelValue = true → slot.value = t.sentinelValue) :
      SeqStep t key .remove map (.removed oldVal) (update map key none)
  | kept {map : Map}
      (live : ∀ slot, map key = some slot →
        t.hasSentinelValue = true ∧ slot.value ≠ t.sentinelValue) :
      SeqStep t key .remove map .null map

open Classical in
noncomputable def toMap (t : Table) (m : Memory) : Map := fun key =>
  if held : ∃ a, Holds t m key a then
    some ⟨held.choose, (m.elems held.choose).value⟩
  else none

section

variable {t : Table} {m after : Memory} {key : Key}

theorem toMap_of_absent (absent : Absent t m key) : toMap t m key = none := by
  unfold toMap
  rw [dif_neg]
  rintro ⟨a, holds⟩
  exact absent a holds

theorem toMap_of_holds (wf : MemWf t m) (ordered : Ordered m) (holds : Holds t m key a) :
    toMap t m key = some ⟨a, (m.elems a).value⟩ := by
  have held : ∃ a, Holds t m key a := ⟨a, holds⟩
  unfold toMap
  rw [dif_pos held, ordered.holds_unique wf held.choose_spec holds]

theorem holds_of_toMap (present : toMap t m key = some slot) :
    Holds t m key slot.addr ∧ slot.value = (m.elems slot.addr).value := by
  unfold toMap at present
  split at present
  next held =>
    cases present
    exact ⟨held.choose_spec, rfl⟩
  · cases present

theorem absent_of_toMap (absent : toMap t m key = none) : Absent t m key := by
  intro a holds
  unfold toMap at absent
  rw [dif_pos ⟨a, holds⟩] at absent
  cases absent

theorem toMap_congr (wf' : MemWf t after) (ordered' : Ordered after)
    (es : ∀ a, Holds t after key a ↔ Holds t m key a)
    (values : ∀ a, Holds t m key a → (after.elems a).value = (m.elems a).value) :
    toMap t after key = toMap t m key := by
  cases present : toMap t m key with
  | none =>
    refine toMap_of_absent (fun a holds => ?_)
    exact absent_of_toMap present a ((es a).mp holds)
  | some slot =>
    obtain ⟨holds, isValue⟩ := holds_of_toMap present
    rw [toMap_of_holds wf' ordered' ((es slot.addr).mpr holds), values _ holds, ← isValue]

end

/-! ## Recorded runs

A recorded run carries, for every backend, the memories since its current call
began, and the completed calls with their answers and histories.  The record is never
read by a step, so recorded runs are the runs of the system.
-/

open Library Option

/-- A completed call with the memories it lived through, the newest first. -/
structure Call where
  action : HashAction
  key : Key
  outcome : Outcome
  moments : List Moment

structure Traced where
  state : State
  since : Tid → List Moment
  done : List Call

namespace Traced

def isStepOf (tid : Tid) : Label → Bool
  | .step other => other == tid
  | _ => false

/-- The history of a backend after a step: a new call starts a new one. -/
def extend (traced : Traced) (label : Label) (m : Memory) (tid : Tid) : List Moment :=
  match label with
  | .invoke other _ _ =>
    if other = tid then [⟨m, false⟩] else ⟨m, false⟩ :: traced.since tid
  | label => ⟨m, isStepOf tid label⟩ :: traced.since tid

def completes (traced : Traced) (label : Label) (s : State) : List Call :=
  match label with
  | .step tid =>
    match traced.state.threads tid, s.threads tid with
    | .running f, .returned out =>
      [⟨f.action, f.key, out, traced.extend label s.memory tid⟩]
    | _, _ => []
  | _ => []

def record (traced : Traced) (label : Label) (s : State) : Traced where
  state := s
  since := traced.extend label s.memory
  done := traced.completes label s ++ traced.done

def start : Traced := ⟨initial, fun _ => [⟨initial.memory, false⟩], []⟩

end Traced

def tnext (t : Table) (traced : Traced) (label : Label) : Option Traced :=
  (next t traced.state label).map (traced.record label)

variable {t : Table}

theorem tnext_eq_some (hstep : tnext t traced label = some traced') :
    ∃ s, next t traced.state label = some s ∧ traced' = traced.record label s := by
  obtain ⟨s, step, isRecord⟩ := map_eq_some_iff.mp hstep
  exact ⟨s, step, isRecord.symm⟩

theorem run_tnext (t : Table) (schedule : List Label) (traced : Traced) :
    (Run.run (tnext t) traced schedule).map Traced.state =
      Run.run (next t) traced.state schedule := by
  induction schedule generalizing traced with
  | nil => rfl
  | cons label rest ih =>
    cases hstep : next t traced.state label with
    | none => simp [Run.run, tnext, hstep]
    | some s =>
      have recorded : _ = Run.run (next t) s rest := ih (traced.record label s)
      simpa [Run.run, tnext, hstep] using recorded

theorem meets_tnext {guard : State → Label → Prop}
    (meets : Run.Meets (next t) guard traced.state schedule) :
    Run.Meets (tnext t) (fun traced label => guard traced.state label) traced schedule := by
  induction schedule generalizing traced with
  | nil => trivial
  | cons label rest ih =>
    refine ⟨meets.1, ?_⟩
    cases hstep : next t traced.state label with
    | none => simp [tnext, hstep]
    | some s =>
      have later : Run.Meets (next t) guard (traced.record label s).state rest :=
        ((Run.meets_cons hstep).mp meets).2
      simpa [tnext, hstep] using ih later

theorem recorded_run (reached : Run.run (next t) initial schedule = some final) :
    ∃ traced, Run.run (tnext t) Traced.start schedule = some traced ∧ traced.state = final := by
  have same : _ = Run.run (next t) initial schedule := run_tnext t schedule Traced.start
  rw [reached] at same
  exact map_eq_some_iff.mp same

/-- The answer is the one a sequential operation gives at some moment, leaving the map. -/
def ReadsAt (t : Table) (call : Call) : Prop :=
  ∃ moment ∈ call.moments, SeqStep t call.key call.action
    (toMap t moment.memory) call.outcome (toMap t moment.memory)

/-- The answer is the one of a sequential operation that a step of the call itself performs;
a removal reports a value that the removed entry had at some moment. -/
def ActsAt (t : Table) (call : Call) : Prop :=
  ∃ newer after pre older, call.moments = newer ++ ⟨after, true⟩ :: pre :: older ∧
    SeqStep t call.key call.action (toMap t pre.memory) call.outcome
      (toMap t after) ∧
    ∀ oldVal, call.outcome = .removed oldVal → ∃ slot,
      toMap t pre.memory call.key = some slot ∧
      ∃ moment ∈ call.moments, (moment.memory.elems slot.addr).value = oldVal

def Linearized (t : Table) (call : Call) : Prop :=
  ReadsAt t call ∨ ActsAt t call

end PgAqp.Hash
