import PgAqp.Hash.HtabProgress

/-!
# The sentinel value

A caller gives up an entry by storing the sentinel value in it.  The sentinel test of the
source compares the key of a node, so all this holds of runs in which the two comparisons
agree wherever one is used.
-/

namespace PgAqp.Hash

open Library

structure SentinelInv (t : Table) (traced : Traced) : Prop where
  base : TracedInv t traced
  marked : ∀ {a}, traced.state.memory.Marked a →
    t.isSentinel (traced.state.memory.elems a).value = true

namespace SentinelInv

variable {t : Table}

theorem atStart (t : Table) : SentinelInv t Traced.start where
  base := TracedInv.atStart t
  marked marked := by cases marked

theorem later_step (pre : TracedInv t traced) (after : TracedInv t (traced.record label s)) :
    Later t traced.state.memory s.memory := by
  obtain ⟨tid, extends_⟩ : ∃ tid, ∃ own, traced.extend label s.memory tid =
      ⟨s.memory, own⟩ :: traced.since tid := by
    cases label with
    | invoke tid action key => exact ⟨tid + 1, false, by simp [Traced.extend]⟩
    | step tid => exact ⟨tid, _, rfl⟩
    | store a value => exact ⟨0, _, rfl⟩
    | destroy tid => exact ⟨0, _, rfl⟩
  obtain ⟨own, isCons⟩ := extends_
  obtain ⟨present, mem, isPresent⟩ := (pre.hist tid).present
  rw [← isPresent]
  refine (after.hist tid).later present ?_
  change present ∈ traced.extend label s.memory tid
  rw [isCons]
  exact List.mem_cons_of_mem _ mem

variable (has : t.hasSentinelValue = true)
include has

theorem marked_step (base : TracedInv t traced)
    (guarded : Guarded (Sequential t) traced.state label)
    (hstep : next t traced.state label = some s) (marked : s.memory.Marked a) :
    traced.state.memory.Marked a ∨ (∃ bucket, traced.state.memory.Reach bucket a) ∧
      t.isSentinel (traced.state.memory.elems a).value := by
  cases label with
  | invoke tid action key =>
    obtain ⟨-, ⟨⟩⟩ := Option.ite_none_right_eq_some.mp hstep
    have ordered := (base.hist 0).present_ordered
    obtain ⟨-, -, stays, -⟩ := TracedInv.invoke_memory base.inv ordered tid action key
    exact .inl (stays marked)
  | step tid =>
    simp only [next] at hstep
    split at hstep
    next f running =>
      cases hstep
      simp only [Guarded, running] at guarded
      have change := base.inv.change running (base.inv.access running guarded.1)
      refine (change.marked marked).imp_right ?_
      rintro ⟨reach, atMark, isCur⟩
      have located := base.located running
      simp only [Located, atMark] at located
      refine ⟨reach, (isSentinel_iff has).mpr (located.2.2 a ?_ has)⟩
      rw [isCur]
      rfl
    · cases hstep
  | store other value =>
    obtain ⟨keeps, ⟨⟩⟩ := Option.ite_none_left_eq_some.mp hstep
    exact .inl ((sameLists_store keeps).marked_iff.mp marked)
  | destroy tid =>
    obtain ⟨-, ⟨⟩⟩ := Option.ite_none_right_eq_some.mp hstep
    have same := sameLists_destroy t traced.state tid
    exact .inl (same.marked_iff.mp marked)

theorem preserved (inv : SentinelInv t traced) (guarded : Guarded (Sequential t) traced.state label)
    (hstep : tnext t traced label = some traced') : SentinelInv t traced' := by
  have base' := inv.base.preserved guarded hstep
  obtain ⟨s, step, rfl⟩ := tnext_eq_some hstep
  have later := later_step inv.base base'
  refine ⟨base', fun {a} marked => ?_⟩
  rcases marked_step has inv.base guarded step marked with old | ⟨⟨bucket, reach⟩, isSentinel⟩
  · exact later.sentinel (.inr ⟨old, rfl⟩) (inv.marked old)
  · exact later.sentinel (.inl reach) isSentinel

theorem ofRun (meets : Run.Meets (next t) (Guarded (Sequential t)) initial schedule)
    (recorded : Run.run (tnext t) Traced.start schedule = some traced) :
    SentinelInv t traced :=
  Run.invariant (SentinelInv t) (preserved has) (atStart t) (meets_tnext meets) recorded

/-- An entry that has left the map carries the sentinel. -/
theorem value_of_left (inv : SentinelInv t traced) (mem : moment ∈ traced.since tid)
    (holds : Holds t moment.memory key a) (left : ¬ Holds t traced.state.memory key a) :
    (traced.state.memory.elems a).value = t.sentinelValue := by
  have hist := inv.base.hist tid
  refine (isSentinel_iff has).mp (inv.marked ?_)
  rcases hist.lost moment mem holds.1 with now | ⟨old, oldMember, -, marked⟩
  · by_contra unmarked
    have sameKey := (hist.later moment mem).key (.inl holds.1)
    exact left ⟨now, sameKey.trans holds.2.1, unmarked⟩
  · exact (hist.later old oldMember).marked marked

end SentinelInv

/-- A search that sees one live entry of its key all the time returns it. -/
theorem find_returns (linearized : Linearized t call) (find : call.action = .find)
    (hist : HistOk t call.moments m)
    (stays : ∀ moment ∈ call.moments, Holds t moment.memory call.key a ∧
      t.isSentinel (moment.memory.elems a).value = false) :
    call.outcome = .entry a := by
  have answers : ∀ moment ∈ call.moments, ∀ map, SeqStep t call.key call.action
      (toMap t moment.memory) call.outcome map → call.outcome = .entry a := by
    intro moment mem map step
    obtain ⟨holds, live⟩ := stays moment mem
    have present := toMap_of_holds (hist.wf moment mem) (hist.ordered moment mem) holds
    rw [find] at step
    generalize call.outcome = out at step
    cases step with
    | found slot alive =>
      cases slot.symm.trans present
      rfl
    | notFound dead => cases (dead _ present).symm.trans live
  rcases linearized with ⟨moment, mem, step⟩ | ⟨newer, after, pre, older, split, step, -⟩
  · exact answers moment mem _ step
  · exact answers pre (by simp [split]) _ step

/-- In every sequential run of a table with a sentinel, no completed call returns an entry
that had the sentinel while the call was running, except that an insertion returns its own
node; an insertion whose key is vacant ends with a fresh node after at most `2 * key + 8`
steps; an entry that has left the map, and one that is marked, has the sentinel; and a
search that sees a live entry of its key all the time returns it. -/
theorem sentinel_entries_deleted (t : Table) (has : t.hasSentinelValue = true)
    (schedule : List Label) (final : State)
    (meets : Run.Meets (next t) (Guarded (Sequential t)) initial schedule)
    (reached : Run.run (next t) initial schedule = some final) :
    ∃ traced, Run.run (tnext t) Traced.start schedule = some traced ∧ traced.state = final ∧
    (∀ call ∈ traced.done, ∀ a, call.outcome = .entry a → ∀ moment ∈ call.moments.tail,
      ∀ bucket, moment.memory.Reach bucket a → (moment.memory.elems a).value ≠ t.sentinelValue) ∧
    (∀ tid f, final.threads tid = .running f → f.action = .enter →
      (∀ a, final.memory.Reach (t.bucketOf f.key) a → final.memory.keyOf a ≠ f.key) →
      (∀ bucket, ¬ final.memory.Reach bucket f.newNode) ∧
      ∃ count ≤ 2 * f.key + 8, Run.Meets (next t) (Guarded (Sequential t)) final (solo tid count) →
        ∃ after, Run.run (next t) final (solo tid count) = some after ∧
          after.threads tid = .returned (.entry f.newNode)) ∧
    (∀ a, final.memory.Marked a → (final.memory.elems a).value = t.sentinelValue) ∧
    (∀ tid, ∀ moment ∈ traced.since tid, ∀ key a, Holds t moment.memory key a →
      ¬ Holds t final.memory key a →
      (final.memory.elems a).value = t.sentinelValue) ∧
    ∀ call ∈ traced.done, call.action = .find → ∀ a,
      (∀ moment ∈ call.moments, Holds t moment.memory call.key a ∧
        (moment.memory.elems a).value ≠ t.sentinelValue) →
      call.outcome = .entry a := by
  obtain ⟨traced, recorded, rfl⟩ := recorded_run reached
  have inv := SentinelInv.ofRun has meets recorded
  have live_iff : ∀ value, t.isSentinel value = false ↔ value ≠ t.sentinelValue :=
    fun value => by rw [← Bool.not_eq_true, isSentinel_iff has]
  refine ⟨traced, recorded, rfl, ?_, ?_, ?_, ?_, ?_⟩
  · intro call mem a isEntry moment inTail bucket reach
    exact (live_iff _).mp (inv.base.live call mem a isEntry moment inTail bucket (Or.inl reach))
  · intro tid f running enter vacant
    exact ⟨(inv.base.vacant running enter vacant).hidden.unlisted,
      enter_ends inv.base running enter vacant⟩
  · exact fun a marked => (isSentinel_iff has).mp (inv.marked marked)
  · intro tid moment mem key a holds left
    exact inv.value_of_left has mem holds left
  · intro call mem find a stays
    obtain ⟨m, hist⟩ := inv.base.past call mem
    have linearized := inv.base.done call mem (fun remove => by simp [find] at remove)
    exact find_returns linearized find hist (fun moment inCall =>
      ⟨(stays moment inCall).1, (live_iff _).mpr (stays moment inCall).2⟩)

theorem Thread.running_of_frame {thread : Thread} {f : Frame}
    (isFrame : thread.frame = some f) : thread = .running f := by
  cases thread with
  | running other => exact congrArg Thread.running (Option.some.inj isFrame)
  | _ => cases isFrame

/-- A table whose entries are given up by storing 9. -/
def sentinelTable : Table := ⟨fun _ => 0, 0, true, 9⟩

/-- An insertion of 5 waits while the entry of 5 that was given up is removed. -/
def givenUp : List Label :=
  .invoke 0 .enter 6 :: solo 0 2 ++ .invoke 0 .enter 5 :: solo 0 3 ++ .store 1 9 ::
    .invoke 0 .remove 5 :: solo 0 5 ++ .invoke 1 .find 5 :: solo 1 2 ++
    .invoke 2 .enter 5 :: solo 2 3 ++ solo 0 2

theorem givenUp_replaced : ∃ final, Run.run (next sentinelTable) initial givenUp = some final ∧
      (final.memory.elems 1).value = 9 ∧
      ∃ count ≤ 18,
        Run.Meets (next sentinelTable) (Guarded (Sequential sentinelTable)) final (solo 2 count) →
        ∃ after, Run.run (next sentinelTable) final (solo 2 count) = some after ∧
          after.threads 2 = .returned (.entry 2) := by
  have isSome : (Run.run (next sentinelTable) initial givenUp).isSome = true := by decide
  obtain ⟨final, reached⟩ := Option.isSome_iff_exists.mp isSome
  have looks : (Run.run (next sentinelTable) initial givenUp).map (fun s =>
      (s.memory.buckets 0, s.memory.elems 0, (s.memory.elems 1).value,
        (s.threads 2).frame.map Frame.call)) =
      some (.ofNode 0, ⟨6, 0, .null⟩, 9, some (.enter, 5, 2)) := rfl
  rw [reached] at looks
  simp only [Option.map_some, Option.some.injEq, Prod.mk.injEq] at looks
  obtain ⟨head, first, value, call⟩ := looks
  obtain ⟨-, -, -, -, ends, -⟩ :=
    sentinel_entries_deleted sentinelTable rfl givenUp final (by decide) reached
  have listed : final.memory.Listed (sentinelTable.bucketOf 5) [0] := by
    change final.memory.Listed 0 [0]
    simp [Memory.Listed, Chain, Segment, Memory.linkOf, Memory.read, head, first, Ptr.ofNode,
      Ptr.null]
  have vacant : ∀ a, final.memory.Reach (sentinelTable.bucketOf 5) a →
      final.memory.keyOf a ≠ 5 := by
    intro a reach
    have isFirst := List.mem_singleton.mp (listed.reach_iff.mp reach)
    simp [isFirst, Memory.keyOf, first]
  obtain ⟨f, isFrame, isCall⟩ := Option.map_eq_some_iff.mp call
  cases f
  cases isCall
  obtain ⟨-, count, within, ends⟩ := ends 2 _ (Thread.running_of_frame isFrame) rfl vacant
  exact ⟨final, reached, value, count, within, ends⟩

def findsGivenUp : List Label :=
  .invoke 0 .enter 5 :: solo 0 2 ++ .store 0 9 :: .invoke 1 .find 5 :: solo 1 2

/-- The entry of 9, which has not been given up, is looked up. -/
def missesSentinelKey : List Label :=
  .invoke 0 .enter 9 :: solo 0 2 ++ .store 0 7 :: .invoke 1 .find 9 :: solo 1 2

/-- The test compares the key with the sentinel: the first search returns the entry that was
given up, the second one does not find an entry that is there. -/
theorem sentinelTest_compares_key : (Run.run (next sentinelTable) initial findsGivenUp).map
        (fun s => (s.threads 1, (s.memory.elems 0).value)) =
      some (.returned (.entry 0), 9) ∧
    (Run.run (next sentinelTable) initial missesSentinelKey).map
        (fun s => (s.threads 1, s.memory.buckets 0, s.memory.elems 0)) =
      some (.returned .null, .ofNode 0, ⟨9, 7, .null⟩) := by
  constructor <;> decide

end PgAqp.Hash
