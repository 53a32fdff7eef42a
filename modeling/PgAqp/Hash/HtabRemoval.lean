import PgAqp.Hash.HtabLinearizable

/-!
# Answers of successful removals

A removal that has marked its node remembers it in `removeSucceeded`.  One that finds
the mark of another accepts it as its own, so two removals answer for one entry; these
calls are left out.
-/

namespace PgAqp.Hash

open Library Function List Traced

/-- A removal does not find the mark of another one. -/
def MarksItself (m : Memory) (f : Frame) : Prop :=
  f.pc = .readNextForMark ∨ f.pc = .casMark →
    ∀ a ∈ f.cur.node, ¬ m.Marked a
  deriving Decidable

/-- The program points between a mark and the next search. -/
def Pc.unlinks : Pc → Bool
  | .casUnlink => true
  | .saveOldVal => true
  | .saveOldValRetry => true
  | _ => false

/-- A local computation keeps what a removal remembers, and answers with it. -/
def Carries (f : Frame) (effect : Effect) : Prop :=
  match effect.thread with
  | .running f' =>
    f'.removeSucceeded = f.removeSucceeded ∧ f'.oldVal = f.oldVal ∧
      f'.key = f.key ∧ f'.pc.unlinks = false
  | .returned (.removed oldVal) =>
    f.action = .remove ∧ f.removeSucceeded = true ∧ oldVal = f.oldVal
  | _ => True

section

variable {t : Table} {m : Memory} {f : Frame}

theorem Carries.running (succeeded : f'.removeSucceeded = f.removeSucceeded)
    (oldVal : f'.oldVal = f.oldVal) (key : f'.key = f.key)
    (pc : f'.pc.unlinks = false) : Carries f (.running f') :=
  ⟨succeeded, oldVal, key, pc⟩

theorem findCase_carries : Carries f (findCase t m f) := by
  unfold findCase
  split
  · trivial
  · split <;> trivial

theorem enterLoop_carries : Carries f (enterLoop t m f) := by
  unfold enterLoop
  split
  · exact .running rfl rfl rfl rfl
  · split
    · split
      · trivial
      · exact .running rfl rfl rfl rfl
    · exact .running rfl rfl rfl rfl

theorem removeAdjacent_carries (remove : f.action = .remove) (noRun : f.removedBegin = Ptr.null) :
    Carries f (removeAdjacent t m f) := by
  unfold removeAdjacent
  simp only [freeNodes_returned noRun]
  split
  · next succeeded => exact ⟨remove, succeeded, rfl⟩
  · split
    · trivial
    · split
      · split
        · exact .running rfl rfl rfl rfl
        · exact .running rfl rfl rfl rfl
      · trivial

theorem exitLoop_carries : Carries f (exitLoop t m f) := by
  unfold exitLoop
  cases haction : f.action with
  | find => exact findCase_carries
  | enter => exact enterLoop_carries
  | remove =>
    simp only [removeCase]
    split
    · have carries : Carries { f with removedBegin := Ptr.null }
          (removeAdjacent t m { f with removedBegin := Ptr.null }) :=
        removeAdjacent_carries haction rfl
      exact carries
    · exact .running rfl rfl rfl rfl

theorem fastpath_carries : Carries f (fastpath t m f) := by
  unfold fastpath
  split
  · exact exitLoop_carries
  · exact .running rfl rfl rfl rfl

theorem loopTop_carries {next : Ptr} : Carries f (loopTop t m f link next) := by
  unfold loopTop
  split
  · have carries : Carries { f with cur := next.unmark, next := next }
        (fastpath t m { f with cur := next.unmark, next := next }) :=
      fastpath_carries
    exact carries
  · have carries : Carries { f with left := link, leftNext := next, cur := next, next := next }
        (fastpath t m { f with left := link, leftNext := next, cur := next, next := next }) :=
      fastpath_carries
    exact carries

theorem visit_carries {next : Ptr} : Carries f (visit t m f a next) := by
  unfold visit
  split
  · have carries : Carries { f with next := next }
        (exitLoop t m { f with next := next }) := exitLoop_carries
    exact carries
  · exact loopTop_carries

theorem restart_carries : Carries f (restart t m f) := by
  unfold restart
  split
  · exact .running rfl rfl rfl rfl
  · have carries : Carries { f with next := f.leftNext, cur := f.leftNext }
        (fastpath t m { f with next := f.leftNext, cur := f.leftNext }) :=
      fastpath_carries
    exact carries

end

variable (t : Table) (history : List Moment)

/-- A step of the call itself took the entry out of the map. -/
def Removed (key : Key) (a : Addr) : Prop :=
  ∃ newer after pre older, history = newer ++ ⟨after, true⟩ :: pre :: older ∧
    Holds t pre.memory key a ∧ MemWf t pre.memory ∧ Ordered pre.memory ∧
    (t.hasSentinelValue = true → (pre.memory.elems a).value = t.sentinelValue) ∧
    toMap t after = update (toMap t pre.memory) key none

theorem Removed.push (removed : Removed t history key a) : Removed t (moment :: history) key a := by
  obtain ⟨newer, after, pre, older, rfl, facts⟩ := removed
  exact ⟨moment :: newer, after, pre, older, rfl, facts⟩

def Success (key : Key) (oldVal : Nat) : Prop :=
  ∃ a, Removed t history key a ∧
    ∃ moment ∈ history, (moment.memory.elems a).value = oldVal

/-- What a removal that remembers its success can show for it. -/
structure Claimed (t : Table) (history : List Moment) (f : Frame) : Prop where
  unlinking : f.pc.unlinks = true → ∃ a, f.cur = .ofNode a ∧
    Removed t history f.key a
  searching : f.pc.unlinks = false → f.removeSucceeded = true →
    Success t history f.key f.oldVal

theorem Claimed.push (claimed : Claimed t history f) : Claimed t (moment :: history) f where
  unlinking atPc := by
    obtain ⟨a, isCur, removed⟩ := claimed.unlinking atPc
    exact ⟨a, isCur, removed.push⟩
  searching atPc succeeded := by
    obtain ⟨a, removed, old, mem, isValue⟩ := claimed.searching atPc succeeded
    exact ⟨a, removed.push, old, mem_cons_of_mem _ mem, isValue⟩

/-- A shared access leaves a removal with a claim it can show, or answers with one. -/
def EffectClaims (f : Frame) (effect : Effect) : Prop :=
  match effect.thread with
  | .running f' => Claimed t history f'
  | .returned (.removed oldVal) =>
    f.action = .remove ∧ Success t history f.key oldVal
  | _ => True

section

variable {t : Table} {history : List Moment} {m : Memory} {f : Frame}

theorem claims_of_carries (carries : Carries f effect)
    (success : f.removeSucceeded → Success t history f.key f.oldVal) :
    EffectClaims t history f effect := by
  unfold Carries at carries
  unfold EffectClaims
  split
  next f' isRunning =>
    rw [isRunning] at carries
    obtain ⟨succeeded, oldVal, key, pc⟩ := carries
    refine ⟨fun unlinks => ?_, fun _ isTrue => ?_⟩
    · rw [pc] at unlinks
      cases unlinks
    · rw [key, oldVal]
      exact success (succeeded.symm.trans isTrue)
  next oldVal isReturned =>
    rw [isReturned] at carries
    obtain ⟨remove, succeeded, rfl⟩ := carries
    exact ⟨remove, success succeeded⟩
  · trivial

theorem removed_of_mark (hist : HistOk t history m) (visited : Visited history (t.bucketOf f.key) a)
    (isKey : m.keyOf a = f.key) (unmarked : ¬ m.Marked a)
    (removable : t.hasSentinelValue → (m.elems a).value = t.sentinelValue) :
    Removed t (⟨m.write (.node a) (m.read (.node a)).mark, true⟩ :: history) f.key a := by
  have holds : Holds t m f.key a := ⟨hist.reach_of_visited visited unmarked, isKey, unmarked⟩
  have acts := (mark_acts hist.present_wf hist.present_ordered holds).2
  have wf := hist.present_wf
  have ordered := hist.present_ordered
  obtain ⟨own, older, rfl⟩ := hist.current
  exact ⟨[], _, ⟨m, own⟩, older, rfl, holds, wf, ordered, removable, acts⟩

theorem stepFrame_claims (hist : HistOk t history m) (ok : FrameOk t m f)
    (located : Located t history m f) (claimed : Claimed t history f)
    (survives : Survives m f) (marks : MarksItself m f) :
    EffectClaims t (⟨(stepFrame t m f).1, true⟩ :: history) f (stepFrame t m f).2 := by
  have pushed : Claimed t (⟨(stepFrame t m f).1, true⟩ :: history) f := claimed.push
  generalize hist'Eq : (⟨(stepFrame t m f).1, true⟩ : Moment) :: history = history' at pushed
  have keeps : f.pc.unlinks = false → Carries f (stepFrame t m f).2 →
      EffectClaims t history' f (stepFrame t m f).2 :=
    fun searching carries => claims_of_carries carries (pushed.searching searching)
  unfold FrameOk at ok
  unfold Located at located
  cases hpc : f.pc with
  | readBucket =>
    refine keeps (by rw [hpc]; rfl) ?_
    simp only [stepFrame, hpc]
    exact loopTop_carries
  | readNext =>
    rw [hpc] at ok
    obtain ⟨-, a, isCur⟩ := ok
    refine keeps (by rw [hpc]; rfl) ?_
    simp only [stepFrame, hpc, rawptr_cur isCur]
    exact visit_carries
  | reread =>
    refine keeps (by rw [hpc]; rfl) ?_
    simp only [stepFrame, hpc]
    split
    · exact .running rfl rfl rfl rfl
    · exact .running rfl rfl rfl rfl
  | rereadNext =>
    rw [hpc] at ok
    obtain ⟨-, -, -, a, isCur⟩ := ok
    refine keeps (by rw [hpc]; rfl) ?_
    simp only [stepFrame, hpc, rawptr_cur isCur]
    exact enterLoop_carries
  | casInsert =>
    refine keeps (by rw [hpc]; rfl) ?_
    simp only [stepFrame, hpc]
    split
    · trivial
    · exact restart_carries
  | casUnlinkRun =>
    refine keeps (by rw [hpc]; rfl) ?_
    simp only [stepFrame, hpc, survives.2 hpc, if_false]
    exact restart_carries
  | readValue =>
    rw [hpc] at ok
    obtain ⟨a, isCur⟩ := ok.atNode
    refine keeps (by rw [hpc]; rfl) ?_
    simp only [stepFrame, hpc, rawptr_cur isCur, freeNodes_returned ok.noRun]
    split
    · exact .running rfl rfl rfl rfl
    · trivial
  | readNextForMark =>
    rw [hpc] at ok
    obtain ⟨a, isCur⟩ := ok.atNode
    have curNode : f.cur.node = some a := by rw [isCur]; rfl
    have unmarked := marks (.inl hpc) a curNode
    refine keeps (by rw [hpc]; rfl) ?_
    simp only [stepFrame, hpc, rawptr_cur isCur]
    split
    · next marked => exact absurd marked unmarked
    · exact .running rfl rfl rfl rfl
  | casMark =>
    rw [hpc] at ok located
    obtain ⟨a, isCur⟩ := ok.1.atNode
    have curNode : f.cur.node = some a := by rw [isCur]; rfl
    have unmarked := marks (.inr hpc) a curNode
    obtain ⟨visited, isKey⟩ := located.2.1 a curNode
    by_cases same : m.read (.node a) = f.next
    · have res : stepFrame t m f = (m.write (.node a) (m.read (.node a)).mark,
            afterMark f f.next) := by
        simp only [stepFrame, hpc, rawptr_cur isCur, same, if_true]
      have removed := removed_of_mark hist visited isKey unmarked (located.2.2 a curNode)
      rw [res] at hist'Eq ⊢
      rw [hist'Eq] at removed
      exact ⟨fun _ => ⟨a, isCur, removed⟩, fun unlinks => by cases unlinks⟩
    · refine keeps (by rw [hpc]; rfl) ?_
      simp only [stepFrame, hpc, rawptr_cur isCur, same, if_false]
      split
      · next marked => exact absurd marked unmarked
      · exact .running rfl rfl rfl rfl
  | casUnlink =>
    rw [hpc] at ok
    have claim := pushed.unlinking (by rw [hpc]; rfl)
    simp only [stepFrame, hpc, freeNodes_returned ok.1.noRun]
    split
    · exact ⟨fun _ => claim, fun unlinks => by cases unlinks⟩
    · rw [freeNodes_returned]
      · exact ⟨fun _ => claim, fun unlinks => by cases unlinks⟩
      · exact ok.1.noRun
  | saveOldVal =>
    rw [hpc] at ok
    obtain ⟨remove, a, isCur⟩ := ok
    obtain ⟨a', isCur', removed⟩ := pushed.unlinking (by rw [hpc]; rfl)
    cases isCur.symm.trans isCur'
    have res : stepFrame t m f = (m.free f.cur, .returned (.removed (m.elems a).value)) := by
      simp only [stepFrame, hpc, rawptr_cur isCur]
    rw [res] at hist'Eq ⊢
    subst hist'Eq
    exact ⟨remove, a, removed, _, mem_cons_self .., rfl⟩
  | saveOldValRetry =>
    rw [hpc] at ok
    obtain ⟨-, -, ⟨a, isCur⟩, -⟩ := ok
    obtain ⟨a', isCur', removed⟩ := pushed.unlinking (by rw [hpc]; rfl)
    cases isCur.symm.trans isCur'
    have res : stepFrame t m f = (m, restart t m { f with oldVal := (m.elems a).value }) := by
      simp only [stepFrame, hpc, rawptr_cur isCur]
    rw [res] at hist'Eq ⊢
    have claims : EffectClaims t history' { f with oldVal := (m.elems a).value }
        (restart t m { f with oldVal := (m.elems a).value }) := by
      refine claims_of_carries restart_carries (fun _ => ⟨a, removed, ?_⟩)
      subst hist'Eq
      exact ⟨_, mem_cons_self .., rfl⟩
    exact claims
  | freeNodes begin after =>
    rw [hpc] at ok
    exact ok.elim

end

def Linear (m : Memory) (f : Frame) : Prop :=
  Sequential t m f ∧ MarksItself m f
  deriving Decidable

structure LinearInv (t : Table) (traced : Traced) : Prop where
  base : TracedInv t traced
  claimed : ∀ {tid f}, traced.state.threads tid = .running f →
    Claimed t (traced.since tid) f
  removals : ∀ call ∈ traced.done, ∀ oldVal, call.outcome = .removed oldVal →
    Linearized t call

namespace LinearInv

variable {t : Table} {f : Frame}

theorem linearized_of_success {history : List Moment}
    (success : Success t history call.key oldVal) (out : call.outcome = .removed oldVal)
    (remove : call.action = .remove) (moments : call.moments = history) :
    Linearized t call := by
  obtain ⟨a, ⟨newer, after, pre, older, split, holds, wf, ordered, removable, acts⟩,
    saved⟩ := success
  have present := toMap_of_holds wf ordered holds
  refine .inr ⟨newer, after, pre, older, moments.trans split, ?_, ?_⟩
  · rw [remove, out, acts]
    exact .removed present removable
  · intro oldVal' isRemoved
    cases out.symm.trans isRemoved
    exact ⟨_, present, by rwa [moments]⟩

theorem atStart (t : Table) : LinearInv t start where
  base := TracedInv.atStart t
  claimed running := by cases running
  removals call mem := by cases mem

theorem preserved (linear_inv : LinearInv t traced)
    (guarded : Guarded (Linear t) traced.state label)
    (hstep : tnext t traced label = some traced') : LinearInv t traced' := by
  have base := linear_inv.base
  have base' := base.preserved (guarded.mono fun _ _ => And.left) hstep
  obtain ⟨s, step, rfl⟩ := tnext_eq_some hstep
  cases label with
  | invoke tid action key =>
    refine ⟨base', fun {other f} running => ?_, linear_inv.removals⟩
    change s.threads other = .running f at running
    change Claimed t (traced.extend (.invoke tid action key) s.memory other) f
    obtain ⟨-, ⟨⟩⟩ := Option.ite_none_right_eq_some.mp step
    have ordered := (base.hist 0).present_ordered
    obtain ⟨-, -, -, node, isUpdate⟩ := TracedInv.invoke_memory base.inv ordered tid action key
    rw [isUpdate] at running
    by_cases same : tid = other
    · subst same
      rw [update_self] at running
      cases running
      constructor
      · intro unlinks
        cases unlinks
      · intro _ succeeded
        cases succeeded
    · rw [update_of_ne (Ne.symm same)] at running
      simp only [Traced.extend, same, if_false]
      exact (linear_inv.claimed running).push
  | step tid =>
    simp only [next] at step
    split at step
    next f running =>
      cases step
      simp only [Guarded, running] at guarded
      have claims := stepFrame_claims (base.hist tid) (base.inv.frames running)
        (base.located running) (linear_inv.claimed running) guarded.1.1 guarded.2
      refine ⟨base', fun {other f'} running' => ?_, fun call mem oldVal isRemoved => ?_⟩
      · change Claimed t (⟨(stepFrame t traced.state.memory f).1, tid == other⟩ ::
            traced.since other) f'
        by_cases same : other = tid
        · subst same
          unfold EffectClaims at claims
          rw [threads_install_self.symm.trans running'] at claims
          simpa using claims
        · exact (linear_inv.claimed ((threads_install_of_ne same).symm.trans running')).push
      · rcases mem_append.mp mem with new | old
        · obtain ⟨returned, action, key, moments⟩ := TracedInv.completes_step running new
          unfold EffectClaims at claims
          rw [returned, isRemoved] at claims
          obtain ⟨remove, success⟩ := claims
          rw [← key] at success
          exact linearized_of_success success isRemoved (action.trans remove) moments
        · exact linear_inv.removals call old oldVal isRemoved
    · cases step
  | store a value =>
    refine ⟨base', fun {other f} running => ?_, linear_inv.removals⟩
    obtain ⟨-, ⟨⟩⟩ := Option.ite_none_left_eq_some.mp step
    exact (linear_inv.claimed running).push
  | destroy tid =>
    refine ⟨base', fun {other f} running => ?_, linear_inv.removals⟩
    obtain ⟨-, ⟨⟩⟩ := Option.ite_none_right_eq_some.mp step
    have pre : traced.state.threads other = .running f := by
      by_cases isTid : other = tid
      · subst isTid
        simp [record, State.destroy] at running
      · simpa [record, State.destroy, isTid] using running
    exact (linear_inv.claimed pre).push

end LinearInv

theorem run_linear {t : Table} (meets : Run.Meets (next t) (Guarded (Linear t)) initial schedule)
    (reached : Run.run (tnext t) start schedule = some traced) :
    LinearInv t traced :=
  Run.invariant (LinearInv t) LinearInv.preserved (LinearInv.atStart t) (meets_tnext meets) reached

/-- In every linear run the buckets are sorted lists with one entry for a key at most, no
call follows a marked or null pointer, and every completed call is linearized. -/
theorem calls_linearized (t : Table) (schedule : List Label) (final : State)
    (meets : Run.Meets (next t) (Guarded (Linear t)) initial schedule)
    (reached : Run.run (next t) initial schedule = some final) :
    (∀ bucket, ∃ nodes, final.memory.Listed bucket nodes ∧ nodes.Nodup ∧
      SortedKeys final.memory nodes) ∧
    (∀ key a other, Holds t final.memory key a → Holds t final.memory key other → a = other) ∧
    (∀ tid, final.threads tid ≠ .crashed) ∧
    ∃ traced, Run.run (tnext t) Traced.start schedule = some traced ∧
      traced.state = final ∧ ∀ call ∈ traced.done, Linearized t call := by
  obtain ⟨traced, recorded, rfl⟩ := recorded_run reached
  have linear_inv := run_linear meets recorded
  have base := linear_inv.base
  have ordered := (base.hist 0).present_ordered
  refine ⟨fun bucket => ?_, fun key a other => ?_, base.inv.alive, traced, recorded, rfl, ?_⟩
  · obtain ⟨nodes, listed, nodup, -⟩ := base.inv.wf.listed bucket
    exact ⟨nodes, listed, nodup, ordered bucket nodes listed⟩
  · exact ordered.holds_unique base.inv.wf
  · intro call mem
    by_cases removal : ∃ oldVal, call.outcome = .removed oldVal
    · obtain ⟨oldVal, isRemoved⟩ := removal
      exact linear_inv.removals call mem oldVal isRemoved
    · exact base.done call mem (fun _ oldVal isRemoved => removal ⟨oldVal, isRemoved⟩)

/-- An insertion and a removal of one key run against each other. -/
def contended : List Label :=
  .invoke 0 .enter 5 :: solo 0 2 ++ .invoke 1 .enter 5 :: solo 1 1 ++
    .invoke 0 .remove 5 :: solo 0 3 ++ solo 1 1 ++ solo 0 3 ++ .invoke 2 .find 5 :: solo 2 1

theorem contended_linearized :
    ∃ final traced, Run.run (next plainTable) initial contended = some final ∧
      Run.run (tnext plainTable) Traced.start contended = some traced ∧
      traced.done.map Call.outcome = [.null, .removed 0, .entry 0, .entry 0] ∧
      ∀ call ∈ traced.done, Linearized plainTable call := by
  have isSome : (Run.run (next plainTable) initial contended).isSome = true := by decide
  obtain ⟨final, reached⟩ := Option.isSome_iff_exists.mp isSome
  obtain ⟨-, -, -, traced, recorded, -, linearized⟩ :=
    calls_linearized plainTable contended final (by decide) reached
  have outcomes : (Run.run (tnext plainTable) Traced.start contended).map
      (fun traced => traced.done.map Call.outcome) =
      some [.null, .removed 0, .entry 0, .entry 0] := by decide
  rw [recorded] at outcomes
  exact ⟨final, traced, reached, recorded, Option.some.inj outcomes, linearized⟩

/-- An insertion waits for the removal of the last node of the bucket. -/
def waitsForLast : List Label :=
  .invoke 0 .enter 5 :: solo 0 2 ++ .invoke 1 .remove 5 :: solo 1 4 ++
    .invoke 0 .enter 5 :: solo 0 2 ++ solo 1 2 ++ solo 0 2

/-- It reads its left link again, finds null there, and follows it. -/
theorem waitsForLast_crashes :
    ∃ final, Run.run (next plainTable) initial waitsForLast = some final ∧
      final.threads 0 = .crashed := by
  have crashed : (Run.run (next plainTable) initial waitsForLast).map (·.threads 0) =
      some .crashed := by decide
  exact Option.map_eq_some_iff.mp crashed

end PgAqp.Hash
