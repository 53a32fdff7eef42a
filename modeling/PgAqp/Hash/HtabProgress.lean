import PgAqp.Hash.HtabLinearizable

/-!
# An insertion whose key is vacant ends

An insertion that meets a node of its key which is being removed waits.  Once no
node of the key is left in the bucket, a rank goes down with each of its steps until
its swap succeeds.
-/

namespace PgAqp.Hash

open Library Option

def ahead (m : Memory) (f : Frame) : Nat :=
  match f.cur.node with
  | none => 0
  | some a => f.key - m.keyOf a

/-- A bound on the own steps of an insertion whose key is vacant. -/
def rank (m : Memory) (f : Frame) : Nat :=
  match f.pc with
  | .readBucket => f.key + 4
  | .readNext =>
    if m.read f.left = f.leftNext then ahead m f + 2
    else ahead m f + f.key + 7
  | .reread => f.key + 5
  | .rereadNext => if m.read f.left = f.leftNext then 1 else f.key + 6
  | .casInsert => if m.read f.left = f.leftNext then 0 else f.key + 5
  | _ => 0

structure Vacant (t : Table) (history : List Moment) (m : Memory) (f : Frame) :
    Prop where
  hist : HistOk t history m
  ok : FrameOk t m f
  located : Located t history m f
  enter : f.action = .enter
  hidden : Hidden m f.newNode
  vacant : ∀ a, m.Reach (t.bucketOf f.key) a →
    m.keyOf a ≠ f.key

def GoesOn (m : Memory) (f : Frame) (bound : Nat) (effect : Effect) : Prop :=
  ∃ f', effect = .running f' ∧ f'.call = f.call ∧ rank m f' < bound

/-- The insertion has ended with its own node, or goes on with a smaller rank and has
changed at most its own node. -/
def Progress (m after : Memory) (f : Frame) (bound : Nat) (effect : Effect) : Prop :=
  effect = .returned (.entry f.newNode) ∨
    (after = m ∨ after = m.write (.node f.newNode) f.cur ∧
      f.cur.marked = false) ∧ GoesOn after f bound effect

section

variable {t : Table} {history : List Moment} {m : Memory} {f : Frame}
  {a : Addr} {bound : Nat}

theorem ahead_le (m : Memory) (f : Frame) : ahead m f ≤ f.key := by
  unfold ahead
  split
  · exact Nat.zero_le _
  · exact Nat.sub_le _ _

theorem enterLoop_swaps (other : ∀ a, f.cur.node = some a → m.keyOf a ≠ f.key) :
    enterLoop t m f = .running { f with pc := .casInsert } := by
  unfold enterLoop
  split
  · rfl
  · next a isCur => rw [if_neg (other a isCur)]

theorem exitLoop_enter (enter : f.action = .enter) {next : Ptr} :
    exitLoop t m { f with next := next } = enterLoop t m { f with next := next } := by
  simp only [exitLoop, enter]

theorem rank_swap (m : Memory) (f : Frame) : rank m { f with pc := .casInsert } ≤ 5 + f.key := by
  simp only [rank]
  split
  · exact Nat.zero_le _
  · exact Nat.le_of_eq (Nat.add_comm _ _)

theorem fastpath_synced (enter : f.action = .enter)
    (synced : m.read f.left = f.leftNext) (below : ahead m f + 2 < bound) :
    GoesOn m f bound (fastpath t m f) := by
  unfold fastpath
  split
  next isCur =>
    simp only [exitLoop, enter]
    rw [enterLoop_swaps (by simp [isCur])]
    refine ⟨_, rfl, by simp [Frame.call, enter], ?_⟩
    simp only [rank, synced, if_true]
    exact Nat.lt_of_le_of_lt (Nat.zero_le _) below
  · refine ⟨_, rfl, rfl, ?_⟩
    simp only [rank, synced, if_true]
    exact below

theorem fastpath_goesOn (enter : f.action = .enter) (below : ahead m f + f.key + 7 < bound) :
    GoesOn m f bound (fastpath t m f) := by
  unfold fastpath
  split
  next isCur =>
    simp only [exitLoop, enter]
    rw [enterLoop_swaps (by simp [isCur])]
    refine ⟨_, rfl, by simp [Frame.call, enter], ?_⟩
    have swap : rank m { f with pc := .casInsert } ≤ _ := rank_swap m f
    omega
  · refine ⟨_, rfl, rfl, ?_⟩
    simp only [rank]
    split
    · change ahead m f + 2 < bound
      omega
    · exact below

theorem SearchAt.reach_cur {left : Link} {leftNext cur : Ptr}
    (search : SearchAt t m key left leftNext cur) (wf : MemWf t m)
    (synced : m.read left = leftNext) (isCur : cur.node = some a) :
    m.Reach (t.bucketOf key) a := by
  obtain ⟨run, walk, -⟩ := search.run
  obtain ⟨front, post, pos, behind⟩ := search.position wf walk synced
  rw [isCur] at behind
  refine pos.listed.reach_iff.mpr ?_
  cases post with
  | nil => cases behind
  | cons first rest =>
    cases behind.1
    simp

variable (vacant : Vacant t history m f)
include vacant

theorem readBucket_goesOn : GoesOn m f (f.key + 4) (loopTop t m f
      (.head (t.bucketOf f.key)) (m.read (.head (t.bucketOf f.key)))) := by
  have plain := vacant.hist.present_wf.headUnmarked (t.bucketOf f.key)
  simp only [loopTop, Memory.read, plain, Bool.false_eq_true, if_false]
  refine fastpath_synced vacant.enter rfl ?_
  exact Nat.lt_of_le_of_lt (Nat.add_le_add_right (ahead_le _ _) 2)
    (Nat.add_lt_add_left (by decide) _)

theorem Vacant.marked_of_key (visited : Visited history (t.bucketOf f.key) a)
    (isKey : m.keyOf a = f.key) : m.Marked a := by
  by_contra unmarked
  exact vacant.vacant a (vacant.hist.reach_of_visited visited unmarked) isKey

theorem enterLoop_goesOn (visited : Visited history (t.bucketOf f.key) a)
    (isCur : f.cur = .ofNode a) (below : bound > 5 + f.key) :
    GoesOn m f bound (enterLoop t m { f with next := m.read (.node a) }) := by
  by_cases isKey : m.keyOf a = f.key
  · have marked : (m.read (.node a)).marked := vacant.marked_of_key visited isKey
    simp only [enterLoop, isCur, Ptr.ofNode, isKey, if_true, marked]
    refine ⟨_, rfl, rfl, ?_⟩
    simp only [rank]
    rwa [Nat.add_comm]
  · rw [enterLoop_swaps]
    · refine ⟨_, rfl, rfl, Nat.lt_of_le_of_lt ?_ below⟩
      exact rank_swap m { f with next := m.read (.node a) }
    · intro other isOther
      simp only [isCur, Ptr.ofNode, some.injEq] at isOther
      exact isOther ▸ isKey

theorem enterLoop_synced (reach : m.Reach (t.bucketOf f.key) a) (isCur : f.cur = .ofNode a)
    (synced : m.read f.left = f.leftNext) (next : Ptr) (below : 0 < bound) :
    GoesOn m f bound (enterLoop t m { f with next := next }) := by
  rw [enterLoop_swaps]
  · refine ⟨_, rfl, rfl, ?_⟩
    simp only [rank, synced, if_true]
    exact below
  · intro other isOther
    simp only [isCur, Ptr.ofNode, some.injEq] at isOther
    exact isOther ▸ vacant.vacant a reach

theorem ahead_lt (visited : Visited history (t.bucketOf f.key) a)
    (less : m.keyOf a < f.key) (isCur : f.cur = .ofNode a)
    (sameKey : f'.key = f.key) (isNext : f'.cur.node = m.linkOf (.node a)) :
    ahead m f' < ahead m f := by
  have positive : 0 < f.key - m.keyOf a := Nat.sub_pos_of_lt less
  have here : ahead m f = f.key - m.keyOf a := by simp [ahead, isCur, Ptr.ofNode]
  rw [here]
  unfold ahead
  rw [isNext, sameKey]
  cases linked : m.linkOf (.node a) with
  | none => exact positive
  | some next => exact Nat.sub_lt_sub_left less (vacant.hist.key_lt_next visited linked)

theorem visit_goesOn (atPc : f.pc = .readNext) (search : Search t m f)
    (isCur : f.cur = .ofNode a) (visited : Visited history (t.bucketOf f.key) a) :
    GoesOn m f (rank m f) (visit t m f a (m.read (.node a))) := by
  have isNode : f.cur.node = some a := by simp [isCur, Ptr.ofNode]
  unfold visit
  split
  · simp only [exitLoop_enter vacant.enter]
    by_cases synced : m.read f.left = f.leftNext
    · have reach := search.reach_cur vacant.hist.present_wf synced isNode
      refine enterLoop_synced vacant reach isCur synced _ ?_
      simp [rank, atPc, synced]
    · refine enterLoop_goesOn vacant visited isCur ?_
      simp only [rank, atPc, synced, if_false]
      omega
  next stays =>
    have less : m.keyOf a < f.key := by
      refine Nat.lt_of_not_le (fun above => stays ⟨above, fun remove => ?_⟩)
      rw [vacant.enter] at remove
      cases remove
    have closer : ∀ f' : Frame, f'.key = f.key → f'.cur.node = m.linkOf (.node a) →
        ahead m f' < ahead m f :=
      fun _ => ahead_lt vacant visited less isCur
    unfold loopTop
    split
    · by_cases synced : m.read f.left = f.leftNext
      · refine fastpath_synced vacant.enter synced ?_
        simp only [rank, atPc, synced, if_true]
        refine Nat.add_lt_add_right ?_ 2
        apply closer <;> rfl
      · refine fastpath_goesOn vacant.enter ?_
        simp only [rank, atPc, synced, if_false]
        refine Nat.add_lt_add_right (Nat.add_lt_add_right ?_ _) 7
        apply closer <;> rfl
    · refine fastpath_synced vacant.enter rfl ?_
      have lower := closer { f with
        left := .node a, leftNext := m.read (.node a)
        cur := m.read (.node a), next := m.read (.node a) } rfl rfl
      refine Nat.lt_of_lt_of_le (Nat.add_lt_add_right lower 2) ?_
      simp only [rank, atPc]
      split <;> omega

omit vacant

theorem restart_goesOn (enter : f.action = .enter) : GoesOn m f (f.key + 5)
      (restart t m { f with leftNext := m.read f.left }) := by
  unfold restart
  split
  · exact ⟨_, rfl, rfl, Nat.lt_succ_self _⟩
  · refine fastpath_synced enter rfl ?_
    exact Nat.lt_of_le_of_lt (Nat.add_le_add_right (ahead_le _ _) 2)
      (Nat.add_lt_add_left (by decide) _)

theorem Vacant.pc_cases (vacant : Vacant t history m f) :
    f.pc = .readBucket ∨ f.pc = .readNext ∨ f.pc = .reread ∨
      f.pc = .rereadNext ∨ f.pc = .casInsert := by
  have ok := vacant.ok
  have keeps : f.action ≠ .remove := by simp [vacant.enter]
  unfold FrameOk at ok
  cases atPc : f.pc with
  | readBucket | readNext | reread | rereadNext | casInsert => simp
  | casUnlinkRun | saveOldVal | saveOldValRetry =>
    simp only [atPc] at ok
    exact absurd ok.1 keeps
  | readValue | readNextForMark =>
    simp only [atPc] at ok
    exact absurd ok.action keeps
  | casMark | casUnlink =>
    simp only [atPc] at ok
    exact absurd ok.1.action keeps
  | freeNodes begin after => simp only [atPc] at ok

theorem stepFrame_progress (vacant : Vacant t history m f) :
    Progress m (stepFrame t m f).1 f (rank m f) (stepFrame t m f).2 := by
  have ok := vacant.ok
  have located := vacant.located
  unfold FrameOk at ok
  unfold Located at located
  rcases vacant.pc_cases with atPc | atPc | atPc | atPc | atPc
  · simp only [stepFrame, atPc]
    refine .inr ⟨.inl rfl, ?_⟩
    have goesOn := readBucket_goesOn vacant
    simpa only [rank, atPc] using goesOn
  · simp only [atPc] at ok located
    obtain ⟨search, a, isCur⟩ := ok
    obtain ⟨-, ahead⟩ := located
    rw [isCur] at ahead
    have goesOn := visit_goesOn vacant atPc search isCur ahead.1
    simp only [stepFrame, atPc, rawptr_cur isCur]
    exact .inr ⟨.inl rfl, goesOn⟩
  · simp only [stepFrame, atPc]
    split
    · refine .inr ⟨.inl rfl, _, rfl, rfl, ?_⟩
      simp only [rank, atPc]
      exact Nat.lt_succ_self _
    · refine .inr ⟨.inl rfl, _, rfl, rfl, ?_⟩
      simp only [rank, atPc, if_true]
      exact Nat.succ_lt_succ (Nat.succ_pos _)
  · simp only [atPc] at ok located
    obtain ⟨-, search, adjacent, a, isCur⟩ := ok
    obtain ⟨-, ahead⟩ := located
    rw [isCur] at ahead
    have goesOn : GoesOn m f (rank m f) (enterLoop t m { f with next := m.read (.node a) }) := by
      by_cases synced : m.read f.left = f.leftNext
      · have reach := search.reach_cur vacant.hist.present_wf synced (by rw [isCur]; rfl)
        refine enterLoop_synced vacant reach isCur synced _ ?_
        simp [rank, atPc, synced]
      · refine enterLoop_goesOn vacant ahead.1 isCur ?_
        simp only [rank, atPc, synced, if_false]
        omega
    simp only [stepFrame, atPc, rawptr_cur isCur]
    exact .inr ⟨.inl rfl, goesOn⟩
  · simp only [atPc] at ok
    have offNew := ok.2.left.ne_hidden vacant.hidden
    simp only [stepFrame, atPc]
    split
    · exact .inl rfl
    next failed =>
      rw [Memory.read_write_of_ne offNew] at failed
      refine .inr ⟨.inr ⟨rfl, ok.2.curUnmarked⟩, ?_⟩
      have bound : rank m f = f.key + 5 := by simp only [rank, atPc, failed, if_false]
      rw [bound]
      simpa only [atPc] using restart_goesOn vacant.enter

theorem rank_le (m : Memory) (f : Frame) : rank m f ≤ 2 * f.key + 7 := by
  have below := ahead_le m f
  unfold rank
  split
  · omega
  · split <;> omega
  · omega
  · split <;> omega
  · split <;> omega
  · omega

end

/-- A running insertion of the given call in a recorded run, with its key vacant. -/
def Waiting (t : Table) (tid : Tid) (call : HashAction × Key × Addr) (traced : Traced) : Prop :=
  TracedInv t traced ∧ ∃ f, traced.state.threads tid = .running f ∧
    f.call = call ∧ Vacant t (traced.since tid) traced.state.memory f

def rankOf (tid : Tid) (traced : Traced) : Nat :=
  (traced.state.threads tid).frame.elim 0 (rank traced.state.memory)

section

variable {t : Table} {f : Frame}

theorem TracedInv.vacant (inv : TracedInv t traced)
    (running : traced.state.threads tid = .running f) (enter : f.action = .enter)
    (vacant : ∀ a, traced.state.memory.Reach (t.bucketOf f.key) a →
      traced.state.memory.keyOf a ≠ f.key) :
    Vacant t (traced.since tid) traced.state.memory f where
  hist := inv.hist tid
  ok := inv.inv.frames running
  located := inv.located running
  enter := enter
  hidden := inv.inv.ownHidden (StateInv.ownsNew running enter)
  vacant := vacant

theorem Waiting.progress (waiting : Waiting t tid call traced)
    (guarded : Guarded (Sequential t) traced.state (.step tid)) :
    ∃ next, tnext t traced (.step tid) = some next ∧
      (next.state.threads tid = .returned (.entry call.2.2) ∨
        Waiting t tid call next ∧ rankOf tid next < rankOf tid traced) := by
  obtain ⟨inv, f, running, rfl, vacant⟩ := waiting
  let after := traced.state.install tid (stepFrame t traced.state.memory f).1
    (stepFrame t traced.state.memory f).2
  have hstep : tnext t traced (.step tid) = some (traced.record (.step tid) after) := by
    simp only [tnext, next, running, map_some, after]
  refine ⟨_, hstep, ?_⟩
  have inv' := inv.preserved guarded hstep
  rcases stepFrame_progress vacant with ended | ⟨m, f', goesOn, same, lower⟩
  · left
    change after.threads tid = _
    simp only [after, ended, threads_install_self]
    rfl
  · right
    have running' : (traced.record (.step tid) after).state.threads tid = .running f' := by
      change after.threads tid = _
      simp only [after, goesOn, threads_install_self]
      rfl
    obtain ⟨sameAction, sameKey, -⟩ := Frame.call_eq same
    refine ⟨⟨inv', f', running', same, ?_⟩, ?_⟩
    · refine inv'.vacant running' (sameAction.trans vacant.enter) (fun a reach => ?_)
      rw [sameKey] at reach ⊢
      change (stepFrame t traced.state.memory f).1.Reach _ a at reach
      change (stepFrame t traced.state.memory f).1.keyOf a ≠ f.key
      rcases m with unchanged | ⟨prepared, plain⟩
      · rw [unchanged] at reach ⊢
        exact vacant.vacant a reach
      · have agrees : AgreesOff traced.state.memory
            (traced.state.memory.write (.node f.newNode) f.cur) f.newNode :=
          .write plain
        rw [prepared] at reach ⊢
        rw [Memory.keyOf_write]
        exact vacant.vacant a ((agrees.reach_iff inv.inv.wf vacant.hidden).mp reach)
    · simp only [rankOf, running', running, Thread.frame, Option.elim]
      exact lower

theorem enter_ends (inv : TracedInv t traced)
    (running : traced.state.threads tid = .running f) (enter : f.action = .enter)
    (vacant : ∀ a, traced.state.memory.Reach (t.bucketOf f.key) a →
      traced.state.memory.keyOf a ≠ f.key) :
    ∃ count ≤ 2 * f.key + 8,
      Run.Meets (next t) (Guarded (Sequential t)) traced.state (solo tid count) →
      ∃ final, Run.run (next t) traced.state (solo tid count) = some final ∧
        final.threads tid = .returned (.entry f.newNode) := by
  have waiting : Waiting t tid f.call traced :=
    ⟨inv, f, running, rfl, inv.vacant running enter vacant⟩
  obtain ⟨count, within, ends⟩ := Run.reaches (Label.step tid) (Waiting t tid f.call)
    (fun next => next.state.threads tid = .returned (.entry f.call.2.2)) (rankOf tid)
    Waiting.progress waiting
  have bound : rankOf tid traced ≤ 2 * f.key + 7 := by
    simp only [rankOf, running, Thread.frame, Option.elim]
    exact rank_le _ _
  refine ⟨count, Nat.le_trans within (Nat.succ_le_succ bound), fun meets => ?_⟩
  obtain ⟨final, reached, returned⟩ := ends (meets_tnext meets)
  have recorded := run_tnext t (solo tid count) traced
  refine ⟨final.state, ?_, returned⟩
  rw [← recorded]
  exact congrArg (Option.map Traced.state) reached

end

end PgAqp.Hash
