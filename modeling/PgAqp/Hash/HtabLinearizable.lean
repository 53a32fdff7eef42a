import PgAqp.Hash.HtabOrder
import PgAqp.Hash.HtabSystem

/-!
# Linearizability of the table

A successful insertion acts on the map when it wins its swap, a successful
removal when it marks its node, and all other answers are right about some
moment of the call.  The bucket lists stay sorted in every step.
-/

namespace PgAqp.Hash

open Library Function List Memory SortedKeys

def inserted (m : Memory) (f : Frame) : Memory :=
  (m.write (.node f.newNode) f.cur).write f.left (.ofNode f.newNode)

/-- An insertion that is about to win its swap in front of a larger key. -/
structure Inserting (t : Table) (history : List Moment) (m : Memory) (f : Frame) :
    Prop where
  hist : HistOk t history m
  search : Search t m f
  left : LeftAt t history m f.key f.left
  above : ∀ a, f.cur.node = some a → f.key < m.keyOf a
  hidden : Hidden m f.newNode
  isKey : m.keyOf f.newNode = f.key
  swapped : m.read f.left = f.leftNext

namespace Inserting

variable {t : Table} {history : List Moment} {m : Memory} {f : Frame}
  (inserting : Inserting t history m f)
include inserting

theorem agrees : AgreesOff m (m.write (.node f.newNode) f.cur) f.newNode :=
  .write inserting.search.curUnmarked

theorem prepared_wf : MemWf t (m.write (.node f.newNode) f.cur) :=
  inserting.agrees.wf inserting.hist.present_wf inserting.hidden

theorem prepared_ordered : Ordered (m.write (.node f.newNode) f.cur) :=
  inserting.agrees.ordered inserting.hist.present_wf inserting.hidden inserting.hist.present_ordered

/-- The insertion finds smaller keys in front of it, marked nodes in between, and larger
keys behind it. -/
theorem between : ∃ front run post, Splice t (m.write (.node f.newNode) f.cur)
        (t.bucketOf f.key) f.left (.ofNode f.newNode) front run post
        [f.newNode] ∧
      (∀ a ∈ front, m.keyOf a < f.key) ∧
      (∀ a ∈ run, m.Marked a) ∧
      ∀ a ∈ post, f.key < m.keyOf a := by
  obtain ⟨run, walk, marked⟩ := inserting.search.run
  obtain ⟨front, post, splice⟩ := inserting.search.insertSplice run inserting.hist.present_wf
    inserting.hidden inserting.isKey walk marked inserting.swapped
  refine ⟨front, run, post, splice, ?_, marked, ?_⟩
  · have less : ∀ a, f.left = .node a → (m.write (.node f.newNode) f.cur).keyOf a < f.key := by
      intro a isNode
      rcases inserting.left with isHead | ⟨node, isNode', -, less⟩
      · cases isHead.symm.trans isNode
      · cases isNode'.symm.trans isNode
        rwa [keyOf_write]
    simpa using splice.position.front_below inserting.prepared_ordered less
  · have behind := splice.behind.2
    rw [linkOf, read_write_self] at behind
    obtain ⟨-, backSorted, -⟩ :=
      append_iff.mp (inserting.prepared_ordered _ _ splice.position.listed)
    obtain ⟨-, postSorted, -⟩ := append_iff.mp backSorted
    intro a mem
    cases post with
    | nil => cases mem
    | cons first rest =>
      have firstAbove := inserting.above first behind.1
      rcases mem_cons.mp mem with rfl | inRest
      · exact firstAbove
      · have afterFirst := (cons_iff.mp postSorted).1 a inRest
        rw [keyOf_write, keyOf_write] at afterFirst
        exact Nat.lt_trans firstAbove afterFirst

theorem wf : MemWf t (inserted m f) := by
  obtain ⟨front, run, post, splice, -, -, -⟩ := inserting.between
  exact splice.wf inserting.prepared_wf

theorem ordered : Ordered (inserted m f) := by
  obtain ⟨front, run, post, splice, below, -, behind⟩ := inserting.between
  obtain ⟨frontSorted, backSorted, across⟩ :=
    append_iff.mp (inserting.prepared_ordered _ _ splice.position.listed)
  obtain ⟨-, postSorted, -⟩ := append_iff.mp backSorted
  refine splice.ordered inserting.prepared_wf inserting.prepared_ordered ?_
  refine append_iff.mpr ⟨frontSorted, cons_iff.mpr ⟨?_, postSorted⟩, ?_⟩
  · intro a mem
    rw [keyOf_write, keyOf_write, inserting.isKey]
    exact behind a mem
  · intro first firstMem second secondMem
    rcases mem_cons.mp secondMem with rfl | inPost
    · rw [keyOf_write, keyOf_write, inserting.isKey]
      exact below first firstMem
    · exact across first firstMem second (mem_append_right _ inPost)

theorem absent : Absent t m f.key := by
  obtain ⟨front, run, post, splice, below, marked, behind⟩ := inserting.between
  rintro a ⟨reach, isKey, unmarked⟩
  have reach' := (inserting.agrees.reach_iff inserting.hist.present_wf inserting.hidden).mpr reach
  rcases mem_append.mp (splice.position.listed.reach_iff.mp reach') with inFront | inBack
  · exact absurd isKey (Nat.ne_of_lt (below a inFront))
  · rcases mem_append.mp inBack with inRun | inPost
    · exact unmarked (marked a inRun)
    · exact absurd isKey (Nat.ne_of_gt (behind a inPost))

omit inserting

theorem keyOf_inserted (a : Addr) : (inserted m f).keyOf a = m.keyOf a := by simp [inserted]

theorem holds_iff (inserting : Inserting t history m f) : Holds t (inserted m f) key a ↔
      Holds t m key a ∨ key = f.key ∧ a = f.newNode := by
  obtain ⟨front, run, post, splice, -, marked, -⟩ := inserting.between
  have reachIff : ∀ {bucket a},
      (m.write (.node f.newNode) f.cur).Reach bucket a ↔ m.Reach bucket a :=
    inserting.agrees.reach_iff inserting.hist.present_wf inserting.hidden
  have markedIff : ∀ {a}, (inserted m f).Marked a ↔ m.Marked a :=
    splice.marked_iff.trans (inserting.agrees.marked_iff inserting.hidden)
  constructor
  · rintro ⟨reach, isKey, unmarked⟩
    rw [keyOf_inserted] at isKey
    rcases splice.reach_cases inserting.prepared_wf reach with old | new
    · exact .inl ⟨reachIff.mp old, isKey, fun isMarked => unmarked (markedIff.mpr isMarked)⟩
    · have isNew := mem_singleton.mp new
      rw [isNew, inserting.isKey] at isKey
      exact .inr ⟨isKey.symm, isNew⟩
  · rintro (⟨reach, isKey, unmarked⟩ | ⟨rfl, rfl⟩)
    · refine ⟨?_, (keyOf_inserted a).trans isKey, fun isMarked => unmarked (markedIff.mp isMarked)⟩
      rcases splice.reach_kept inserting.prepared_wf (reachIff.mpr reach) with still | inRun
      · exact still
      · exact absurd (marked a inRun) unmarked
    · exact ⟨splice.listed.reach_iff.mpr (by simp), (keyOf_inserted _).trans inserting.isKey,
        fun isMarked => inserting.hidden.unmarked (markedIff.mp isMarked)⟩

theorem toMap_inserted (inserting : Inserting t history m f) :
    toMap t (inserted m f) = update (toMap t m) f.key
      (some ⟨f.newNode, (m.elems f.newNode).value⟩) := by
  funext key
  by_cases same : key = f.key
  · subst same
    have holds := inserting.holds_iff.mpr (.inr ⟨rfl, rfl⟩)
    rw [update_self, toMap_of_holds inserting.wf inserting.ordered holds]
    simp [inserted]
  · rw [update_of_ne same]
    refine toMap_congr inserting.wf inserting.ordered (fun a => ?_) (fun a _ => by simp [inserted])
    rw [inserting.holds_iff]
    simp [same]

end Inserting

section

variable {t : Table} {m : Memory}

theorem mark_acts (wf : MemWf t m) (ordered : Ordered m) (holds : Holds t m key a) :
    Ordered (m.write (.node a) (m.read (.node a)).mark) ∧
      toMap t (m.write (.node a) (m.read (.node a)).mark) = update (toMap t m) key none := by
  obtain ⟨reach, isKey, unmarked⟩ := holds
  have wf' := wf.mark reach unmarked
  have ordered' : Ordered (m.write (.node a) (m.read (.node a)).mark) :=
    ordered.congr (listed_congr linkOf_mark).mp (fun _ => keyOf_write)
  have es : ∀ {key' other}, Holds t (m.write (.node a) (m.read (.node a)).mark) key' other ↔
      Holds t m key' other ∧ other ≠ a := by
    simp only [Holds, reach_congr linkOf_mark, keyOf_write, marked_mark unmarked]
    tauto
  refine ⟨ordered', funext fun key' => ?_⟩
  by_cases same : key' = key
  · subst same
    rw [update_self]
    refine toMap_of_absent (fun other held => ?_)
    obtain ⟨held, diff⟩ := es.mp held
    exact diff (ordered.holds_unique wf held ⟨reach, isKey, unmarked⟩)
  · rw [update_of_ne same]
    refine toMap_congr wf' ordered' (fun other => ?_) (fun _ _ => value_write)
    refine es.trans ⟨And.left, fun held => ⟨held, ?_⟩⟩
    rintro rfl
    exact same (held.2.1.symm.trans isKey)

end

def Sequential (t : Table) (m : Memory) (f : Frame) : Prop :=
  Survives m f ∧ InsertsInOrder m f ∧ ChecksValue t m f
  deriving Decidable

section

variable {t : Table} {history : List Moment} {m after : Memory} {f : Frame}

theorem inserting_of_swap (hist : HistOk t history m) (located : Located t history m f)
    (search : Search t m f) (hidden : Hidden m f.newNode) (isKey : m.keyOf f.newNode = f.key)
    (inOrder : InsertsInOrder m f) (atSwap : f.pc = .casInsert)
    (swapped : m.read f.left = f.leftNext) :
    Inserting t history m f := by
  unfold Located at located
  rw [atSwap] at located
  obtain ⟨left, -, other⟩ := located
  refine ⟨hist, search, left, fun a isCur => ?_, hidden, isKey, swapped⟩
  exact Nat.lt_of_le_of_ne (inOrder atSwap swapped a isCur) ((other a isCur).symm)

theorem Access.ordered (access : Access t m f after effect) (hist : HistOk t history m)
    (located : Located t history m f) (hidden : f.action = .enter → Hidden m f.newNode)
    (isKey : f.action = .enter → m.keyOf f.newNode = f.key) (inOrder : InsertsInOrder m f) :
    Ordered after := by
  have wf := hist.present_wf
  have ordered := hist.present_ordered
  cases access with
  | quiet ok => exact ordered
  | prepared enter search ok =>
    exact (AgreesOff.write search.curUnmarked).ordered wf (hidden enter) ordered
  | inserted atSwap enter search swapped =>
    exact (inserting_of_swap hist located search (hidden enter) (isKey enter) inOrder atSwap
      swapped).ordered
  | marked atMark removing isCur unmarked ok =>
    exact ordered.congr (listed_congr linkOf_mark).mp (fun _ => keyOf_write)
  | unlinked removing unlinking swapped =>
    obtain ⟨front, a, post, -, splice⟩ := removing.unlinkSplice wf unlinking swapped
    refine splice.ordered wf ordered (List.Pairwise.sublist ?_ (ordered _ _ splice.position.listed))
    simp
  | freed atSave remove isCur =>
    have same : SameLists t m (m.free f.cur) := .free
    exact same.ordered ordered

/-- A shared access leaves the call at a place it knows, or with an answer, or is a
successful insertion. -/
theorem stepFrame_at (hist : HistOk t history m)
    (hist' : HistOk t (⟨(stepFrame t m f).1, true⟩ :: history) (stepFrame t m f).1)
    (evolves : Evolves t m (stepFrame t m f).1) (ok : FrameOk t m f)
    (located : Located t history m f) (hidden : f.action = .enter → Hidden m f.newNode)
    (isKey : f.action = .enter → m.keyOf f.newNode = f.key) (sequential : Sequential t m f) :
    EffectAt t (⟨(stepFrame t m f).1, true⟩ :: history) (stepFrame t m f).1 f (stepFrame t m f).2 ∨
      f.action = .enter ∧ Inserting t history m f ∧ stepFrame t m f =
          (inserted m f, .returned (.entry f.newNode)) := by
  obtain ⟨survives, inOrder, checks⟩ := sequential
  by_cases reads : Reads f.pc
  · left
    have same : (stepFrame t m f).1 = m := stepFrame_reads reads
    rw [same] at hist' ⊢
    exact read_at hist' ok (located.push hist (Evolves.refl _ _)) checks reads
  · by_cases wins : f.pc = .casInsert ∧ m.read f.left = f.leftNext
    · right
      obtain ⟨atSwap, swapped⟩ := wins
      unfold FrameOk at ok
      rw [atSwap] at ok
      obtain ⟨enter, search⟩ := ok
      have inserting := inserting_of_swap hist located search (hidden enter) (isKey enter)
        inOrder atSwap swapped
      have sameLeft : (m.write (.node f.newNode) f.cur).read f.left = f.leftNext := by
        rw [read_write_of_ne (search.left.ne_hidden (hidden enter))]
        exact swapped
      exact ⟨enter, inserting, by simp only [stepFrame, atSwap, sameLeft, if_true, inserted]⟩
    · left
      exact swap_at hist hist' evolves ok located hidden survives.2 reads
        (fun atSwap swapped => wins ⟨atSwap, swapped⟩) rfl

end

/-- A returned entry did not carry the sentinel while the call was running. -/
def Live (t : Table) (call : Call) : Prop :=
  ∀ a, call.outcome = .entry a → ∀ moment ∈ call.moments.tail, ∀ bucket,
    Known t moment.memory bucket a →
      t.isSentinel (moment.memory.elems a).value = false

structure TracedInv (t : Table) (traced : Traced) : Prop where
  inv : StateInv t traced.state
  hist : ∀ tid, HistOk t (traced.since tid) traced.state.memory
  located : ∀ {tid f}, traced.state.threads tid = .running f →
    Located t (traced.since tid) traced.state.memory f
  done : ∀ call ∈ traced.done,
    (call.action = .remove → ∀ oldVal, call.outcome ≠ .removed oldVal) → Linearized t call
  live : ∀ call ∈ traced.done, Live t call
  past : ∀ call ∈ traced.done, ∃ m, HistOk t call.moments m

namespace TracedInv

variable {t : Table} {traced : Traced} {tid : Tid} {f : Frame}

theorem atStart (t : Table) : TracedInv t Traced.start where
  inv := initial_inv t
  hist tid := by
    refine HistOk.start (initial_memWf t) (fun bucket nodes listed => ?_)
    cases nodes with
    | nil => exact List.Pairwise.nil
    | cons first rest => cases listed.1
  located running := by cases running
  done call mem := by cases mem
  live call mem := by cases mem
  past call mem := by cases mem

theorem hist_push (traced_inv : TracedInv t traced) (evolves : Evolves t traced.state.memory m)
    (wf : MemWf t m) (ordered : Ordered m) (tid : Tid) :
    HistOk t (⟨m, own⟩ :: traced.since tid) m :=
  (traced_inv.hist tid).push evolves traced_inv.inv.wf wf ordered

theorem record_passive (traced_inv : TracedInv t traced) (inv : StateInv t s)
    (evolves : Evolves t traced.state.memory s.memory) (ordered : Ordered s.memory)
    (extends_ : ∀ tid, traced.extend label s.memory tid =
      ⟨s.memory, false⟩ :: traced.since tid) (completesNone : traced.completes label s = [])
    (running : ∀ {tid f}, s.threads tid = .running f →
      traced.state.threads tid = .running f) : TracedInv t (traced.record label s) where
  inv := inv
  hist tid := by
    change HistOk t (traced.extend label s.memory tid) s.memory
    rw [extends_]
    exact traced_inv.hist_push evolves inv.wf ordered tid
  located {tid f} isRunning := by
    change Located t (traced.extend label s.memory tid) s.memory f
    rw [extends_]
    exact (traced_inv.located (running isRunning)).push (traced_inv.hist tid) evolves
  done call mem := by
    change call ∈ traced.completes label s ++ traced.done at mem
    rw [completesNone] at mem
    exact traced_inv.done call mem
  live call mem := by
    change call ∈ traced.completes label s ++ traced.done at mem
    rw [completesNone] at mem
    exact traced_inv.live call mem
  past call mem := by
    change call ∈ traced.completes label s ++ traced.done at mem
    rw [completesNone] at mem
    exact traced_inv.past call mem

theorem record_invoke (traced_inv : TracedInv t traced) (inv : StateInv t s)
    (evolves : Evolves t traced.state.memory s.memory) (ordered : Ordered s.memory)
    (threads : ∃ node, s.threads = update traced.state.threads tid
      (.running (Frame.start t action key node))) :
    TracedInv t (traced.record (.invoke tid action key) s) where
  inv := inv
  hist other := by
    change HistOk t (traced.extend (.invoke tid action key) s.memory other) s.memory
    by_cases same : tid = other
    · simp only [Traced.extend, same, if_true]
      exact HistOk.start inv.wf ordered
    · simp only [Traced.extend, same, if_false]
      exact traced_inv.hist_push evolves inv.wf ordered other
  located {other f} isRunning := by
    change Located t (traced.extend (.invoke tid action key) s.memory other) s.memory f
    obtain ⟨node, isUpdate⟩ := threads
    change s.threads other = .running f at isRunning
    rw [isUpdate] at isRunning
    by_cases same : tid = other
    · subst same
      rw [update_self] at isRunning
      cases isRunning
      trivial
    · rw [update_of_ne (Ne.symm same)] at isRunning
      simp only [Traced.extend, same, if_false]
      exact (traced_inv.located isRunning).push (traced_inv.hist other) evolves
  done := traced_inv.done
  live := traced_inv.live
  past := traced_inv.past

variable {m : Memory} {history : List Moment}

theorem completes_step (running : traced.state.threads tid = .running f)
    (mem : call ∈ traced.completes (.step tid) (traced.state.install tid m effect)) :
    effect.thread = .returned call.outcome ∧ call.action = f.action ∧ call.key = f.key ∧
      call.moments = ⟨m, true⟩ :: traced.since tid := by
  simp only [Traced.completes, running, threads_install_self] at mem
  cases hthread : effect.thread with
  | returned out =>
    simp only [hthread, mem_singleton] at mem
    subst mem
    simp [Traced.extend, Traced.isStepOf, State.install]
  | _ => simp [hthread] at mem

theorem linearized_of_explained (explained : Explained t history m f.key f.action call.outcome)
    (notRemoved : call.action = .remove → ∀ oldVal, call.outcome ≠ .removed oldVal)
    (action : call.action = f.action) (key : call.key = f.key) (moments : call.moments = history) :
    Linearized t call := by
  left
  unfold ReadsAt
  rw [action, key, moments]
  exact explained.right (fun remove => notRemoved (action.trans remove))

theorem linearized_of_inserting (inserting : Inserting t history m f) (enter : f.action = .enter)
    (out : call.outcome = .entry f.newNode) (action : call.action = f.action)
    (key : call.key = f.key) (moments : call.moments = ⟨inserted m f, true⟩ :: history) :
    Linearized t call := by
  right
  obtain ⟨own, older, rfl⟩ := inserting.hist.current
  refine ⟨[], inserted m f, ⟨m, own⟩, older, moments, ?_, ?_⟩
  · rw [action, key, out, enter, inserting.toMap_inserted]
    exact .entered ⟨f.newNode, (m.elems f.newNode).value⟩ (toMap_of_absent inserting.absent)
  · intro oldVal isRemoved
    cases out.symm.trans isRemoved

theorem record_step (traced_inv : TracedInv t traced)
    (running : traced.state.threads tid = .running f)
    (sequential : Sequential t traced.state.memory f) :
    TracedInv t (traced.record (.step tid)
      (traced.state.install tid (stepFrame t traced.state.memory f).1
        (stepFrame t traced.state.memory f).2)) := by
  have inv := traced_inv.inv
  have access := inv.access running sequential.1
  have change := inv.change running access
  have hidden : f.action = .enter → Hidden traced.state.memory f.newNode :=
    fun enter => inv.ownHidden (StateInv.ownsNew running enter)
  have ordered := access.ordered (traced_inv.hist tid) (traced_inv.located running) hidden
    (inv.ownKey running) sequential.2.1
  have effect := stepFrame_at (traced_inv.hist tid)
    (traced_inv.hist_push change.evolves change.wf ordered tid) change.evolves
    (inv.frames running) (traced_inv.located running) hidden (inv.ownKey running) sequential
  constructor
  · exact inv.install running access
  · intro other
    exact traced_inv.hist_push change.evolves change.wf ordered other
  · intro other f' running'
    change Located t (⟨(stepFrame t traced.state.memory f).1, tid == other⟩ :: traced.since other)
      (stepFrame t traced.state.memory f).1 f'
    by_cases same : other = tid
    · subst same
      replace running' : (stepFrame t traced.state.memory f).2.thread = .running f' :=
        threads_install_self.symm.trans running'
      rcases effect with located | ⟨-, -, res⟩
      · unfold EffectAt at located
        rw [running'] at located
        simpa using located
      · rw [res] at running'
        cases running'
    · have pre : traced.state.threads other = .running f' :=
        (threads_install_of_ne same).symm.trans running'
      exact (traced_inv.located pre).push (traced_inv.hist other) change.evolves
  · intro call mem notRemoved
    rcases mem_append.mp mem with new | old
    · obtain ⟨returned, action, key, moments⟩ := completes_step running new
      rcases effect with explained | ⟨enter, inserting, res⟩
      · unfold EffectAt at explained
        rw [returned] at explained
        exact linearized_of_explained explained notRemoved action key moments
      · rw [res] at returned moments
        refine linearized_of_inserting inserting enter ?_ action key moments
        exact (Thread.returned.inj returned).symm
    · exact traced_inv.done call old notRemoved
  · intro call mem
    rcases mem_append.mp mem with new | old
    · obtain ⟨returned, -, -, moments⟩ := completes_step running new
      intro a isEntry moment inTail bucket known
      rw [moments] at inTail
      have later := (traced_inv.hist tid).later moment inTail
      rcases effect with explained | ⟨enter, -, res⟩
      · unfold EffectAt at explained
        rw [returned] at explained
        have live := explained.live a isEntry
        by_contra isSentinel
        have pre := later.sentinel known (by simpa using isSentinel)
        have now := change.evolves.sentinel (later.known known) pre
        simp [live] at now
      · rw [res, isEntry] at returned
        cases returned
        exact absurd rfl ((hidden enter).ne_of_known (later.known known))
    · exact traced_inv.live call old
  · intro call mem
    rcases mem_append.mp mem with new | old
    · obtain ⟨-, -, -, moments⟩ := completes_step running new
      rw [moments]
      exact ⟨_, traced_inv.hist_push change.evolves change.wf ordered tid⟩
    · exact traced_inv.past call old

theorem invoke_memory (inv : StateInv t s) (ordered : Ordered s.memory)
    (tid : Tid) (action : HashAction) (key : Key) :
    Evolves t s.memory (s.invoke t tid action key).memory ∧
      Ordered (s.invoke t tid action key).memory ∧
      (∀ {a}, (s.invoke t tid action key).memory.Marked a → s.memory.Marked a) ∧
      ∃ node, (s.invoke t tid action key).threads =
        update s.threads tid (.running (Frame.start t action key node)) := by
  cases action with
  | find => exact ⟨Evolves.refl _ _, ordered, id, _, rfl⟩
  | remove => exact ⟨Evolves.refl _ _, ordered, id, _, rfl⟩
  | enter =>
    simp only [State.invoke]
    cases isCached : s.cached tid with
    | some a =>
      have hidden := inv.ownHidden (.inl isCached)
      have agrees := AgreesOff.setKey key hidden
      exact ⟨agrees.evolves inv.wf hidden, agrees.ordered inv.wf hidden ordered,
        (agrees.marked_iff hidden).mp, a, rfl⟩
    | none =>
      have agrees := AgreesOff.allocate s.memory key
      exact ⟨agrees.evolves inv.wf inv.hidden_fresh, agrees.ordered inv.wf inv.hidden_fresh ordered,
        (agrees.marked_iff inv.hidden_fresh).mp, _, rfl⟩

theorem preserved (traced_inv : TracedInv t traced)
    (guarded : Guarded (Sequential t) traced.state label)
    (hstep : tnext t traced label = some traced') : TracedInv t traced' := by
  obtain ⟨s, step, rfl⟩ := tnext_eq_some hstep
  have inv := traced_inv.inv
  have survives : Guarded Survives traced.state label := guarded.mono fun _ _ => And.left
  have inv' := inv.preserved survives step
  have ordered := (traced_inv.hist 0).present_ordered
  cases label with
  | invoke tid action key =>
    obtain ⟨-, ⟨⟩⟩ := Option.ite_none_right_eq_some.mp step
    obtain ⟨evolves, ordered', -, threads⟩ := invoke_memory inv ordered tid action key
    exact traced_inv.record_invoke inv' evolves ordered' threads
  | step tid =>
    simp only [next] at step
    split at step
    next f running =>
      cases step
      simp only [Guarded, running] at guarded
      exact traced_inv.record_step running guarded
    · cases step
  | store a value =>
    obtain ⟨keeps, ⟨⟩⟩ := Option.ite_none_left_eq_some.mp step
    have same := sameLists_store keeps
    exact traced_inv.record_passive inv' same.evolves (same.ordered ordered) (fun _ => rfl) rfl id
  | destroy tid =>
    obtain ⟨-, ⟨⟩⟩ := Option.ite_none_right_eq_some.mp step
    have same := sameLists_destroy t traced.state tid
    refine traced_inv.record_passive inv' same.evolves (same.ordered ordered)
      (fun _ => rfl) rfl (fun {other f} running => ?_)
    by_cases isTid : other = tid
    · subst isTid
      simp [State.destroy] at running
    · simpa [State.destroy, isTid] using running

end TracedInv

end PgAqp.Hash
