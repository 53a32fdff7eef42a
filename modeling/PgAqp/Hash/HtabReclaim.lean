import PgAqp.Library.Ledger
import PgAqp.Hash.HtabSystem

/-!
# Who frees a node

Every node that the slab has handed out is at one place at a time: in a bucket,
kept back by one backend, unlinked by one removal that is about to free it, or
freed.  The accounting needs one more condition than survival: an insertion must not
win a swap that drops marked nodes on the way, since it frees none of them.
-/

namespace PgAqp.Hash

open Library Function List Option Memory State Frame

/-- An insertion that wins its swap drops no node. -/
def DropsNothing (m : Memory) (f : Frame) : Prop :=
  f.pc = .casInsert → m.read f.left = f.leftNext → f.leftNext = f.cur
  deriving Decidable

def Reclaimable (m : Memory) (f : Frame) : Prop :=
  Survives m f ∧ DropsNothing m f
  deriving Decidable

inductive Place where
  | bucket
  | keeper (tid : Tid)
  | remover (tid : Tid)
  deriving DecidableEq

/-- A removal has unlinked the node and frees it with its next access. -/
def Unlinked (s : State) (tid : Tid) (a : Addr) : Prop :=
  ∃ f, s.threads tid = .running f ∧ f.pc = .saveOldVal ∧ f.cur = .ofNode a

def Holding (s : State) : Place → Addr → Prop
  | .bucket, a => ∃ bucket, s.memory.Reach bucket a
  | .keeper tid, a => Owns s tid a
  | .remover tid, a => Unlinked s tid a

/-- The slab was given back the nodes of the list, each by its own address. -/
def Ledger (s : State) (spent : List Addr) : Prop :=
  s.memory.freed = spent.map Ptr.ofNode ∧
    Balanced (Holding s) spent s.memory.fresh

section

variable {t : Table} {s : State} {tid : Tid} {f : Frame} {m : Memory} {a : Addr} {spent : List Addr}

theorem unlinked_install_of_ne (diff : other ≠ tid) :
    Unlinked (s.install tid m effect) other a ↔ Unlinked s other a := by
  unfold Unlinked
  rw [threads_install_of_ne diff]

theorem not_unlinked (running : s.threads tid = .running f)
    (notSaving : f.pc ≠ .saveOldVal) : ¬ Unlinked s tid a := by
  rintro ⟨f', running', atSave, -⟩
  cases running.symm.trans running'
  exact notSaving atSave

theorem not_unlinked_install (notSaving : ∀ f', effect.thread = .running f' → f'.pc ≠ .saveOldVal) :
    ¬ Unlinked (s.install tid m effect) tid a := by
  rintro ⟨f', running', atSave, -⟩
  rw [threads_install_self] at running'
  exact notSaving f' running' atSave

/-- A step that moves the call away from `saveOldVal`, or that does not come near it. -/
theorem unlinked_returned_iff : Unlinked (s.install tid m (.returned out)) other a ↔
      Unlinked s other a ∧ other ≠ tid := by
  by_cases same : other = tid
  · subst same
    refine iff_of_false (not_unlinked_install ?_) (fun pre => pre.2 rfl)
    simp [Effect.returned]
  · rw [unlinked_install_of_ne same]
    exact ⟨fun pre => ⟨pre, same⟩, And.left⟩

variable (ledger : Ledger s spent) (inv : StateInv t s)
  (running : s.threads tid = .running f)
include inv running

theorem owns_install_iff (continues : Continues t m f effect) :
    Owns (s.install tid m effect) other a ↔ Owns s other a := by
  by_cases same : other = tid
  · subst same
    exact ⟨owns_install_self running continues, inv.owns_kept running continues⟩
  · exact owns_install_of_ne same

theorem owns_inserted_iff (enter : f.action = .enter) :
    Owns (s.install tid m (.returned out)) other a ↔ Owns s other a ∧ a ≠ f.newNode := by
  have noCache := inv.ownOnce running enter
  by_cases same : other = tid
  · subst same
    refine iff_of_false ?_ ?_
    · rintro (cached | ⟨_, running', -, -⟩)
      · rw [cached_install_none rfl, noCache] at cached
        cases cached
      · rw [threads_install_self] at running'
        cases running'
    · rintro ⟨cached | ⟨_, running', -, isNew⟩, diff⟩
      · rw [noCache] at cached
        cases cached
      · cases running.symm.trans running'
        exact diff isNew.symm
  · rw [owns_install_of_ne same]
    refine ⟨fun pre => ⟨pre, ?_⟩, And.left⟩
    rintro rfl
    exact same (inv.ownUnique pre (StateInv.ownsNew running enter))

include ledger

/-- A step that changes no list and neither unlinks nor frees a node. -/
theorem Ledger.quiet (ok : EffectOk t m f effect) (notSaving : f.pc ≠ .saveOldVal)
    (lists : ∀ {bucket a}, m.Reach bucket a ↔ s.memory.Reach bucket a)
    (sameFreed : m.freed = s.memory.freed) (sameFresh : m.fresh = s.memory.fresh) :
    Ledger (s.install tid m effect) spent := by
  obtain ⟨isFreed, balanced⟩ := ledger
  refine ⟨sameFreed.trans isFreed, ?_⟩
  change Balanced _ spent m.fresh
  rw [sameFresh]
  refine balanced.congr (fun place a => ?_)
  cases place with
  | bucket => exact exists_congr (fun _ => lists)
  | keeper other => exact owns_install_iff inv running ok.continues
  | remover other =>
    by_cases same : other = tid
    · subst same
      exact iff_of_false (not_unlinked_install ok.notSaving) (not_unlinked running notSaving)
    · exact unlinked_install_of_ne same

theorem Ledger.inserted (enter : f.action = .enter) (search : Search t s.memory f)
    (notSaving : f.pc ≠ .saveOldVal) (swapped : s.memory.read f.left = f.leftNext)
    (adjacent : f.leftNext = f.cur) :
    Ledger (s.install tid ((s.memory.write (.node f.newNode) f.cur).write f.left
        (.ofNode f.newNode)) (.returned (.entry f.newNode))) spent := by
  obtain ⟨isFreed, balanced⟩ := ledger
  have owns : Holding s (.keeper tid) f.newNode := StateInv.ownsNew running enter
  have hidden := inv.ownHidden owns
  have agrees : AgreesOff s.memory (s.memory.write (.node f.newNode) f.cur)
      f.newNode := .write search.curUnmarked
  have wf' : MemWf t _ := agrees.wf inv.wf hidden
  obtain ⟨front, post, splice⟩ := search.insertSplice [] inv.wf hidden
    (inv.ownKey running enter) (by rw [adjacent]; rfl) (by simp) swapped
  refine ⟨by simpa [install] using isFreed, ?_⟩
  simp only [install, fresh_write]
  refine balanced.move (.keeper tid) .bucket owns (fun place a => ?_)
  cases place with
  | bucket =>
    constructor
    · rintro ⟨bucket, reach⟩
      rcases splice.reach_cases wf' reach with old | new
      · have pre := (agrees.reach_iff inv.wf hidden).mp old
        have known : Known t s.memory bucket a := .inl pre
        exact .inl ⟨⟨bucket, pre⟩, hidden.ne_of_known known⟩
      · exact .inr ⟨rfl, mem_singleton.mp new⟩
    · rintro (⟨⟨bucket, pre⟩, -⟩ | ⟨-, rfl⟩)
      · have old := (agrees.reach_iff inv.wf hidden).mpr pre
        exact ⟨bucket, (splice.reach_kept wf' old).resolve_right (by simp)⟩
      · exact ⟨_, splice.listed.reach_iff.mpr (by simp)⟩
  | keeper other =>
    simp only [reduceCtorEq, false_and, or_false]
    exact owns_inserted_iff inv running enter
  | remover other =>
    simp only [reduceCtorEq, false_and, or_false]
    refine unlinked_returned_iff.trans (and_congr_right fun unlinked => ?_)
    refine iff_of_true ?_ ?_
    · rintro rfl
      exact not_unlinked running notSaving unlinked
    · rintro rfl
      have same : Place.remover other = Place.keeper tid := balanced.unique unlinked owns
      cases same

theorem Ledger.unlinked (removing : Removing t s.memory f) (unlinking : Unlinking s.memory f)
    (notSaving : f.pc ≠ .saveOldVal) (swapped : s.memory.read f.left = f.leftNext) :
    Ledger (s.install tid (s.memory.write f.left f.next)
      (.running { f with pc := .saveOldVal })) spent := by
  obtain ⟨isFreed, balanced⟩ := ledger
  obtain ⟨front, node, post, isCur, splice⟩ := removing.unlinkSplice inv.wf unlinking swapped
  have listed : Holding s .bucket node := ⟨_, splice.position.listed.reach_iff.mpr (by simp)⟩
  have continues : Continues t (s.memory.write f.left f.next) f
      (.running { f with pc := .saveOldVal }) :=
    ⟨⟨removing.action, removing.atNode⟩, rfl, rfl⟩
  refine ⟨by simpa [install] using isFreed, ?_⟩
  simp only [install, fresh_write]
  refine balanced.move .bucket (.remover tid) listed (fun place a => ?_)
  cases place with
  | bucket =>
    simp only [reduceCtorEq, false_and, or_false]
    constructor
    · rintro ⟨bucket, reach⟩
      refine ⟨⟨bucket, (splice.reach_cases inv.wf reach).resolve_right (by simp)⟩, ?_⟩
      rintro rfl
      exact splice.run_dropped inv.wf (by simp) reach
    · rintro ⟨⟨bucket, pre⟩, diff⟩
      exact ⟨bucket, (splice.reach_kept inv.wf pre).resolve_right (by simpa using diff)⟩
  | keeper other =>
    simp only [reduceCtorEq, false_and, or_false]
    refine (owns_install_iff inv running continues).trans ⟨fun owns => ⟨owns, ?_⟩, And.left⟩
    rintro rfl
    have same : Place.keeper other = Place.bucket := balanced.unique owns listed
    cases same
  | remover other =>
    by_cases same : other = tid
    · subst same
      have mine : Unlinked (s.install other (s.memory.write f.left f.next)
          (.running { f with pc := .saveOldVal })) other a ↔ a = node := by
        constructor
        · rintro ⟨_, running', -, isAddr⟩
          rw [threads_install_self] at running'
          cases running'
          cases isCur.symm.trans isAddr
          rfl
        · rintro rfl
          exact ⟨_, threads_install_self, rfl, isCur⟩
      refine mine.trans ⟨fun isNode => .inr ⟨rfl, isNode⟩, ?_⟩
      rintro (⟨pre, -⟩ | ⟨-, isNode⟩)
      · exact absurd pre (not_unlinked running notSaving)
      · exact isNode
    · simp only [Place.remover.injEq, same, false_and, or_false]
      refine (unlinked_install_of_ne same).trans ⟨fun pre => ⟨pre, ?_⟩, And.left⟩
      rintro rfl
      have place : Place.remover other = Place.bucket := balanced.unique pre listed
      cases place

theorem Ledger.freed (remove : f.action = .remove)
    (atSave : f.pc = .saveOldVal) (isCur : f.cur = .ofNode node) :
    Ledger (s.install tid (s.memory.free f.cur) (.returned out)) (node :: spent) := by
  obtain ⟨isFreed, balanced⟩ := ledger
  have unlinked : Holding s (.remover tid) node := ⟨f, running, atSave, isCur⟩
  have continues : Continues t (s.memory.free f.cur) f (.returned out) := by
    simp [Continues, Effect.returned, remove]
  refine ⟨by simp [install, free, isFreed, isCur], ?_⟩
  refine balanced.spend (.remover tid) unlinked (fun place a => ?_)
  have elsewhere : ∀ place, place ≠ .remover tid → Holding s place a → a ≠ node := by
    rintro place diff holding rfl
    exact diff (balanced.unique holding unlinked)
  cases place with
  | bucket =>
    have same : (s.memory.free f.cur).linkOf = s.memory.linkOf := rfl
    have lists : Holding (s.install tid (s.memory.free f.cur) (.returned out))
        .bucket a ↔ Holding s .bucket a :=
      exists_congr fun _ => reach_congr same
    exact lists.trans ⟨fun held => ⟨held, elsewhere .bucket (by simp) held⟩, And.left⟩
  | keeper other =>
    refine (owns_install_iff inv running continues).trans ⟨fun owns => ⟨owns, ?_⟩, And.left⟩
    exact elsewhere (.keeper other) (by simp) owns
  | remover other =>
    refine unlinked_returned_iff.trans (and_congr_right fun pre => ?_)
    refine ⟨fun diff => elsewhere (.remover other) (by simpa using diff) pre, ?_⟩
    rintro diff rfl
    obtain ⟨f', running', -, isAddr⟩ := pre
    cases running.symm.trans running'
    cases isCur.symm.trans isAddr
    exact diff rfl

end

section

variable {t : Table} {s : State} {tid other : Tid} {m : Memory} {cached : Tid → Option Addr}
  {a : Addr} {spent : List Addr} (ready : (s.threads tid).ready = true)
include ready

theorem owns_ready : Owns s tid a ↔ s.cached tid = some a := by
  refine ⟨?_, .inl⟩
  rintro (inCache | ⟨f, running, -, -⟩)
  · exact inCache
  · simp [running, Thread.ready] at ready

theorem not_unlinked_ready : ¬ Unlinked s tid a := by
  rintro ⟨f, running, -, -⟩
  simp [running, Thread.ready] at ready

theorem unlinked_update_iff (notSaving : ∀ f, thread = .running f → f.pc ≠ .saveOldVal) :
    Unlinked ⟨m, update s.threads tid thread, cached⟩ other a ↔ Unlinked s other a := by
  by_cases same : other = tid
  · subst same
    refine iff_of_false ?_ (not_unlinked_ready ready)
    rintro ⟨f, running, atSave, -⟩
    simp only [update_self] at running
    exact notSaving f running atSave
  · simp only [Unlinked, update_of_ne same]

variable {action : HashAction} {key : Key}

theorem unlinked_begun_iff :
    Unlinked ⟨m, update s.threads tid (.running (start t action key node)), cached⟩
      other a ↔ Unlinked s other a := by
  refine unlinked_update_iff ready ?_
  simp [start]

omit ready

theorem owns_update_of_ne (others : ∀ other, other ≠ tid → cached other = s.cached other)
    (diff : other ≠ tid) :
    Owns ⟨m, update s.threads tid thread, cached⟩ other a ↔ Owns s other a := by
  simp only [Owns, update_of_ne diff, others other diff]

theorem owns_begun_iff (noCache : cached tid = none) : Owns ⟨m, update s.threads tid
      (.running (start t .enter key node)), cached⟩ tid a ↔ a = node := by
  simp only [Owns, update_self, noCache, Thread.running.injEq]
  constructor
  · rintro (impossible | ⟨_, rfl, -, isNew⟩)
    · cases impossible
    · exact isNew.symm
  · rintro rfl
    exact .inr ⟨_, rfl, rfl, rfl⟩

variable (ledger : Ledger s spent)
include ledger

theorem Ledger.store (same : SameLists t s.memory (s.store a value).memory) :
    Ledger (s.store a value) spent := by
  obtain ⟨isFreed, balanced⟩ := ledger
  refine ⟨isFreed, balanced.congr (fun place node => ?_)⟩
  cases place with
  | bucket => exact exists_congr fun _ => reach_congr same.linkOf
  | keeper other => exact Iff.rfl
  | remover other => exact Iff.rfl

include ready

theorem Ledger.beginPlain (notEnter : action ≠ .enter) : Ledger ⟨s.memory, update s.threads tid
      (.running (start t action key node)), s.cached⟩ spent := by
  obtain ⟨isFreed, balanced⟩ := ledger
  refine ⟨isFreed, balanced.congr (fun place a => ?_)⟩
  cases place with
  | bucket => exact Iff.rfl
  | keeper other =>
    by_cases same : other = tid
    · subst same
      refine Iff.trans ?_ (owns_ready ready).symm
      simp only [Holding, Owns, update_self, Thread.running.injEq]
      refine ⟨?_, .inl⟩
      rintro (inCache | ⟨_, rfl, enter, -⟩)
      · exact inCache
      · exact absurd enter notEnter
    · exact owns_update_of_ne (fun _ _ => rfl) same
  | remover other => exact unlinked_begun_iff ready

theorem Ledger.beginCached (inv : StateInv t s) (isCached : s.cached tid = some node)
    (agrees : AgreesOff s.memory m node) (sameFreed : m.freed = s.memory.freed)
    (sameFresh : m.fresh = s.memory.fresh) :
    Ledger ⟨m, update s.threads tid (.running (start t .enter key node)),
      update s.cached tid none⟩ spent := by
  obtain ⟨isFreed, balanced⟩ := ledger
  have hidden := inv.ownHidden (.inl isCached)
  refine ⟨sameFreed.trans isFreed, ?_⟩
  rw [sameFresh]
  refine balanced.congr (fun place a => ?_)
  cases place with
  | bucket => exact exists_congr fun _ => agrees.reach_iff inv.wf hidden
  | keeper other =>
    by_cases same : other = tid
    · subst same
      refine (owns_begun_iff (by simp)).trans (Iff.trans ?_ (owns_ready ready).symm)
      rw [isCached, some_inj, eq_comm]
    · exact owns_update_of_ne (fun _ diff => update_of_ne diff _ _) same
  | remover other => exact unlinked_begun_iff ready

theorem Ledger.beginFresh (inv : StateInv t s) (noCache : s.cached tid = none)
    (agrees : AgreesOff s.memory m s.memory.fresh) (sameFreed : m.freed = s.memory.freed)
    (grown : m.fresh = s.memory.fresh + 1) :
    Ledger ⟨m, update s.threads tid
      (.running (start t .enter key s.memory.fresh)), s.cached⟩ spent := by
  obtain ⟨isFreed, balanced⟩ := ledger
  refine ⟨sameFreed.trans isFreed, ?_⟩
  rw [grown]
  refine balanced.allocate (.keeper tid) (fun place a => ?_)
  cases place with
  | bucket =>
    simp only [reduceCtorEq, false_and, or_false]
    exact exists_congr fun _ => agrees.reach_iff inv.wf inv.hidden_fresh
  | keeper other =>
    by_cases same : other = tid
    · subst same
      have pre : ¬ Holding s (.keeper other) a := by
        rw [Holding, owns_ready ready, noCache]
        simp
      simp only [pre, false_or, true_and]
      exact owns_begun_iff noCache
    · simp only [Place.keeper.injEq, same, false_and, or_false]
      exact owns_update_of_ne (fun _ _ => rfl) same
  | remover other =>
    simp only [reduceCtorEq, false_and, or_false]
    exact unlinked_begun_iff ready

theorem Ledger.destroy : ∃ spent', Ledger (s.destroy tid) spent' := by
  obtain ⟨isFreed, balanced⟩ := ledger
  have others : ∀ other, other ≠ tid → update s.cached tid none other = s.cached other :=
    fun _ diff => update_of_ne diff _ _
  have gone : ∀ {m a}, ¬ Owns ⟨m, update s.threads tid .detached,
      update s.cached tid none⟩ tid a := by
    rintro m a (inCache | ⟨_, running, -, -⟩)
    · simp at inCache
    · simp at running
  unfold State.destroy
  cases isCached : s.cached tid with
  | none =>
    refine ⟨spent, isFreed, balanced.congr (fun place a => ?_)⟩
    cases place with
    | bucket => exact Iff.rfl
    | keeper other =>
      by_cases same : other = tid
      · subst same
        refine iff_of_false gone ?_
        rw [Holding, owns_ready ready, isCached]
        simp
      · exact owns_update_of_ne others same
    | remover other => exact unlinked_update_iff ready (by simp)
  | some node =>
    have owns : Holding s (.keeper tid) node := .inl isCached
    refine ⟨node :: spent, by simp [free, isFreed], ?_⟩
    refine balanced.spend (.keeper tid) owns (fun place a => ?_)
    have elsewhere : ∀ place, place ≠ .keeper tid → Holding s place a → a ≠ node := by
      rintro place diff holding rfl
      exact diff (balanced.unique holding owns)
    cases place with
    | bucket =>
      have same : (s.memory.free (.ofNode node)).linkOf = s.memory.linkOf := rfl
      exact ⟨fun held => ⟨held, elsewhere .bucket (by simp) held⟩, And.left⟩
    | keeper other =>
      by_cases same : other = tid
      · subst same
        refine iff_of_false gone ?_
        rintro ⟨held, diff⟩
        rw [Holding, owns_ready ready, isCached] at held
        exact diff (some.inj held).symm
      · refine (owns_update_of_ne others same).trans ⟨fun held => ⟨held, ?_⟩, And.left⟩
        exact elsewhere (.keeper other) (by simpa using same) held
    | remover other =>
      refine (unlinked_update_iff ready (by simp)).trans ⟨fun held => ⟨held, ?_⟩, And.left⟩
      exact elsewhere (.remover other) (by simp) held

end

namespace Ledger

variable {t : Table} {s : State} {tid : Tid} {f : Frame} {spent : List Addr}
  (ledger : Ledger s spent) (inv : StateInv t s) (running : s.threads tid = .running f)
include ledger inv

include running in
theorem install (notSaving : f.pc ≠ .saveOldVal) (dropsNothing : DropsNothing s.memory f)
    {m : Memory} (access : Access t s.memory f m effect) :
    Ledger (s.install tid m effect) spent := by
  cases access with
  | quiet ok => exact ledger.quiet inv running ok notSaving Iff.rfl rfl rfl
  | prepared enter search ok =>
    have agrees : AgreesOff s.memory (s.memory.write (.node f.newNode) f.cur)
        f.newNode := .write search.curUnmarked
    have hidden := inv.ownHidden (StateInv.ownsNew running enter)
    exact ledger.quiet inv running ok notSaving (agrees.reach_iff inv.wf hidden)
      freed_write fresh_write
  | inserted atSwap enter search swapped =>
    exact ledger.inserted inv running enter search notSaving swapped (dropsNothing atSwap swapped)
  | marked atMark removing isCur unmarked ok =>
    exact ledger.quiet inv running ok notSaving (reach_congr linkOf_mark) freed_write fresh_write
  | unlinked removing unlinking swapped =>
    exact ledger.unlinked inv running removing unlinking notSaving swapped
  | freed atSave remove isCur => exact absurd atSave notSaving

omit ledger inv in
theorem stepFrame_saveOldVal {m : Memory} (ok : FrameOk t m f) (atSave : f.pc = .saveOldVal) :
    f.action = .remove ∧ ∃ a, f.cur = .ofNode a ∧ stepFrame t m f =
        (m.free f.cur, .returned (.removed (m.elems a).value)) := by
  unfold FrameOk at ok
  rw [atSave] at ok
  obtain ⟨remove, a, isCur⟩ := ok
  exact ⟨remove, a, isCur, by simp only [stepFrame, atSave, rawptr_cur isCur]⟩

include running in
theorem step (reclaimable : Reclaimable s.memory f) :
    ∃ spent', Ledger (s.install tid (stepFrame t s.memory f).1
      (stepFrame t s.memory f).2) spent' := by
  by_cases atSave : f.pc = .saveOldVal
  · obtain ⟨remove, a, isCur, res⟩ := stepFrame_saveOldVal (inv.frames running) atSave
    rw [res]
    exact ⟨a :: spent, ledger.freed inv running remove atSave isCur⟩
  · exact ⟨spent, ledger.install inv running atSave reclaimable.2
      (inv.access running reclaimable.1)⟩

theorem invoke (ready : (s.threads tid).ready) {action : HashAction} {key : Key} :
    Ledger (s.invoke t tid action key) spent := by
  cases action with
  | find => exact ledger.beginPlain ready (by simp)
  | remove => exact ledger.beginPlain ready (by simp)
  | enter =>
    simp only [State.invoke]
    cases isCached : s.cached tid with
    | some a =>
      exact ledger.beginCached ready inv isCached
        (.setKey key (inv.ownHidden (.inl isCached))) rfl rfl
    | none => exact ledger.beginFresh ready inv isCached (.allocate _ _) rfl rfl

omit ledger

theorem preserved (balanced : ∃ spent, Ledger s spent) (guarded : Guarded Reclaimable s label)
    (hstep : next t s label = some s') : ∃ spent, Ledger s' spent := by
  obtain ⟨spent, ledger⟩ := balanced
  cases label with
  | invoke tid action key =>
    obtain ⟨ready, ⟨⟩⟩ := ite_none_right_eq_some.mp hstep
    exact ⟨spent, ledger.invoke inv ready⟩
  | step tid =>
    simp only [next] at hstep
    split at hstep
    next f running =>
      cases hstep
      simp only [Guarded, running] at guarded
      exact ledger.step inv running guarded
    · cases hstep
  | store a value =>
    obtain ⟨keeps, ⟨⟩⟩ := ite_none_left_eq_some.mp hstep
    exact ⟨spent, ledger.store (sameLists_store keeps)⟩
  | destroy tid =>
    obtain ⟨ready, ⟨⟩⟩ := ite_none_right_eq_some.mp hstep
    exact ledger.destroy ready

omit inv in
theorem ofInitial (t : Table) : Ledger initial [] := by
  refine ⟨rfl, Balanced.empty (fun place a => ?_)⟩
  have inv := initial_inv t
  cases place with
  | bucket =>
    rintro ⟨bucket, reach⟩
    exact Nat.not_lt_zero _ (inv.allocated (.inl reach))
  | keeper tid => exact fun owns => Nat.not_lt_zero _ (inv.ownAllocated owns)
  | remover tid =>
    rintro ⟨f, running, -, -⟩
    cases running

end Ledger

variable {t : Table}

theorem run_ledger (meets : Run.Meets (next t) (Guarded Reclaimable) initial schedule)
    (reached : Run.run (next t) initial schedule = some final) :
    StateInv t final ∧ ∃ spent, Ledger final spent := by
  refine Run.invariant (fun s => StateInv t s ∧ ∃ spent, Ledger s spent)
    ?_ ⟨initial_inv t, [], .ofInitial t⟩ meets reached
  intro s s' label ⟨inv, balanced⟩ guarded hstep
  exact ⟨inv.preserved (guarded.mono fun _ _ covered => covered.1) hstep,
    Ledger.preserved inv balanced guarded hstep⟩

theorem unlinked_frees (inv : StateInv t s) (unlinked : Unlinked s tid a) :
    ∃ after, next t s (.step tid) = some after ∧
      after.memory.freed = .ofNode a :: s.memory.freed := by
  obtain ⟨f, running, atSave, isCur⟩ := unlinked
  obtain ⟨-, a', -, res⟩ := Ledger.stepFrame_saveOldVal (inv.frames running) atSave
  refine ⟨s.install tid (stepFrame t s.memory f).1
    (stepFrame t s.memory f).2, by simp only [next, running], ?_⟩
  simp only [install, res, free, isCur]

/-- In every covered run each pointer given to the slab is a node's own address and is
given once, a node in a bucket is not given, and a node out of all buckets is kept by
one backend, is about to be freed by one removal, or has been freed. -/
theorem nodes_freed_once (t : Table) (schedule : List Label) (final : State)
    (meets : Run.Meets (next t) (Guarded Reclaimable) initial schedule)
    (reached : Run.run (next t) initial schedule = some final) :
    (∀ ptr ∈ final.memory.freed, ∃ a < final.memory.fresh, ptr = .ofNode a) ∧
    final.memory.freed.Nodup ∧
    (∀ bucket a, final.memory.Reach bucket a → .ofNode a ∉ final.memory.freed) ∧
    (∀ a < final.memory.fresh, (∀ bucket, ¬ final.memory.Reach bucket a) →
      (∃! tid, Owns final tid a) ∧ .ofNode a ∉ final.memory.freed ∨
      (∃! tid, Unlinked final tid a) ∧ .ofNode a ∉ final.memory.freed ∧
        (∀ tid, Unlinked final tid a → ∃ after, next t final (.step tid) = some after ∧
          after.memory.freed = .ofNode a :: final.memory.freed) ∨
      .ofNode a ∈ final.memory.freed) := by
  obtain ⟨inv, spent, isFreed, balanced⟩ := run_ledger meets reached
  have given : ∀ {a}, Ptr.ofNode a ∈ final.memory.freed ↔ a ∈ spent := by
    rw [isFreed]
    simp [Ptr.ofNode]
  have notGiven : ∀ {place a}, Holding final place a → .ofNode a ∉ final.memory.freed :=
    fun holding mem => balanced.live holding (given.mp mem)
  refine ⟨?_, ?_, ?_, ?_⟩
  · intro ptr mem
    rw [isFreed] at mem
    obtain ⟨a, inSpent, rfl⟩ := mem_map.mp mem
    exact ⟨a, (balanced.accounted a).mpr (Or.inr inSpent), rfl⟩
  · rw [isFreed]
    refine balanced.once.map ?_
    intro first second same
    simpa [Ptr.ofNode] using same
  · intro bucket a reach
    have holding : Holding final .bucket a := ⟨bucket, reach⟩
    exact notGiven holding
  · intro a below outside
    rcases (balanced.accounted a).mp below with ⟨place, holding⟩ | inSpent
    · cases place with
      | bucket =>
        obtain ⟨bucket, reach⟩ := holding
        exact absurd reach (outside bucket)
      | keeper tid =>
        exact Or.inl ⟨⟨tid, holding, fun _ other => inv.ownUnique other holding⟩, notGiven holding⟩
      | remover tid =>
        refine Or.inr (Or.inl ⟨⟨tid, holding, fun other unlinked => ?_⟩, notGiven holding,
          fun _ unlinked => unlinked_frees inv unlinked⟩)
        have same : Place.remover other = Place.remover tid := balanced.unique unlinked holding
        exact Place.remover.inj same
    · exact Or.inr (Or.inr (given.mpr inSpent))

/-- Two backends enter one key, one of them removes it, and the other one leaves. -/
def lostRace : List Label :=
  .invoke 0 .enter 5 :: solo 0 2 ++ .invoke 1 .enter 5 :: solo 1 2 ++
    .invoke 0 .remove 5 :: solo 0 6 ++ [.destroy 1]

theorem lostRace_freed_once : ∃ final, Run.run (next plainTable) initial lostRace = some final ∧
      final.memory.freed = [.ofNode 1, .ofNode 0] ∧ final.memory.freed.Nodup := by
  have freed : (Run.run (next plainTable) initial lostRace).map (·.memory.freed) =
      some [.ofNode 1, .ofNode 0] := by decide
  obtain ⟨final, reached, isFreed⟩ := map_eq_some_iff.mp freed
  exact ⟨final, reached, isFreed,
    (nodes_freed_once plainTable lostRace final (by decide) reached).2.1⟩

/-- While a removal of key 5 is between its mark and its swap, key 7 is entered behind
the same left link. -/
def droppedRun : List Label :=
  .invoke 0 .enter 5 :: solo 0 2 ++ .invoke 1 .remove 5 :: solo 1 4 ++
    .invoke 2 .enter 7 :: solo 2 3 ++ solo 1 3

/-- The insertion drops the marked node without freeing it, and the removal returns
without freeing it. -/
theorem droppedRun_leaks : ∃ final, Run.run (next plainTable) initial droppedRun = some final ∧
      final.threads 0 = .returned (.entry 0) ∧ final.threads 1 = .returned (.removed 0) ∧
      final.threads 2 = .returned (.entry 1) ∧
      0 < final.memory.fresh ∧ ¬ final.memory.Reach 0 0 ∧ final.cached 0 = none ∧
      final.cached 1 = none ∧ final.cached 2 = none ∧ final.memory.freed = [] := by
  have observed : (Run.run (next plainTable) initial droppedRun).map (fun final =>
      (final.threads 0, final.threads 1, final.threads 2, final.memory.fresh,
        final.memory.linkOf (.head 0), final.memory.linkOf (.node 1),
        [final.cached 0, final.cached 1, final.cached 2], final.memory.freed)) =
      some (.returned (.entry 0), .returned (.removed 0), .returned (.entry 1), 2, some 1, none,
        [none, none, none], []) := rfl
  obtain ⟨final, reached, values⟩ := map_eq_some_iff.mp observed
  simp only [Prod.mk.injEq, List.cons.injEq] at values
  obtain ⟨first, second, third, isFresh, atHead, atNode, ⟨cached0, cached1, cached2, -⟩, freed⟩ :=
    values
  have listed : final.memory.Listed 0 [1] := ⟨atHead, atNode⟩
  refine ⟨final, reached, first, second, third, by rw [isFresh]; decide, ?_, cached0, cached1,
    cached2, freed⟩
  rw [listed.reach_iff]
  simp

end PgAqp.Hash
