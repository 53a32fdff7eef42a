import PgAqp.Hash.HtabInvariant

/-!
# The table under every schedule

The invariant of the whole system: memory is well formed, every running call
stands at a program point whose assertion holds, and a node that a backend
keeps back, in its cache or for its running insertion, is hidden from all
others.  Every step of the system preserves it.
-/

namespace PgAqp.Hash

open Library Function Option Memory Frame

/-- A backend keeps a node back: it is cached or set up for the running insertion. -/
def Owns (s : State) (tid : Tid) (a : Addr) : Prop :=
  s.cached tid = some a ∨
    ∃ f, s.threads tid = .running f ∧ f.action = .enter ∧ f.newNode = a

structure StateInv (t : Table) (s : State) : Prop where
  wf : MemWf t s.memory
  allocated : ∀ {bucket a}, Known t s.memory bucket a → a < s.memory.fresh
  frames : ∀ {tid f}, s.threads tid = .running f → FrameOk t s.memory f
  alive : ∀ tid, s.threads tid ≠ .crashed
  ownKey : ∀ {tid f}, s.threads tid = .running f → f.action = .enter →
    s.memory.keyOf f.newNode = f.key
  ownHidden : ∀ {tid a}, Owns s tid a → Hidden s.memory a
  ownAllocated : ∀ {tid a}, Owns s tid a → a < s.memory.fresh
  ownUnique : ∀ {tid other a}, Owns s tid a → Owns s other a → tid = other
  ownOnce : ∀ {tid f}, s.threads tid = .running f → f.action = .enter →
    s.cached tid = none

theorem initial_memWf (t : Table) : MemWf t initial.memory where
  listed bucket := ⟨[], rfl, by simp, by simp⟩
  headUnmarked _ := rfl
  markedNext marked := by cases marked

theorem initial_inv (t : Table) : StateInv t initial where
  wf := initial_memWf t
  allocated known := by
    rcases known with ⟨nodes, listed, mem⟩ | ⟨marked, -⟩
    · cases nodes with
      | nil => cases mem
      | cons first rest => cases listed.1
    · cases marked
  frames running := by cases running
  alive _ crashed := by cases crashed
  ownKey running := by cases running
  ownHidden owns := by
    rcases owns with cached | ⟨f, running, -, -⟩
    · cases cached
    · cases running
  ownAllocated owns := by
    rcases owns with cached | ⟨f, running, -, -⟩
    · cases cached
    · cases running
  ownUnique owns := by
    rcases owns with cached | ⟨f, running, -, -⟩
    · cases cached
    · cases running
  ownOnce running := by cases running

section

variable {s : State} {tid : Tid} {m : Memory} {effect : Effect}

theorem threads_install_self : (s.install tid m effect).threads tid = effect.thread := by
  simp [State.install]

theorem threads_install_of_ne (diff : other ≠ tid) :
    (s.install tid m effect).threads other = s.threads other := by
  simp [State.install, diff]

theorem cached_install_of_ne (diff : other ≠ tid) :
    (s.install tid m effect).cached other = s.cached other := by
  unfold State.install
  cases effect.cache with
  | none => rfl
  | some a => simp [diff]

theorem cached_install_none (noCache : effect.cache = none) :
    (s.install tid m effect).cached = s.cached := by
  simp [State.install, noCache]

theorem cached_install_some (cached : effect.cache = some a) :
    (s.install tid m effect).cached tid = some a := by
  simp [State.install, cached]

theorem owns_install_of_ne (diff : other ≠ tid) :
    Owns (s.install tid m effect) other a ↔ Owns s other a := by
  unfold Owns
  rw [threads_install_of_ne diff, cached_install_of_ne diff]

theorem owns_install_self (running : s.threads tid = .running f) (ok : Continues t m f effect)
    (owns : Owns (s.install tid m effect) tid a) : Owns s tid a := by
  rcases owns with cached | ⟨f', running', enter, isNew⟩
  · cases hcache : effect.cache with
    | none =>
      rw [cached_install_none hcache] at cached
      exact .inl cached
    | some node =>
      rw [cached_install_some hcache] at cached
      cases cached
      unfold Continues at ok
      split at ok
      · rw [ok.2.2] at hcache
        cases hcache
      · rw [ok] at hcache
        split at hcache
        · next enter => exact .inr ⟨f, running, enter, some.inj hcache⟩
        · cases hcache
      · exact ok.elim
  · rw [threads_install_self] at running'
    unfold Continues at ok
    rw [running'] at ok
    obtain ⟨sameAction, -, sameNew⟩ := call_eq ok.2.1
    exact .inr ⟨f, running, sameAction.symm.trans enter, sameNew.symm.trans isNew⟩

end

/-- The set-up of an insertion writes the key of the node that the backend owns. -/
theorem AgreesOff.setKey (key : Key) (hidden : Hidden m a) : AgreesOff m
      { m with
        elems := update m.elems a { m.elems a with key := key } }
      a where
  buckets := rfl
  elems other diff := by simp [diff]
  plain := by
    have unmarked := hidden.unmarked
    simpa [Memory.Marked, Memory.read] using unmarked

theorem AgreesOff.allocate (m : Memory) (key : Key) : AgreesOff m
      { m with
        elems := update m.elems m.fresh ⟨key, 0, Ptr.null⟩
        fresh := m.fresh + 1 }
      m.fresh where
  buckets := rfl
  elems other diff := by simp [diff]
  plain := by simp [Memory.read, Ptr.null]

theorem sameLists_store {s : State}
    (keeps : ¬ (t.isSentinel (s.memory.elems a).value ∧ t.isSentinel value = false)) :
    SameLists t s.memory (s.store a value).memory := by
  constructor
  · intro link
    cases link with
    | head bucket => rfl
    | node node =>
      by_cases isAddr : node = a
      · subst isAddr
        simp [State.store, Memory.read]
      · simp [State.store, Memory.read, isAddr]
  · intro node
    by_cases isAddr : node = a
    · subst isAddr
      simp [State.store, keyOf]
    · simp [State.store, keyOf, isAddr]
  · intro node isSentinel
    by_cases isAddr : node = a
    · subst isAddr
      simpa [State.store, isSentinel] using keeps
    · simpa [State.store, isAddr] using isSentinel

theorem sameLists_destroy (t : Table) (s : State) (tid : Tid) :
    SameLists t s.memory (s.destroy tid).memory := by
  unfold State.destroy
  cases s.cached tid with
  | none => exact ⟨fun _ => rfl, fun _ => rfl, fun _ => id⟩
  | some a => exact .free

namespace StateInv

variable {t : Table} {s : State} {tid : Tid} {f : Frame}

theorem ownsNew (running : s.threads tid = .running f) (enter : f.action = .enter) :
    Owns s tid f.newNode :=
  .inr ⟨f, running, enter, rfl⟩

theorem access (inv : StateInv t s) (running : s.threads tid = .running f)
    (survives : Survives s.memory f) :
    Access t s.memory f (stepFrame t s.memory f).1 (stepFrame t s.memory f).2 :=
  stepFrame_access inv.wf (inv.frames running)
    (fun enter => inv.ownHidden (ownsNew running enter)) survives

theorem change (inv : StateInv t s) (running : s.threads tid = .running f)
    (access : Access t s.memory f m effect) :
    Change t s.memory m f effect :=
  access.change inv.wf (fun enter => inv.ownHidden (ownsNew running enter)) (inv.ownKey running)

theorem owns_install (inv : StateInv t s) (running : s.threads tid = .running f)
    (access : Access t s.memory f m effect) (owns : Owns (s.install tid m effect) other a) :
    Owns s other a ∧ Hidden m a := by
  have change := inv.change running access
  by_cases same : other = tid
  · subst same
    rcases access.leaves with ok | ⟨enter, rfl⟩
    · have pre := owns_install_self running ok owns
      refine ⟨pre, change.hidden (inv.ownHidden pre) (fun _ enter => ?_)⟩
      exact ok.ne_inserted enter
    · rcases owns with cached | ⟨f', running', -, -⟩
      · rw [cached_install_none rfl, inv.ownOnce running enter] at cached
        cases cached
      · rw [threads_install_self] at running'
        cases running'
  · have pre := (owns_install_of_ne same).mp owns
    refine ⟨pre, change.hidden (inv.ownHidden pre) (fun isNew enter => ?_)⟩
    exact absurd (inv.ownUnique pre (isNew ▸ ownsNew running enter)) same

theorem owns_kept (inv : StateInv t s) (running : s.threads tid = .running f)
    (continues : Continues t m f effect) (owns : Owns s tid a) :
    Owns (s.install tid m effect) tid a := by
  unfold Continues at continues
  split at continues
  next f' isRunning =>
    obtain ⟨-, sameCall, noCache⟩ := continues
    obtain ⟨sameAction, -, sameNew⟩ := call_eq sameCall
    rcases owns with cached | ⟨_, running', enter, isNew⟩
    · exact .inl (by rwa [cached_install_none noCache])
    · cases running.symm.trans running'
      exact .inr ⟨f', threads_install_self.trans isRunning, sameAction.trans enter,
        sameNew.trans isNew⟩
  · split at continues
    next enter =>
      rcases owns with cached | ⟨_, running', -, isNew⟩
      · rw [inv.ownOnce running enter] at cached
        cases cached
      · cases running.symm.trans running'
        exact .inl (isNew ▸ cached_install_some continues)
    next notEnter =>
      rcases owns with cached | ⟨_, running', enter, -⟩
      · exact .inl (by rwa [cached_install_none continues])
      · cases running.symm.trans running'
        exact absurd enter notEnter
  · exact continues.elim

theorem running_install (access : Access t s.memory f m effect)
    (running' : (s.install tid m effect).threads tid = .running f') :
    FrameOk t m f' ∧ f'.call = f.call ∧ effect.cache = none := by
  rw [threads_install_self] at running'
  rcases access.leaves with ok | ⟨-, rfl⟩
  · unfold Continues at ok
    rwa [running'] at ok
  · cases running'

variable (inv : StateInv t s)
include inv

theorem install (running : s.threads tid = .running f) (access : Access t s.memory f m effect) :
    StateInv t (s.install tid m effect) := by
  have change := inv.change running access
  constructor
  · exact change.wf
  · intro bucket a known
    change a < m.fresh
    rw [change.fresh]
    rcases known with reach | ⟨marked, inBucket⟩
    · rcases change.reach reach with old | ⟨isNew, enter, -⟩
      · exact inv.allocated (.inl old)
      · rw [isNew]
        exact inv.ownAllocated (ownsNew running enter)
    · rcases change.marked marked with old | ⟨⟨bucket', reach⟩, -⟩
      · exact inv.allocated (.inr ⟨old, rfl⟩)
      · exact inv.allocated (.inl reach)
  · intro other f' running'
    by_cases same : other = tid
    · subst same
      exact (running_install access running').1
    · rw [threads_install_of_ne same] at running'
      exact (inv.frames running').stable change.evolves inv.wf
  · intro other crashed
    by_cases same : other = tid
    · subst same
      rw [threads_install_self] at crashed
      rcases access.leaves with ok | ⟨-, rfl⟩
      · simp [Continues, crashed] at ok
      · cases crashed
    · rw [threads_install_of_ne same] at crashed
      exact inv.alive other crashed
  · intro other f' running' enter
    change m.keyOf f'.newNode = f'.key
    rw [change.key]
    by_cases same : other = tid
    · subst same
      obtain ⟨-, sameCall, -⟩ := running_install access running'
      obtain ⟨sameAction, sameKey, sameNew⟩ := call_eq sameCall
      rw [sameNew, sameKey]
      exact inv.ownKey running (sameAction.symm.trans enter)
    · rw [threads_install_of_ne same] at running'
      exact inv.ownKey running' enter
  · intro other a owns
    exact (inv.owns_install running access owns).2
  · intro other a owns
    change a < m.fresh
    rw [change.fresh]
    exact inv.ownAllocated (inv.owns_install running access owns).1
  · intro first second a firstOwns secondOwns
    exact inv.ownUnique (inv.owns_install running access firstOwns).1
      (inv.owns_install running access secondOwns).1
  · intro other f' running' enter
    by_cases same : other = tid
    · subst same
      obtain ⟨-, sameCall, noCache⟩ := running_install access running'
      rw [cached_install_none noCache]
      exact inv.ownOnce running ((call_eq sameCall).1.symm.trans enter)
    · rw [cached_install_of_ne same]
      rw [threads_install_of_ne same] at running'
      exact inv.ownOnce running' enter

theorem beginEnter (a : Addr) {key : Key} (agrees : AgreesOff s.memory m a)
    (hidden : Hidden s.memory a) (grows : s.memory.fresh ≤ m.fresh) (isAllocated : a < m.fresh)
    (isKey : m.keyOf a = key) (onlyOwner : ∀ other, Owns s other a → other = tid) :
    StateInv t
      { memory := m
        threads := update s.threads tid
          (.running (start t .enter key a))
        cached := update s.cached tid none } := by
  have evolves : Evolves t s.memory m := agrees.evolves inv.wf hidden
  have owned : ∀ {other node}, Owns ⟨m, update s.threads tid (.running (start t .enter key a)),
      update s.cached tid none⟩ other node →
      other = tid ∧ node = a ∨ other ≠ tid ∧ Owns s other node := by
    intro other node owns
    by_cases same : other = tid
    · subst same
      simp only [Owns, update_self, Thread.running.injEq] at owns
      rcases owns with cached | ⟨_, rfl, -, isNew⟩
      · cases cached
      · exact .inl ⟨rfl, isNew.symm⟩
    · simp only [Owns, update_of_ne same] at owns
      exact .inr ⟨same, owns⟩
  constructor
  · exact agrees.wf inv.wf hidden
  · intro bucket node known
    refine Nat.lt_of_lt_of_le ?_ grows
    rcases known with reach | ⟨marked, -⟩
    · exact inv.allocated (.inl ((agrees.reach_iff inv.wf hidden).mp reach))
    · exact inv.allocated (.inr ⟨(agrees.marked_iff hidden).mp marked, rfl⟩)
  · intro other f' running'
    by_cases same : other = tid
    · subst same
      simp only [update_self, Thread.running.injEq] at running'
      subst running'
      trivial
    · simp only [update_of_ne same] at running'
      exact (inv.frames running').stable evolves inv.wf
  · intro other crashed
    by_cases same : other = tid
    · subst same
      simp at crashed
    · simp only [update_of_ne same] at crashed
      exact inv.alive other crashed
  · intro other f' running' enter
    by_cases same : other = tid
    · subst same
      simp only [update_self, Thread.running.injEq] at running'
      subst running'
      exact isKey
    · simp only [update_of_ne same] at running'
      have diff : f'.newNode ≠ a := fun isAddr =>
        same (onlyOwner other (isAddr ▸ ownsNew running' enter))
      exact (congrArg Elem.key (agrees.elems _ diff)).trans (inv.ownKey running' enter)
  · intro other node owns
    refine (agrees.hidden_iff inv.wf hidden).mpr ?_
    rcases owned owns with ⟨-, rfl⟩ | ⟨-, pre⟩
    · exact hidden
    · exact inv.ownHidden pre
  · intro other node owns
    rcases owned owns with ⟨-, rfl⟩ | ⟨-, pre⟩
    · exact isAllocated
    · exact Nat.lt_of_lt_of_le (inv.ownAllocated pre) grows
  · intro first second node firstOwns secondOwns
    rcases owned firstOwns with ⟨rfl, rfl⟩ | ⟨firstNe, firstBefore⟩
    · rcases owned secondOwns with ⟨rfl, -⟩ | ⟨secondNe, secondBefore⟩
      · rfl
      · exact absurd (onlyOwner second secondBefore) secondNe
    · rcases owned secondOwns with ⟨rfl, rfl⟩ | ⟨secondNe, secondBefore⟩
      · exact absurd (onlyOwner first firstBefore) firstNe
      · exact inv.ownUnique firstBefore secondBefore
  · intro other f' running' enter
    by_cases same : other = tid
    · subst same
      simp
    · simp only [update_of_ne same] at running' ⊢
      exact inv.ownOnce running' enter

/-- A step that changes no list and gives no backend a node of its own. -/
theorem settle (tid : Tid) (thread : Thread) (same : SameLists t s.memory m)
    (sameFresh : m.fresh = s.memory.fresh)
    (keeps : ∀ {other a}, cached other = some a → s.cached other = some a)
    (thread_ok : ∀ f, thread = .running f → FrameOk t s.memory f ∧
        (f.action = .enter → s.threads tid = .running f)) (thread_alive : thread ≠ .crashed) :
    StateInv t ⟨m, update s.threads tid thread, cached⟩ := by
  have runs : ∀ {other f}, update s.threads tid thread other = .running f →
      FrameOk t s.memory f ∧ (f.action = .enter → s.threads other = .running f) := by
    intro other f running
    by_cases isTid : other = tid
    · subst isTid
      rw [update_self] at running
      exact thread_ok f running
    · rw [update_of_ne isTid] at running
      exact ⟨inv.frames running, fun _ => running⟩
  have owned : ∀ {other node}, Owns ⟨m, update s.threads tid thread, cached⟩
      other node → Owns s other node := by
    intro other node owns
    rcases owns with inCache | ⟨f, running, enter, isNew⟩
    · exact .inl (keeps inCache)
    · exact .inr ⟨f, (runs running).2 enter, enter, isNew⟩
  constructor
  · exact same.wf inv.wf
  · intro bucket a known
    rw [sameFresh]
    rcases known with reach | ⟨marked, -⟩
    · exact inv.allocated (.inl ((reach_congr same.linkOf).mp reach))
    · exact inv.allocated (.inr ⟨same.marked_iff.mp marked, rfl⟩)
  · intro other f running
    exact (runs running).1.stable same.evolves inv.wf
  · intro other crashed
    rcases Run.of_update crashed with ⟨now, rfl⟩ | ⟨crashed, isTid⟩
    · exact thread_alive now
    · exact inv.alive other crashed
  · intro other f running enter
    exact (same.key _).trans (inv.ownKey ((runs running).2 enter) enter)
  · intro other a owns
    exact same.hidden_iff.mpr (inv.ownHidden (owned owns))
  · intro other a owns
    rw [sameFresh]
    exact inv.ownAllocated (owned owns)
  · intro first second a firstOwns secondOwns
    exact inv.ownUnique (owned firstOwns) (owned secondOwns)
  · intro other f running enter
    have none := inv.ownOnce ((runs running).2 enter) enter
    cases hcached : cached other with
    | none => exact hcached
    | some a =>
      rw [keeps hcached] at none
      cases none

theorem hidden_fresh : Hidden s.memory s.memory.fresh where
  unlisted _ reach := Nat.lt_irrefl _ (inv.allocated (.inl reach))
  unmarked marked := Nat.lt_irrefl _ (inv.allocated (.inr ⟨marked, rfl⟩))

theorem invoke {action : HashAction} {key : Key} : StateInv t (s.invoke t tid action key) := by
  have plainCall : ∀ action, action ≠ .enter → StateInv t
      { s with
        threads := update s.threads tid
          (.running (start t action key s.memory.fresh)) } := by
    intro action notEnter
    refine inv.settle _ _ ⟨fun _ => rfl, fun _ => rfl, fun _ => id⟩ rfl id ?_ (by simp)
    rintro _ ⟨⟩
    exact ⟨trivial, fun enter => absurd enter notEnter⟩
  cases action with
  | find => exact plainCall .find (by simp)
  | remove => exact plainCall .remove (by simp)
  | enter =>
    simp only [State.invoke]
    cases hcached : s.cached tid with
    | some a =>
      have owns : Owns s tid a := .inl hcached
      have hidden := inv.ownHidden owns
      refine inv.beginEnter a (.setKey key hidden) hidden Nat.le.refl
        (inv.ownAllocated owns) ?_ (fun other otherOwns => inv.ownUnique otherOwns owns)
      simp [keyOf]
    | none =>
      have sameCache : s.cached = update s.cached tid none := by rw [← hcached, update_eq_self]
      rw [sameCache]
      refine inv.beginEnter s.memory.fresh (.allocate _ _) inv.hidden_fresh
        (Nat.le_succ _) (Nat.lt_succ_self _) ?_ ?_
      · simp [keyOf]
      · intro other owns
        exact absurd (inv.ownAllocated owns) (Nat.lt_irrefl _)

theorem store (keeps : ¬ (t.isSentinel (s.memory.elems a).value ∧ t.isSentinel value = false)) :
    StateInv t (s.store a value) := by
  have settled := inv.settle 0 (s.threads 0) (sameLists_store keeps) rfl id
    (fun f running => ⟨inv.frames running, fun _ => running⟩) (inv.alive 0)
  rwa [update_eq_self] at settled

theorem destroy : StateInv t (s.destroy tid) := by
  unfold State.destroy
  have keeps : ∀ {other a}, update s.cached tid none other = some a → s.cached other = some a := by
    intro other a cached
    by_cases isTid : other = tid
    · subst isTid
      simp at cached
    · rwa [update_of_ne isTid] at cached
  cases s.cached tid with
  | none =>
    exact inv.settle _ _ ⟨fun _ => rfl, fun _ => rfl, fun _ => id⟩ rfl keeps (by simp) (by simp)
  | some a => exact inv.settle _ _ .free rfl keeps (by simp) (by simp)

theorem preserved (guarded : Guarded Survives s label) (hstep : next t s label = some s') :
    StateInv t s' := by
  cases label with
  | invoke tid action key =>
    obtain ⟨-, ⟨⟩⟩ := ite_none_right_eq_some.mp hstep
    exact inv.invoke
  | step tid =>
    simp only [next] at hstep
    split at hstep
    next f running =>
      cases hstep
      simp only [Guarded, running] at guarded
      exact inv.install running (inv.access running guarded)
    · cases hstep
  | store a value =>
    obtain ⟨keeps, ⟨⟩⟩ := ite_none_left_eq_some.mp hstep
    exact inv.store keeps
  | destroy tid =>
    obtain ⟨-, ⟨⟩⟩ := ite_none_right_eq_some.mp hstep
    exact inv.destroy

end StateInv

end PgAqp.Hash
