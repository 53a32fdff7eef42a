import PgAqp.VersionStore.Replacement

/-!
# The invariant of the version store

Every backend owns the node it has cached and, while it replaces a chain, the
nodes of the new chain; all other allocated nodes are published.  The lock on the page
keeps insertions and a replacement apart.
-/

namespace PgAqp.VersionStore

open Hash (Addr Tid)
open Library Function List Option State Store Thread

/-- The nodes of the chain that a backend is about to install. -/
def Thread.owned : Thread → List Addr
  | .replacing f => f.newNodes
  | _ => []

def Thread.insertFrame : Thread → Option InsertFrame
  | .inserting f => some f
  | _ => none

def Published (s : State) (a : Addr) : Prop :=
  a < s.store.freshNode ∧ ∀ tid, s.cached tid ≠ some a ∧
    a ∉ (s.threads tid).owned

structure Inserting (s : State) (tid : Tid) (f : InsertFrame) : Prop where
  sharer : tid ∈ s.sharers
  known : InsertOk s.store (Published s) s.collector.oldestXmin f
  newNode : ∃ a, s.cached tid = some a ∧ s.store.xminOf a = f.xmin

/-- What holds in every state of the version store. -/
structure StateInv (s : State) : Prop where
  store : StoreOk s.store
  gc : GcOk s.store s.collector
  chain : ∀ a, s.store.InChain a → Published s a
  cached : ∀ {tid a}, s.cached tid = some a → a < s.store.freshNode ∧
    ∀ other, (s.cached other = some a → other = tid) ∧ a ∉ (s.threads other).owned
  inserting : ∀ {tid f}, s.threads tid = .inserting f → Inserting s tid f
  replacing : ∀ {tid f}, s.threads tid = .replacing f →
    s.writer = some tid ∧ ReplaceOk s.store f
  locked : ∀ {tid}, s.writer = some tid → s.sharers = []

def Label.actor : Label → Option Tid
  | .step tid => some tid
  | _ => none

/-- The ids that the step compares lie less than half the range apart. -/
def NearIds (s : State) (label : Label) : Prop :=
  (∀ tid ∈ label.actor, ∀ f ∈ (s.threads tid).insertFrame, InsertNear s.store f) ∧
    (label = .gc → GcNear s.store s.collector)
  deriving Decidable

/-- The pointer that a failed swap of the step would bring back is not marked. -/
def ReadableHead (s : State) (label : Label) : Prop :=
  ∀ tid ∈ label.actor, ∀ f ∈ (s.threads tid).insertFrame, HeadReadable s.store f
  deriving Decidable

def Careful (s : State) (label : Label) : Prop :=
  NearIds s label ∧ ReadableHead s label
  deriving Decidable

/-- A step that is not one of a backend or of the collector compares nothing. -/
theorem careful_of_quiet (notStep : label.actor = none) (notGc : label ≠ .gc) :
    Careful s label := by
  simp [Careful, NearIds, ReadableHead, notStep, notGc]

variable {s : State}

theorem Inserting.stable (inserting : Inserting s tid f)
    (evolves : Evolves s.store s'.store (Published s) (Published s') s'.collector.oldestXmin)
    (later : s.collector.oldestXmin ≤ s'.collector.oldestXmin)
    (recent : s'.collector.oldestXmin ≤ f.xmin) (sharer : tid ∈ s.sharers → tid ∈ s'.sharers)
    (sameCached : s'.cached tid = s.cached tid)
    (sameXmin : ∀ a, s.cached tid = some a → s'.store.xminOf a = s.store.xminOf a) :
    Inserting s' tid f where
  sharer := sharer inserting.sharer
  known := inserting.known.stable evolves later recent
  newNode := by
    obtain ⟨a, isCached, isXmin⟩ := inserting.newNode
    refine ⟨a, sameCached.trans isCached, ?_⟩
    rw [sameXmin a isCached]
    exact isXmin

namespace StateInv

variable {s : State}

theorem newNode (inv : StateInv s)
    (isIns : s.threads tid = .inserting f) (isCached : s.cached tid = some a) :
    NewNode s.store a f.xmin := by
  obtain ⟨other, isOther, isXmin⟩ := (inv.inserting isIns).newNode
  cases isOther.symm.trans isCached
  refine ⟨fun inChain => ?_, (inv.cached isCached).1, isXmin⟩
  exact ((inv.chain a inChain).2 tid).1 isCached

theorem notInserting (inv : StateInv s)
    (noSharers : s.sharers = []) : s.threads other ≠ .inserting f := by
  intro isIns
  have mem := (inv.inserting isIns).sharer
  rw [noSharers] at mem
  cases mem

theorem owned_other (inv : StateInv s) (notWriter : s.writer ≠ some other) :
    (s.threads other).owned = [] := by
  cases isThread : s.threads other with
  | replacing f => exact absurd (inv.replacing isThread).1 notWriter
  | _ => rfl

theorem published_update (thread : Thread) (owned : thread.owned = [])
    (sameStore : s.store.freshNode ≤ s'.store.freshNode)
    (sameThreads : s'.threads = update s.threads tid thread) (isPublished : Published s a)
    (notCached : ∀ other, s'.cached other ≠ some a) : Published s' a := by
  refine ⟨Nat.lt_of_lt_of_le isPublished.1 sameStore, fun other => ⟨notCached other, ?_⟩⟩
  rw [sameThreads]
  by_cases same : other = tid
  · subst same
    simp [owned]
  · rw [update_of_ne same]
    exact (isPublished.2 other).2

end StateInv

/-- The node that a call of `_abtvs_find_or_create_node` has at hand. -/
structure Prepared (s : State) (tid : Tid) (xmin : Xid) (res : Store × Addr) : Prop where
  agrees : Agrees s.store res.1
  kept : ∀ a < s.store.freshNode, s.cached tid ≠ some a →
    res.1.nodes a = s.store.nodes a
  allocated : res.2 < res.1.freshNode
  xminOf : res.1.xminOf res.2 = xmin
  own : s.cached tid = some res.2 ∨ res.2 = s.store.freshNode

theorem prepareNode_ok (inv : StateInv s) (tid : Tid) (xmin : Xid) :
    Prepared s tid xmin (s.prepareNode tid xmin) := by
  unfold prepareNode
  split
  next a isCached =>
    have hidden : ¬ s.store.InChain a := fun inChain => ((inv.chain a inChain).2 tid).1 isCached
    refine ⟨Agrees.setXmin inv.store hidden xmin, ?_, (inv.cached isCached).1, ?_, .inl isCached⟩
    · intro other _ notCached
      have diff : other ≠ a := fun same => notCached (same ▸ isCached)
      simp [setXmin, diff]
    · simp [setXmin, xminOf]
  · refine ⟨Agrees.alloc inv.store rfl, ?_, Nat.lt_succ_self _, ?_, .inr rfl⟩
    · intro other old _
      simp [alloc, Nat.ne_of_lt old]
    · simp [alloc, xminOf]

theorem Evolves.ofAgrees {st st' : Store} (ok : StoreOk st) (agrees : Agrees st st')
    (stays : ∀ {a}, published a → published' a)
    (xmin : ∀ {a}, published a → st'.xminOf a = st.xminOf a) :
    Evolves st st' published published' oldestXmin where
  stays := stays
  xmin := xmin
  kept inChain := .inl ((agrees.inChain_iff ok).mpr inChain)
  first _ first := by
    obtain ⟨nodes, listed, -⟩ := ok.listed
    exact (first_iff listed).mpr ((first_iff (agrees.listed listed)).mp first)
  freshEntry := Nat.le_of_eq agrees.freshEntry.symm

section

variable {s : State} {tid : Tid} {xmin : Xid} {versions : List (Xid × Nat)}

theorem beginInsert_published (inv : StateInv s) (isPublished : Published s a) :
    Published (s.beginInsert tid xmin) a ∧
      (s.prepareNode tid xmin).1.nodes a = s.store.nodes a := by
  obtain ⟨agrees, kept, -, -, own⟩ := prepareNode_ok inv tid xmin
  refine ⟨?_, kept a isPublished.1 (isPublished.2 tid).1⟩
  apply StateInv.published_update (.inserting _) rfl agrees.freshNode rfl isPublished
  intro other
  simp only [beginInsert]
  by_cases same : other = tid
  · subst same
    rw [update_self, ne_eq, some.injEq]
    rintro rfl
    rcases own with isCached | isFresh
    · exact (isPublished.2 other).1 isCached
    · exact absurd isPublished.1 (by rw [isFresh]; exact Nat.lt_irrefl _)
  · rw [update_of_ne same]
    exact (isPublished.2 other).1

theorem beginInsert_inv (inv : StateInv s) (unlocked : s.writer = none)
    (recent : s.collector.oldestXmin ≤ xmin) :
    StateInv (s.beginInsert tid xmin) := by
  obtain ⟨agrees, kept, allocated, xminOf, own⟩ := prepareNode_ok inv tid xmin
  have stays : ∀ {a}, Published s a → Published (s.beginInsert tid xmin) a :=
    fun isPublished => (beginInsert_published inv isPublished).1
  have offCached : ∀ {other a}, other ≠ tid → s.cached other = some a →
      a ≠ (s.prepareNode tid xmin).2 ∧ s.cached tid ≠ some a := by
    intro other a diff isCached
    obtain ⟨isOld, unique⟩ := inv.cached isCached
    have notMine : s.cached tid ≠ some a := fun mine => diff ((unique tid).1 mine).symm
    refine ⟨?_, notMine⟩
    rintro rfl
    rcases own with mine | isFresh
    · exact notMine mine
    · rw [isFresh] at isOld
      exact absurd isOld (Nat.lt_irrefl _)
  refine ⟨agrees.ok inv.store, inv.gc.stable (Others.ofAgrees agrees), ?_, ?_, ?_, ?_, ?_⟩
  · intro a inChain
    exact stays (inv.chain a ((agrees.inChain_iff inv.store).mp inChain))
  · have noChain : ∀ other, ((s.beginInsert tid xmin).threads other).owned = [] := by
      intro other
      by_cases same : other = tid
      · subst same
        simp [beginInsert, owned]
      · simp only [beginInsert, update_of_ne same]
        exact inv.owned_other (by simp [unlocked])
    intro mine a isMine
    rcases Run.of_update isMine with ⟨now, rfl⟩ | ⟨isCached, isTid⟩
    · simp only [some.injEq] at now
      subst now
      refine ⟨allocated, fun other => ⟨fun isOther => ?_, by simp [noChain]⟩⟩
      by_contra diff
      simp only [beginInsert, update_of_ne diff] at isOther
      exact (offCached diff isOther).1 rfl
    · refine ⟨Nat.lt_of_lt_of_le (inv.cached isCached).1 agrees.freshNode,
        fun other => ⟨fun isOther => ?_, by simp [noChain]⟩⟩
      rcases Run.of_update isOther with ⟨now, rfl⟩ | ⟨isOther, same⟩
      · simp only [some.injEq] at now
        exact absurd now.symm (offCached isTid isCached).1
      · exact ((inv.cached isCached).2 other).1 isOther
  · intro other f isIns
    rcases Run.of_update isIns with ⟨now, rfl⟩ | ⟨isIns, same⟩
    · cases now
      refine ⟨mem_cons_self, ⟨recent, trivial⟩, _, update_self .., xminOf⟩
    · apply Inserting.stable (inv.inserting isIns)
      · apply Evolves.ofAgrees inv.store agrees stays
        intro a isPublished
        exact congrArg Version.xmin (beginInsert_published inv isPublished).2
      · exact le_rfl
      · exact (inv.inserting isIns).known.1
      · exact mem_cons_of_mem _
      · exact update_of_ne same _ _
      · intro a isCached
        exact congrArg Version.xmin (kept a (inv.cached isCached).1 (offCached same isCached).2)
  · intro other f isReplacing
    by_cases same : other = tid
    · subst same
      simp [beginInsert] at isReplacing
    · simp only [beginInsert, update_of_ne same] at isReplacing
      cases unlocked.symm.trans (inv.replacing isReplacing).1
  · intro other isWriter
    cases unlocked.symm.trans isWriter

theorem beginReplace_owned (inv : StateInv s) (unlocked : s.writer = none)
    (mem : a ∈ ((s.beginReplace tid versions).threads other).owned) :
    s.store.freshNode ≤ a := by
  by_cases same : other = tid
  · subst same
    simp only [beginReplace, update_self, owned] at mem
    exact (mem_newAddrs mem).1
  · have none : (s.threads other).owned = [] := inv.owned_other (by simp [unlocked])
    simp only [beginReplace, update_of_ne same, none] at mem
    cases mem

theorem beginReplace_published (inv : StateInv s) (unlocked : s.writer = none)
    (isPublished : Published s a) : Published (s.beginReplace tid versions) a := by
  have allocated : Allocated s.store versions _ := allocChain_ok inv.store
  obtain ⟨isOld, unowned⟩ := isPublished
  refine ⟨Nat.lt_of_lt_of_le isOld allocated.agrees.freshNode,
    fun other => ⟨(unowned other).1, fun mem => ?_⟩⟩
  exact absurd isOld (Nat.not_lt_of_le (beginReplace_owned inv unlocked mem))

theorem beginReplace_inv (inv : StateInv s) (unlocked : s.writer = none)
    (noSharers : s.sharers = []) (ordered : descending versions) :
    StateInv (s.beginReplace tid versions) := by
  have allocated : Allocated s.store versions (s.store.allocChain versions) :=
    allocChain_ok inv.store
  have agrees := allocated.agrees
  have isPrivate := allocated.isPrivate inv.store ordered
  refine ⟨agrees.ok inv.store, inv.gc.stable (Others.ofAgrees agrees), ?_, ?_, ?_, ?_, ?_⟩
  · intro a inChain
    exact beginReplace_published inv unlocked
      (inv.chain a ((agrees.inChain_iff inv.store).mp inChain))
  · intro mine a isCached
    obtain ⟨isOld, unique⟩ := inv.cached isCached
    refine ⟨Nat.lt_of_lt_of_le isOld agrees.freshNode, fun other => ⟨(unique other).1, ?_⟩⟩
    intro mem
    exact absurd isOld (Nat.not_lt_of_le (beginReplace_owned inv unlocked mem))
  · intro other f isIns
    by_cases same : other = tid
    · subst same
      simp [beginReplace] at isIns
    · simp only [beginReplace, update_of_ne same] at isIns
      exact absurd isIns (inv.notInserting noSharers)
  · intro other f isReplacing
    rcases Run.of_update isReplacing with ⟨now, rfl⟩ | ⟨isReplacing, same⟩
    · cases now
      exact ⟨rfl, isPrivate⟩
    · cases unlocked.symm.trans (inv.replacing isReplacing).1
  · exact fun _ => noSharers

end

section

variable {s : State} {tid : Tid} {f : InsertFrame} {st : Store}

theorem installInsert_owned (st : Store) (isIns : s.threads tid = .inserting f)
    (noChain : effect.thread.owned = []) (other : Tid) :
    ((s.installInsert tid st effect).threads other).owned = (s.threads other).owned ∧
      ∀ a, (s.installInsert tid st effect).cached other = some a → s.cached other = some a := by
  by_cases same : other = tid
  · subst same
    refine ⟨by simp [installInsert, isIns, noChain, owned.eq_2], ?_⟩
    intro a isCached
    simp only [installInsert] at isCached
    split at isCached
    · simp at isCached
    · exact isCached
  · refine ⟨by simp [installInsert, same], ?_⟩
    intro a isCached
    simp only [installInsert] at isCached
    split at isCached
    · rwa [update_of_ne same] at isCached
    · exact isCached

theorem InsertStepOk.noChain (stepOk : InsertStepOk s.store published oldestXmin newNode f res) :
    res.2.thread.owned = [] := by
  cases isThread : res.2.thread with
  | replacing f' => exact absurd isThread (stepOk.stays.2 f')
  | _ => rfl

theorem installInsert_published (isIns : s.threads tid = .inserting f)
    (stepOk : InsertStepOk s.store (Published s) s.collector.oldestXmin newNode f (st, effect))
    (isPublished : Published s a) :
    Published (s.installInsert tid st effect) a := by
  have owns := installInsert_owned st isIns stepOk.noChain
  have fresh : (s.installInsert tid st effect).store.freshNode = s.store.freshNode :=
    stepOk.access.fresh.1
  obtain ⟨isOld, unowned⟩ := isPublished
  refine ⟨by rwa [fresh], fun other => ⟨fun isOther => ?_, ?_⟩⟩
  · exact (unowned other).1 ((owns other).2 a isOther)
  · rw [(owns other).1]
    exact (unowned other).2

variable (inv : StateInv s)
include inv

theorem installInsert_inv (isIns : s.threads tid = .inserting f)
    (isCached : s.cached tid = some newNode)
    (stepOk : InsertStepOk s.store (Published s) s.collector.oldestXmin newNode f (st, effect)) :
    StateInv (s.installInsert tid st effect) := by
  have new := inv.newNode isIns isCached
  have owns := installInsert_owned st isIns stepOk.noChain
  have stays : ∀ {a}, Published s a → Published (s.installInsert tid st effect) a :=
    installInsert_published isIns stepOk
  obtain ⟨access, goesOn, -, -, -, notReplacing⟩ := stepOk
  dsimp only at access goesOn notReplacing
  obtain ⟨sharer, known, -⟩ := inv.inserting isIns
  have fresh : (s.installInsert tid st effect).store.freshNode = s.store.freshNode := access.fresh.1
  have unpublished : ¬ Published s newNode := fun isPublished => (isPublished.2 tid).1 isCached
  have evolves : Evolves s.store st (Published s)
      (Published (s.installInsert tid st effect)) s.collector.oldestXmin :=
    access.evolves inv.store new unpublished stays
  refine ⟨access.ok inv.store new, inv.gc.stable (access.others inv.store new known.1), ?_, ?_, ?_,
    ?_, ?_⟩
  · intro a inChain
    obtain ⟨nodes, listed, -⟩ := inv.store.listed
    rcases access.listed inv.store new listed with ⟨-, same⟩ | ⟨isNew, front, back, rfl, linked⟩
    · exact stays (inv.chain a (listed.inChain_iff.mpr (same.inChain_iff.mp inChain)))
    · by_cases isAddr : a = newNode
      · subst isAddr
        obtain ⟨isOld, unique⟩ := inv.cached isCached
        refine ⟨by rwa [fresh], fun other => ⟨fun isOther => ?_, ?_⟩⟩
        · cases (unique other).1 ((owns other).2 a isOther)
          simp [installInsert, isNew] at isOther
        · rw [(owns other).1]
          exact (unique other).2
      · apply stays (inv.chain a (listed.inChain_iff.mpr _))
        have mem := linked.inChain_iff.mp inChain
        simp only [mem_append, mem_cons, isAddr, false_or] at mem
        exact mem_append.mpr mem
  · intro mine a isMine
    obtain ⟨isOld, unique⟩ := inv.cached ((owns mine).2 a isMine)
    refine ⟨by rwa [fresh], fun other => ⟨fun isOther => ?_, ?_⟩⟩
    · exact (unique other).1 ((owns other).2 a isOther)
    · rw [(owns other).1]
      exact (unique other).2
  · intro other f' isOther
    rcases Run.of_update isOther with ⟨now, rfl⟩ | ⟨isOther, same⟩
    · obtain ⟨sameXmin, known'⟩ := goesOn f' now
      have notNew : effect.insertedNew = false := by
        obtain ⟨nodes, listed, -⟩ := inv.store.listed
        rcases access.listed inv.store new listed with ⟨notNew, -⟩ | ⟨isNew, -⟩
        · exact notNew
        · rw [isNew] at now
          cases now
      refine ⟨?_, ?_, newNode, ?_, ?_⟩
      · simpa [installInsert, now, busy] using sharer
      · apply known'.stable _ le_rfl known'.1
        exact ⟨stays, fun _ => rfl, .inl, fun _ => id, le_rfl⟩
      · simpa [installInsert, notNew] using isCached
      · rw [sameXmin, ← new.xminOf]
        exact access.xminOf newNode
    · have inserting := inv.inserting isOther
      refine Inserting.stable inserting evolves le_rfl inserting.known.1 ?_ ?_ ?_
      · intro mem
        simp only [installInsert]
        split
        · exact mem
        · exact (mem_erase_of_ne same).mpr mem
      · simp only [installInsert]
        split
        · exact update_of_ne same _ _
        · rfl
      · exact fun a _ => access.xminOf a
  · intro other f' isReplacing
    have locked : s.threads other ≠ .replacing f' := by
      intro isOther
      have empty := inv.locked (inv.replacing isOther).1
      rw [empty] at sharer
      cases sharer
    rcases Run.of_update isReplacing with ⟨now, rfl⟩ | ⟨isReplacing, same⟩
    · exact absurd now (notReplacing f')
    · exact absurd isReplacing locked
  · intro other isWriter
    have empty := inv.locked isWriter
    rw [empty] at sharer
    cases sharer

variable {collector : Collector}

/-- The nodes that are still private after a step of a replacement. -/
theorem installReplace_owned {f : ReplaceFrame} (isReplacing : s.threads tid = .replacing f)
    (stepOk : ReplaceStepOk s.store f (st, thread))
    (mem : a ∈ ((s.installReplace tid st thread).threads other).owned) :
    a ∈ (s.threads other).owned ∧ a ∈ f.newNodes ∧ ¬ st.InChain a := by
  by_cases same : other = tid
  · subst same
    simp only [installReplace, update_self] at mem
    rcases stepOk.ends with isIdle | ⟨f', isFrame⟩
    · dsimp only at isIdle
      rw [isIdle] at mem
      cases mem
    · obtain ⟨known, fewer⟩ := stepOk.goesOn f' isFrame
      dsimp only at isFrame
      rw [isFrame] at mem
      rw [isReplacing]
      exact ⟨fewer a mem, fewer a mem, (known.owned mem).2⟩
  · have none : (s.threads other).owned = [] := by
      apply inv.owned_other
      rw [(inv.replacing isReplacing).1]
      exact fun isOther => same (some.inj isOther).symm
    simp only [installReplace, update_of_ne same, none] at mem
    cases mem

theorem installReplace_published {f : ReplaceFrame} (isReplacing : s.threads tid = .replacing f)
    (stepOk : ReplaceStepOk s.store f (st, thread)) (isPublished : Published s a) :
    Published (s.installReplace tid st thread) a := by
  obtain ⟨isOld, unowned⟩ := isPublished
  have fresh : st.freshNode = s.store.freshNode := stepOk.access.freshNode
  refine ⟨?_, fun other => ⟨(unowned other).1, fun mem => ?_⟩⟩
  · simp only [installReplace, fresh]
    exact isOld
  · exact (unowned other).2 (installReplace_owned inv isReplacing stepOk mem).1

theorem installReplace_inv {f : ReplaceFrame} (isReplacing : s.threads tid = .replacing f)
    (stepOk : ReplaceStepOk s.store f (st, thread)) :
    StateInv (s.installReplace tid st thread) := by
  obtain ⟨isWriter, replaceOk⟩ := inv.replacing isReplacing
  have owned : ∀ {other a}, a ∈ ((s.installReplace tid st thread).threads other).owned →
      a ∈ f.newNodes ∧ ¬ st.InChain a :=
    fun mem => (installReplace_owned inv isReplacing stepOk mem).2
  obtain ⟨access, goesOn, ends⟩ := stepOk
  have noSharers := inv.locked isWriter
  have fresh : (s.installReplace tid st thread).store.freshNode = s.store.freshNode :=
    access.freshNode
  have notCached : ∀ {other a}, a ∈ f.newNodes → s.cached other ≠ some a := by
    intro other a mem isCached
    apply ((inv.cached isCached).2 tid).2
    rwa [isReplacing]
  refine ⟨access.ok inv.store, inv.gc.stable (access.others inv.store), ?_, ?_, ?_, ?_, ?_⟩
  · intro a inChain
    refine ⟨?_, fun other => ⟨?_, fun mem => (owned mem).2 inChain⟩⟩
    · rw [fresh]
      rcases access.inChain inv.store inChain with inOld | installed
      · exact (inv.chain a inOld).1
      · exact (replaceOk.owned installed).1
    · rcases access.inChain inv.store inChain with inOld | installed
      · exact ((inv.chain a inOld).2 other).1
      · exact notCached installed
  · intro mine a isCached
    obtain ⟨isOld, unique⟩ := inv.cached isCached
    refine ⟨by rwa [fresh], fun other => ⟨(unique other).1, fun mem => ?_⟩⟩
    exact notCached (owned mem).1 isCached
  · intro other f' isIns
    rcases Run.of_update isIns with ⟨now, rfl⟩ | ⟨isIns, same⟩
    · rcases ends with isIdle | ⟨f'', isFrame⟩
      · cases isIdle.symm.trans now
      · cases isFrame.symm.trans now
    · exact absurd isIns (inv.notInserting noSharers)
  · intro other f' isOther
    rcases Run.of_update isOther with ⟨now, rfl⟩ | ⟨isOther, same⟩
    · refine ⟨?_, (goesOn f' now).1⟩
      simpa [installReplace, now, busy] using isWriter
    · obtain ⟨otherWriter, -⟩ := inv.replacing isOther
      exact absurd (some.inj (otherWriter.symm.trans isWriter)) same
  · exact fun _ => noSharers

theorem gc_inv (stepOk : GcStepOk s.store s.collector (st, collector)) :
    StateInv { s with store := st, collector := collector } := by
  obtain ⟨access, known, sameXmin⟩ := stepOk
  dsimp only at access known sameXmin
  have published : ∀ {a}, Published { s with store := st, collector := collector } a ↔
      Published s a := by
    intro a
    simp only [Published, access.fresh.1]
  refine ⟨access.ok inv.store, known, ?_, ?_, ?_, ?_, inv.locked⟩
  · intro a inChain
    exact published.mpr (inv.chain a (access.inChain inv.store inChain))
  · intro tid a isCached
    rw [access.fresh.1]
    exact inv.cached isCached
  · intro tid f isIns
    have inserting := inv.inserting isIns
    refine Inserting.stable inserting ?_ (Nat.le_of_eq sameXmin.symm) ?_ id rfl ?_
    · refine ⟨published.mpr, fun _ => access.xminOf _, ?_, ?_, Nat.le_of_eq access.fresh.2.symm⟩
      · rintro a ⟨nodes, listed, mem⟩
        obtain ⟨kept, dropped, rfl, listed', old⟩ := access.listed inv.store listed
        rcases mem_append.mp mem with isKept | isDropped
        · exact .inl ⟨kept, listed', isKept⟩
        · right
          rw [sameXmin]
          exact old a isDropped
      · intro a _ first
        obtain ⟨nodes, listed, -⟩ := inv.store.listed
        obtain ⟨kept, dropped, rfl, listed', -⟩ := access.listed inv.store listed
        have isFirst := (first_iff listed').mp first
        apply (first_iff listed).mpr
        rw [head?_append, isFirst]
        rfl
    · rw [sameXmin]
      exact inserting.known.1
    · exact fun a _ => access.xminOf a
  · intro tid f isReplacing
    obtain ⟨isWriter, replaceOk⟩ := inv.replacing isReplacing
    exact ⟨isWriter, replaceOk.stable access inv.store⟩

theorem collector_inv (known : GcOk s.store collector)
    (later : s.collector.oldestXmin ≤ collector.oldestXmin)
    (covers : ∀ {tid f}, s.threads tid = .inserting f → collector.oldestXmin ≤ f.xmin) :
    StateInv { s with collector := collector } := by
  refine ⟨inv.store, known, inv.chain, inv.cached, ?_, inv.replacing, inv.locked⟩
  intro tid f isIns
  refine Inserting.stable (inv.inserting isIns) ?_ later (covers isIns) id rfl ?_
  · exact ⟨id, fun _ => rfl, .inl, fun _ => id, le_rfl⟩
  · exact fun _ _ => rfl

end

section

variable {s s' : State} {tid : Tid} {label : Label}

inductive Move (s : State) : Label → State → Prop where
  | insert {tid : Tid} {xmin : Xid} (unlocked : s.writer = none)
      (recent : s.collector.oldestXmin ≤ xmin) :
      Move s (.insert tid xmin) (s.beginInsert tid xmin)
  | replace {tid : Tid} {versions : List (Xid × Nat)} (unlocked : s.writer = none)
      (noSharers : s.sharers = []) (ordered : descending versions = true) :
      Move s (.replace tid versions) (s.beginReplace tid versions)
  | insertStep {tid : Tid} {f : InsertFrame} {newNode : Addr}
      (isIns : s.threads tid = .inserting f)
      (isCached : s.cached tid = some newNode) :
      Move s (.step tid) (s.installInsert tid (insertStep s.store newNode f).1
        (insertStep s.store newNode f).2)
  | replaceStep {tid : Tid} {f : ReplaceFrame}
      (isReplacing : s.threads tid = .replacing f) :
      Move s (.step tid) (s.installReplace tid (replaceStep s.store f).1
        (replaceStep s.store f).2)
  | pass {oldestXmin : Xid} (isIdle : s.collector.pc = .idle)
      (later : s.collector.oldestXmin ≤ oldestXmin)
      (covers : s.coversRunning oldestXmin = true) :
      Move s (.pass oldestXmin)
        { s with collector := { s.collector with oldestXmin := oldestXmin } }
  | visit {e : EntryId} (live : s.store.entry = some e)
      (isIdle : s.collector.pc = .idle) :
      Move s .visit
        { s with collector := { s.collector with headPtr := e, pc := .readHead } }
  | tryDelete (isIdle : s.collector.pc = .idle) :
      Move s .tryDelete { s with collector := { s.collector with pc := .tryRead } }
  | gc (running : s.collector.pc ≠ .idle) :
      Move s .gc
        { s with
          store := (gcStep s.store s.collector).1
          collector := (gcStep s.store s.collector).2 }

theorem next_move (step : next s label = some s') : Move s label s' := by
  unfold next at step
  split at step
  · obtain ⟨enabled, ⟨⟩⟩ := ite_none_right_eq_some.mp step
    exact .insert enabled.2.1 enabled.2.2
  · obtain ⟨enabled, ⟨⟩⟩ := ite_none_right_eq_some.mp step
    exact .replace enabled.2.1 enabled.2.2.1 enabled.2.2.2
  · split at step
    next isIns =>
      split at step
      · cases step
      next isCached =>
        cases step
        exact .insertStep isIns isCached
    next isReplacing =>
      cases step
      exact .replaceStep isReplacing
    · cases step
  · obtain ⟨enabled, ⟨⟩⟩ := ite_none_right_eq_some.mp step
    exact .pass enabled.1 enabled.2.1 enabled.2.2
  · split at step
    · cases step
    next live =>
      obtain ⟨isIdle, ⟨⟩⟩ := ite_none_right_eq_some.mp step
      exact .visit live isIdle
  · obtain ⟨isIdle, ⟨⟩⟩ := ite_none_right_eq_some.mp step
    exact .tryDelete isIdle
  · obtain ⟨running, ⟨⟩⟩ := ite_none_left_eq_some.mp step
    exact .gc running

variable (inv : StateInv s)
include inv

/-- The insertion that takes a step has met its assertions. -/
theorem StateInv.insertStep {newNode : Addr} (isIns : s.threads tid = .inserting f)
    (isCached : s.cached tid = some newNode) (careful : Careful s (.step tid)) :
    InsertStepOk s.store (Published s) s.collector.oldestXmin newNode f
      (insertStep s.store newNode f) := by
  have isFrame : f ∈ (s.threads tid).insertFrame := by
    rw [isIns]
    rfl
  exact insertStep_ok inv.store (inv.inserting isIns).known inv.chain (inv.newNode isIns isCached)
    (careful.1.1 tid rfl f isFrame) (careful.2 tid rfl f isFrame)

theorem StateInv.idle (isIdle : s.collector.pc = .idle) : NoMark s.store := by
  have here := inv.gc.here
  simpa only [GcAt, isIdle] using here

theorem next_inv (careful : Careful s label) (step : next s label = some s') : StateInv s' := by
  cases next_move step with
  | insert unlocked recent => exact beginInsert_inv inv unlocked recent
  | replace unlocked noSharers ordered => exact beginReplace_inv inv unlocked noSharers ordered
  | insertStep isIns isCached =>
    exact installInsert_inv inv isIns isCached (inv.insertStep isIns isCached careful)
  | replaceStep isReplacing =>
    exact installReplace_inv inv isReplacing
      (replaceStep_ok inv.store (inv.replacing isReplacing).2)
  | @pass oldestXmin isIdle later covers =>
    have known : GcOk s.store { s.collector with oldestXmin := oldestXmin } := by
      refine ⟨inv.gc.maybe, ?_⟩
      simpa only [GcAt, isIdle] using inv.idle isIdle
    refine collector_inv inv known later fun {tid} _ isIns => ?_
    have covered := all_eq_true.mp covers tid (inv.inserting isIns).sharer
    simpa [isIns, xmin] using covered
  | visit live isIdle =>
    refine collector_inv inv ⟨inv.gc.maybe, inv.idle isIdle, live⟩ le_rfl ?_
    exact fun isIns => (inv.inserting isIns).known.1
  | tryDelete isIdle =>
    refine collector_inv inv ⟨inv.gc.maybe, inv.idle isIdle⟩ le_rfl ?_
    exact fun isIns => (inv.inserting isIns).known.1
  | gc running => exact gc_inv inv (gcStep_ok inv.store inv.gc (careful.1.2 rfl))

theorem next_published (careful : Careful s label)
    (step : next s label = some s') {a : Addr} (isPublished : Published s a) :
    Published s' a ∧ s'.store.xminOf a = s.store.xminOf a := by
  cases next_move step with
  | insert unlocked recent =>
    obtain ⟨stays, same⟩ := beginInsert_published inv isPublished
    exact ⟨stays, congrArg Version.xmin same⟩
  | @replace tid versions unlocked noSharers ordered =>
    have allocated : Allocated s.store versions _ := allocChain_ok inv.store
    refine ⟨beginReplace_published inv unlocked isPublished, ?_⟩
    have old : a ∉ newAddrs s.store versions := fun mem =>
      absurd isPublished.1 (mem_newAddrs mem).1.not_gt
    exact congrArg Version.xmin (allocated.kept a old)
  | insertStep isIns isCached =>
    have stepOk := inv.insertStep isIns isCached careful
    exact ⟨installInsert_published isIns stepOk isPublished, stepOk.access.xminOf a⟩
  | replaceStep isReplacing =>
    have stepOk := replaceStep_ok inv.store (inv.replacing isReplacing).2
    exact ⟨installReplace_published inv isReplacing stepOk isPublished, stepOk.access.xminOf a⟩
  | pass isIdle later covers => exact ⟨isPublished, rfl⟩
  | visit live isIdle => exact ⟨isPublished, rfl⟩
  | tryDelete isIdle => exact ⟨isPublished, rfl⟩
  | gc running =>
    have access := (gcStep_ok inv.store inv.gc (careful.1.2 rfl)).access
    refine ⟨⟨?_, isPublished.2⟩, access.xminOf a⟩
    rw [access.fresh.1]
    exact isPublished.1

/-- Every step but those of a replacement keeps the values of the versions; a new node starts
with zero. -/
theorem next_delta (careful : Careful s label) (step : next s label = some s')
    (notReplace : ∀ tid versions, label ≠ .replace tid versions)
    (notReplacing : ∀ tid f, s.threads tid ≠ .replacing f)
    (zero : (s.store.nodes s.store.freshNode).deltaVal = 0) (a : Addr) :
    (s'.store.nodes a).deltaVal = (s.store.nodes a).deltaVal := by
  cases next_move step with
  | @insert tid xmin unlocked recent =>
    simp only [beginInsert, prepareNode]
    split
    next other isCached =>
      by_cases same : a = other
      · simp [setXmin, same]
      · simp [setXmin, same]
    · by_cases same : a = s.store.freshNode
      · simp [alloc, same, zero]
      · simp [alloc, same]
  | replace unlocked noSharers ordered => exact absurd rfl (notReplace _ _)
  | insertStep isIns isCached => exact (inv.insertStep isIns isCached careful).access.deltaVal a
  | replaceStep isReplacing => exact absurd isReplacing (notReplacing _ _)
  | pass isIdle later covers => rfl
  | visit live isIdle => rfl
  | tryDelete isIdle => rfl
  | gc running => exact (gcStep_ok inv.store inv.gc (careful.1.2 rfl)).access.deltaVal a

theorem addDelta_inv (a : Addr) (value range : Nat) :
    StateInv { s with store := s.store.addDelta a value range } := by
  have agrees := Agrees.addDelta inv.store a value range
  refine ⟨agrees.ok inv.store, inv.gc.stable (Others.ofAgrees agrees), ?_, inv.cached, ?_, ?_,
    inv.locked⟩
  · intro other inChain
    exact inv.chain other ((agrees.inChain_iff inv.store).mp inChain)
  · intro tid f isIns
    have inserting := inv.inserting isIns
    refine Inserting.stable inserting ?_ le_rfl inserting.known.1 id rfl ?_
    · exact Evolves.ofAgrees inv.store agrees id fun _ => xminOf_addDelta
    · exact fun _ _ => xminOf_addDelta
  · intro tid f isReplacing
    obtain ⟨isWriter, replaceOk⟩ := inv.replacing isReplacing
    refine ⟨isWriter, replaceOk.congr (fun isPrivate => ?_) rfl⟩
    refine isPrivate.congr ?_ (fun _ => xminOf_addDelta) rfl ?_
    · intro other _
      rw [linkOf, read_addDelta, linkOf]
    · exact fun other inChain => (agrees.inChain_iff inv.store).mp inChain

theorem run_published (meets : Run.Meets next Careful s schedule)
    (reached : Run.run next s schedule = some s') (isPublished : Published s a) :
    s'.store.xminOf a = s.store.xminOf a := by
  have kept := Run.invariant (fun later => StateInv later ∧ Published later a ∧
    later.store.xminOf a = s.store.xminOf a) ?_ ⟨inv, isPublished, rfl⟩ meets reached
  · exact kept.2.2
  · rintro pre after label ⟨beforeInv, pre', same⟩ careful step
    obtain ⟨after', sameXmin⟩ := next_published beforeInv careful step pre'
    exact ⟨next_inv beforeInv careful step, after', sameXmin.trans same⟩

omit inv

theorem initial_inv : StateInv initial where
  store := ⟨⟨[], rfl, List.Pairwise.nil, by simp⟩, fun _ => rfl, by simp [initial], by simp [initial]⟩
  gc := ⟨by simp [initial], by simp [initial, GcAt, NoMark]⟩
  chain a inChain := by
    obtain ⟨nodes, listed, mem⟩ := inChain
    cases (listed_none rfl).mp listed
    cases mem
  cached isCached := by cases isCached
  inserting isIns := by cases isIns
  replacing isReplacing := by cases isReplacing
  locked _ := rfl

end

end PgAqp.VersionStore
