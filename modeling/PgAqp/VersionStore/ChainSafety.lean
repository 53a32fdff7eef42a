import PgAqp.VersionStore.System

/-!
# Safety of the version chain

One step leaves the chain, links one new node, drops an old tail, or installs the chain of
a replacement.
-/

namespace PgAqp.VersionStore

open Hash (Addr Tid)
open Library Function List

inductive ChainStep (s : State) (label : Label) (st' : Store) (nodes : List Addr) :
    List Addr → Prop where
  | same : ChainStep s label st' nodes nodes
  | linked {front back : List Addr} {new : Addr} {tid : Tid} {f : InsertFrame}
      (isSplit : nodes = front ++ back) (isStep : label = .step tid)
      (isIns : s.threads tid = .inserting f) (isXmin : st'.xminOf new = f.xmin)
      (isCached : s.cached tid = some new) :
      ChainStep s label st' nodes (front ++ new :: back)
  | collected {kept dropped : List Addr} (isGc : label = .gc) (isSplit : nodes = kept ++ dropped)
      (old : ∀ a ∈ dropped, st'.xminOf a < s.collector.oldestXmin) :
      ChainStep s label st' nodes kept
  | replaced {tid : Tid} {f : ReplaceFrame} (isStep : label = .step tid)
      (isReplacing : s.threads tid = .replacing f) :
      ChainStep s label st' nodes f.newNodes

def NotReplacing (s : State) (label : Label) : Prop :=
  ∀ tid f, label = .step tid → s.threads tid ≠ .replacing f

/-- No backend has used what it read through a null or marked pointer. -/
def Unharmed (s : State) : Prop := ∀ tid, s.threads tid ≠ .crashed

section

variable {s s' : State}

theorem next_others (inv : StateInv s) (careful : Careful s label) (notGc : label ≠ .gc)
    (step : next s label = some s') :
    Others s.collector.oldestXmin s.store s'.store := by
  have stays : Others s.collector.oldestXmin s.store s.store :=
    Others.ofAgrees (Agrees.refl inv.store)
  cases next_move step with
  | insert unlocked recent => exact Others.ofAgrees (prepareNode_ok inv _ _).agrees
  | replace unlocked noSharers ordered => exact Others.ofAgrees (allocChain_ok inv.store).agrees
  | insertStep isIns isCached =>
    have access := (inv.insertStep isIns isCached careful).access
    exact access.others inv.store (inv.newNode isIns isCached) (inv.inserting isIns).known.1
  | replaceStep isReplacing =>
    exact (replaceStep_ok inv.store (inv.replacing isReplacing).2).access.others inv.store
  | pass isIdle later covers => exact stays
  | visit live isIdle => exact stays
  | tryDelete isIdle => exact stays
  | gc running => exact absurd rfl notGc

theorem next_chain (inv : StateInv s) (careful : Careful s label)
    (step : next s label = some s') (listed : s.store.Listed nodes) :
    (∃ nodes', s'.store.Listed nodes' ∧ ChainStep s label s'.store nodes nodes') ∧
      (∀ a ∈ nodes, s'.store.xminOf a = s.store.xminOf a) ∧
      s.collector.oldestXmin ≤ s'.collector.oldestXmin := by
  cases next_move step with
  | @insert tid xmin unlocked recent =>
    have agrees := (prepareNode_ok inv tid xmin).agrees
    refine ⟨⟨nodes, agrees.listed listed, .same⟩, ?_, le_rfl⟩
    exact fun a mem => agrees.xminOf ⟨nodes, listed, mem⟩
  | @replace tid versions unlocked noSharers ordered =>
    have allocated : Allocated s.store versions _ := allocChain_ok inv.store
    have agrees := allocated.agrees
    refine ⟨⟨nodes, agrees.listed listed, .same⟩, ?_, le_rfl⟩
    exact fun a mem => agrees.xminOf ⟨nodes, listed, mem⟩
  | insertStep isIns isCached =>
    have access := (inv.insertStep isIns isCached careful).access
    have new := inv.newNode isIns isCached
    refine ⟨?_, fun a _ => access.xminOf a, le_rfl⟩
    rcases access.listed inv.store new listed with ⟨-, same⟩ | ⟨-, front, back, isSplit, linked⟩
    · exact ⟨nodes, same, .same⟩
    · exact ⟨_, linked, .linked isSplit rfl isIns ((access.xminOf _).trans new.xminOf) isCached⟩
  | replaceStep isReplacing =>
    have access := (replaceStep_ok inv.store (inv.replacing isReplacing).2).access
    refine ⟨?_, fun a _ => access.xminOf a, le_rfl⟩
    rcases access.listed inv.store listed with same | installed
    · exact ⟨nodes, same, .same⟩
    · exact ⟨_, installed, .replaced rfl isReplacing⟩
  | pass isIdle later covers => exact ⟨⟨nodes, listed, .same⟩, fun _ _ => rfl, later⟩
  | visit live isIdle => exact ⟨⟨nodes, listed, .same⟩, fun _ _ => rfl, le_rfl⟩
  | tryDelete isIdle => exact ⟨⟨nodes, listed, .same⟩, fun _ _ => rfl, le_rfl⟩
  | gc running =>
    obtain ⟨access, -, sameXmin⟩ := gcStep_ok inv.store inv.gc (careful.1.2 rfl)
    refine ⟨?_, fun a _ => access.xminOf a, Nat.le_of_eq sameXmin.symm⟩
    obtain ⟨kept, dropped, isSplit, listed', old⟩ := access.listed inv.store listed
    refine ⟨kept, listed', .collected rfl isSplit fun a mem => ?_⟩
    rw [access.xminOf]
    exact old a mem

/-- A node of the chain stays, becomes old, or is replaced. -/
theorem next_kept (inv : StateInv s) (careful : Careful s label) (notReplacing : NotReplacing s label)
    (step : next s label = some s') (inChain : s.store.InChain a) :
    s'.store.xminOf a = s.store.xminOf a ∧
      (s'.store.InChain a ∨ s.store.xminOf a < s'.collector.oldestXmin) := by
  obtain ⟨nodes, listed, mem⟩ := inChain
  obtain ⟨⟨nodes', listed', chainStep⟩, sameXmin, later⟩ := next_chain inv careful step listed
  refine ⟨sameXmin a mem, ?_⟩
  cases chainStep with
  | same => exact .inl ⟨nodes, listed', mem⟩
  | linked isSplit isStep isIns isXmin isCached =>
    rw [isSplit] at mem
    refine .inl ⟨_, listed', ?_⟩
    rcases mem_append.mp mem with inFront | inBack
    · simp [inFront]
    · simp [inBack]
  | collected isGc isSplit old =>
    rw [isSplit] at mem
    rcases mem_append.mp mem with isKept | isDropped
    · exact .inl ⟨_, listed', isKept⟩
    · have below := old a isDropped
      rw [sameXmin a (by rw [isSplit]; exact mem)] at below
      exact .inr (Nat.lt_of_lt_of_le below later)
  | replaced isStep isReplacing => exact absurd isReplacing (notReplacing _ _ isStep)

theorem Unharmed.update (unharmed : Unharmed s)
    (isUpdate : s'.threads = update s.threads tid thread) (alive : thread ≠ .crashed) :
    Unharmed s' := by
  intro other
  rw [isUpdate]
  by_cases same : other = tid
  · subst same
    rwa [update_self]
  · rw [update_of_ne same]
    exact unharmed other

/-- An insertion reads plain pointers as long as no failed swap brings back a mark. -/
theorem next_unharmed (inv : StateInv s) (unharmed : Unharmed s) (careful : Careful s label)
    (step : next s label = some s') : Unharmed s' := by
  cases next_move step with
  | insert unlocked recent => exact unharmed.update rfl (by simp)
  | replace unlocked noSharers ordered => exact unharmed.update rfl (by simp)
  | insertStep isIns isCached =>
    exact unharmed.update rfl (inv.insertStep isIns isCached careful).alive
  | replaceStep isReplacing =>
    refine unharmed.update rfl ?_
    rcases (replaceStep_ok inv.store (inv.replacing isReplacing).2).ends with
      isIdle | ⟨f', isFrame⟩
    · simp [isIdle]
    · simp [isFrame]
  | pass isIdle later covers => exact unharmed
  | visit live isIdle => exact unharmed
  | tryDelete isIdle => exact unharmed
  | gc running => exact unharmed

theorem next_returned (inv : StateInv s) (careful : Careful s (.step tid))
    (isIns : s.threads tid = .inserting f)
    (step : next s (.step tid) = some s') (returned : s'.threads tid = .returned a) :
    s'.store.InChain a ∧ s'.store.xminOf a = f.xmin := by
  cases next_move step with
  | insertStep isIns' isCached =>
    cases isIns.symm.trans isIns'
    apply (inv.insertStep isIns isCached careful).returns
    simpa [State.installInsert] using returned
  | replaceStep isReplacing => cases isIns.symm.trans isReplacing

end

/-- What holds of the chain and of every process that works on it. -/
structure ChainSafe (s : State) : Prop where
  sorted : ∃ nodes, s.store.Listed nodes ∧ s.store.Descending nodes
  plain : ∀ a, (s.store.read (.node a)).marked = false
  backends : ∀ tid, s.threads tid ≠ .crashed
  collector : s.collector.pc ≠ .crashed

structure StepSafe (s : State) (label : Label) (s' : State) : Prop where
  mark : label ≠ .gc → ∀ e, s.store.entry = some e →
    (s.store.heads e).marked = true →
    s'.store.entry = some e ∧ (s'.store.heads e).marked = true
  returned : ∀ tid f a, label = .step tid → s.threads tid = .inserting f →
    s'.threads tid = .returned a →
    s'.store.InChain a ∧ s'.store.xminOf a = f.xmin

variable {s s' : State}

theorem StateInv.safe (inv : StateInv s) (unharmed : Unharmed s) : ChainSafe s where
  sorted := by
    obtain ⟨nodes, listed, descending, -⟩ := inv.store.listed
    exact ⟨nodes, listed, descending⟩
  plain := inv.store.plain
  backends := unharmed
  collector isCrashed := by
    have here := inv.gc.here
    simp only [GcAt, isCrashed] at here

theorem StateInv.stepSafe (inv : StateInv s)
    (careful : Careful s label) (step : next s label = some s') :
    StepSafe s label s' where
  mark notGc e live marked := by
    have others := next_others inv careful notGc step
    refine ⟨others.live live, ?_⟩
    rw [others.mark live]
    exact marked
  returned := by
    rintro tid f a rfl isIns isReturned
    exact next_returned inv careful isIns step isReturned

/-- A node of the chain that is not old stays in the chain until the chain is replaced. -/
theorem StateInv.keeps (inv : StateInv s)
    (meets : Run.Meets next (fun s label => Careful s label ∧ NotReplacing s label) s schedule)
    (reached : Run.run next s schedule = some s') (inChain : s.store.InChain a)
    (recent : s'.collector.oldestXmin ≤ s.store.xminOf a) :
    s'.store.InChain a ∧ s'.store.xminOf a = s.store.xminOf a := by
  -- A node that becomes old may be dropped, and then its id says that it is old.
  have kept := Run.invariant (fun later => StateInv later ∧ ((later.store.InChain a ∧
      later.store.xminOf a = s.store.xminOf a) ∨
      s.store.xminOf a < later.collector.oldestXmin)) ?_ ⟨inv, .inl ⟨inChain, rfl⟩⟩ meets
    reached
  · rcases kept.2 with still | old
    · exact still
    · exact absurd old (recent.not_gt)
  · rintro pre after label ⟨beforeInv, fate⟩ ⟨careful, notReplacing⟩ step
    refine ⟨next_inv beforeInv careful step, ?_⟩
    rcases fate with ⟨inBefore, sameXmin⟩ | old
    · obtain ⟨same, still | old⟩ := next_kept beforeInv careful notReplacing step inBefore
      · exact .inl ⟨still, same.trans sameXmin⟩
      · rw [sameXmin] at old
        exact .inr old
    · obtain ⟨nodes, listed, -⟩ := beforeInv.store.listed
      obtain ⟨-, -, later⟩ := next_chain beforeInv careful step listed
      exact .inr (Nat.lt_of_lt_of_le old later)

/-- In every run whose swaps never bring back a marked head, the chain is sorted, no marked
pointer is followed or stored in a node, the mark of a head is left to the collector, every call
returns a node of its transaction that is in the chain, and no such node is lost. -/
theorem chain_safe {schedule : List Label} {s : State}
    (meets : Run.Meets next Careful initial schedule)
    (reached : Run.run next initial schedule = some s) :
    ChainSafe s ∧ (∀ label s', Careful s label → next s label = some s' → StepSafe s label s') ∧
      ∀ schedule' s' a, Run.Meets next (fun s label => Careful s label ∧ NotReplacing s label)
          s schedule' →
        Run.run next s schedule' = some s' → s.store.InChain a →
        s'.collector.oldestXmin ≤ s.store.xminOf a →
        s'.store.InChain a ∧ s'.store.xminOf a = s.store.xminOf a := by
  have start : StateInv initial ∧ Unharmed initial := ⟨initial_inv, by simp [Unharmed, initial]⟩
  obtain ⟨inv, unharmed⟩ := Run.invariant (fun s => StateInv s ∧ Unharmed s)
    (fun held careful step => ⟨next_inv held.1 careful step,
      next_unharmed held.1 held.2 careful step⟩) start meets reached
  refine ⟨inv.safe unharmed, ?_, ?_⟩
  · intro label s' careful step
    exact inv.stepSafe careful step
  · intro schedule' s' a meets' reached' inChain recent
    exact inv.keeps meets' reached' inChain recent

def steps (tid : Tid) (count : Nat) : List Label := replicate count (.step tid)

/-- An insertion loses its swap to the collector, starts again at the empty head, and its chain
is replaced at the end. -/
def collectedThenReplaced : List Label :=
  .insert 0 5 :: steps 0 3 ++ .pass 6 :: .insert 1 7 :: steps 1 2 ++ [.visit, .gc, .gc] ++
    steps 1 1 ++ replicate 4 .gc ++ steps 1 2 ++ .replace 2 [(9, 1), (8, 1)] :: steps 2 4

theorem collectedThenReplaced_safe : ∃ s, Run.run next initial collectedThenReplaced = some s ∧
      s.threads 1 = .returned 1 ∧ s.store.freed = [1, 0] ∧ ChainSafe s := by
  have ends : (Run.run next initial collectedThenReplaced).map
      (fun s => (s.threads 1, s.store.freed)) = some (.returned 1, [1, 0]) := by decide
  obtain ⟨s, reached, isEnd⟩ := Option.map_eq_some_iff.mp ends
  obtain ⟨isReturned, isFreed⟩ := Prod.mk.inj isEnd
  exact ⟨s, reached, isReturned, isFreed, (chain_safe (by decide) reached).1⟩

/-- The collector marks the head between the visit and the swap of an insertion, which then
looks at the marked pointer and makes its swap again. -/
def markedBeforeSwap : List Label :=
  .insert 0 5 :: steps 0 3 ++ .insert 1 7 :: steps 1 3 ++ [.visit, .gc, .gc] ++ steps 1 3

/-- The failed swap brings back the marked head; the insertion follows it, takes the upper half
of 5 for the id of the node, and links its own node with the marked pointer. -/
theorem markedBeforeSwap_links : Run.Meets next NearIds initial markedBeforeSwap ∧
      ∃ s, Run.run next initial markedBeforeSwap = some s ∧ s.threads 1 = .returned 1 ∧
        s.store.read (.node 1) = ⟨some 0, true⟩ ∧ (s.store.heads 0) = ⟨some 1, false⟩ ∧
        s.collector.pc = .walk := by
  have linked : (Run.run next initial markedBeforeSwap).map
      (fun s => (s.threads 1, s.store.read (.node 1), s.store.heads 0, s.collector.pc)) =
        some (.returned 1, ⟨some 0, true⟩, ⟨some 1, false⟩, .walk) := by
    decide
  obtain ⟨s, reached, isEnd⟩ := Option.map_eq_some_iff.mp linked
  simp only [Prod.mk.injEq] at isEnd
  exact ⟨by decide, s, reached, isEnd⟩

end PgAqp.VersionStore
