import PgAqp.VersionStore.Pivot

/-!
# A pass of the collector over one chain

During a pass backends may link new nodes.  The chain that nobody collected is the
chain in memory followed by old nodes, and a reader whose snapshot is not before the
horizon stops in front of them.
-/

namespace PgAqp.VersionStore

open Hash (Ptr Addr rawptr)
open Library List GcPc

def GcPc.searching : GcPc → Bool
  | .readHead => true
  | .markHead => true
  | .walk => true
  | .unlink => true
  | .refind => true
  | _ => false

def GcPc.unlinked : GcPc → Bool
  | .rereadHead => true
  | .unmarkHead => true
  | .deleteChain => true
  | .idle => true
  | _ => false

def NoOld (st : Store) (oldestXmin : Xid) : Prop :=
  ∀ a, st.InChain a → oldestXmin ≤ st.xminOf a

section

variable {st : Store} {gc : Collector}

/-- What a step of a pass comes to: it goes on searching, or no old node is left. -/
def PassStep (oldestXmin : Xid) (res : Store × Collector) : Prop :=
  res.2.pc.searching = true ∨ res.2.pc.unlinked = true ∧ NoOld res.1 oldestXmin

theorem passStep_of_access (ok : StoreOk st) (access : GcAccess st oldestXmin res.1)
    (noOld : NoOld st oldestXmin) (unlinked : res.2.pc.unlinked) : PassStep oldestXmin res := by
  refine .inr ⟨unlinked, fun a inChain => ?_⟩
  rw [access.xminOf]
  exact noOld a (access.inChain ok inChain)

theorem noOld_of_listed (listed : st.Listed nodes)
    (recent : ∀ a ∈ nodes, oldestXmin ≤ st.xminOf a) : NoOld st oldestXmin := by
  intro a inChain
  exact recent a (listed.inChain_iff.mp inChain)

theorem lookAtHead_pass (ok : StoreOk st) (live : st.entry = some gc.headPtr)
    (isHead : gc.head = st.heads gc.headPtr) :
    PassStep gc.oldestXmin (st, gc.lookAtHead) := by
  unfold Collector.lookAtHead
  split
  next isNull =>
    obtain ⟨nodes, listed, -⟩ := ok.listed
    have empty := (Position.atHead live listed).linkOf_eq
    rw [Store.linkOf, Store.read, ← isHead, isNull] at empty
    refine .inr ⟨rfl, noOld_of_listed listed ?_⟩
    rw [head?_eq_none_iff.mp empty.symm]
    simp
  · exact .inl rfl

theorem lookForDeletable_pass : PassStep gc.oldestXmin (st, gc.lookForDeletable) := by
  unfold Collector.lookForDeletable
  split
  · exact .inl rfl
  · exact .inl rfl

theorem walk_pass (gcOk : GcOk st gc) (near : GcNear st gc) (atPc : gc.pc = .walk) :
    PassStep gc.oldestXmin (gcStep st gc) := by
  have here := gcOk.here
  simp only [GcAt, atPc] at here
  obtain ⟨front, a, back, isCur, collecting, -⟩ := here
  have isRaw : rawptr gc.cur = some a := by
    rw [isCur]
    rfl
  have close := near atPc a (by rw [isCur]; rfl)
  have compare : normalTransactionIdPrecedes (st.xminOf a) gc.oldestXmin =
      decide (st.xminOf a < gc.oldestXmin) := Serial.precedes_ofNat close
  simp only [gcStep, atPc, isRaw, compare, decide_eq_true_eq]
  split
  · exact .inl rfl
  next notOld =>
    split
    next isNull =>
      refine .inr ⟨rfl, noOld_of_listed collecting.listed ?_⟩
      have pos : Position st gc.headPtr (.node a) (front ++ [a]) back := by
        refine ⟨collecting.live, ?_, Chain.endCell_snoc _ _ _⟩
        simpa using collecting.listed
      have isLast := pos.linkOf_eq
      rw [Store.linkOf, isNull] at isLast
      cases head?_eq_none_iff.mp isLast.symm
      intro node mem
      rcases mem_append.mp mem with inFront | isAddr
      · exact collecting.recent node inFront
      · rw [mem_singleton.mp isAddr]
        exact Nat.le_of_not_lt notOld
    · exact .inl rfl

theorem unlink_pass (ok : StoreOk st) (gcOk : GcOk st gc) (atPc : gc.pc = .unlink) :
    PassStep gc.oldestXmin (gcStep st gc) := by
  have here := gcOk.here
  simp only [GcAt, atPc] at here
  obtain ⟨front, a, back, isDeletable, collecting, linkIn, -, isCur⟩ := here
  simp only [gcStep, atPc]
  split
  next found =>
    have pos := collecting.expected_position ok linkIn isDeletable isCur found
    refine .inr ⟨rfl, noOld_of_listed (ok.cut pos).2 fun node mem => ?_⟩
    rw [Store.xminOf_write]
    exact collecting.recent node mem
  · exact lookForDeletable_pass

theorem startDelete_unlinked : gc.startDelete.pc.unlinked := by
  unfold Collector.startDelete
  split <;> rfl

theorem gcStep_pass (ok : StoreOk st) (gcOk : GcOk st gc) (near : GcNear st gc)
    (passing : gc.pc.searching ∨ gc.pc.unlinked ∧ NoOld st gc.oldestXmin) :
    PassStep gc.oldestXmin (gcStep st gc) := by
  have stepOk := gcStep_ok ok gcOk near
  have here := gcOk.here
  -- After the unlinking only the program counter is left to be looked at.
  have goesOn (found : gc.pc.searching = false) : (gcStep st gc).2.pc.unlinked →
      PassStep gc.oldestXmin (gcStep st gc) :=
    passStep_of_access ok stepOk.access (passing.resolve_left (by simp [found])).2
  cases atPc : gc.pc with
  | readHead =>
    simp only [GcAt, atPc] at here
    simp only [gcStep, atPc]
    exact lookAtHead_pass ok here.2 rfl
  | markHead =>
    simp only [GcAt, atPc] at here
    simp only [gcStep, atPc]
    split
    · exact .inl rfl
    · exact lookAtHead_pass ok here.2.1 rfl
  | walk => exact walk_pass gcOk near atPc
  | unlink => exact unlink_pass ok gcOk atPc
  | refind =>
    simp only [GcAt, atPc] at here
    obtain ⟨-, -, -, -, -, -, node, -, isCur⟩ := here
    have isRaw : rawptr gc.cur = some node := by
      rw [isCur]
      rfl
    simp only [gcStep, atPc, isRaw]
    exact lookForDeletable_pass
  | rereadHead =>
    apply goesOn (by rw [atPc]; rfl)
    simp only [gcStep, atPc]
    split
    · rfl
    · exact startDelete_unlinked
  | unmarkHead =>
    apply goesOn (by rw [atPc]; rfl)
    simp only [gcStep, atPc]
    split
    · exact startDelete_unlinked
    · rfl
  | deleteChain =>
    apply goesOn (by rw [atPc]; rfl)
    simp only [GcAt, atPc] at here
    obtain ⟨-, a, isHead⟩ := here
    have isRaw : rawptr gc.head = some a := by
      rw [isHead]
      rfl
    simp only [gcStep, atPc, isRaw]
    split <;> rfl
  | idle =>
    apply goesOn (by rw [atPc]; rfl)
    simp only [gcStep, atPc]
    rfl
  | _ => simp [atPc, searching, unlinked] at passing

end

def State.duringPass (s : State) : Label → Bool
  | .insert _ _ => true
  | .step tid => (s.threads tid).insertFrame.isSome
  | .gc => true
  | _ => false

def State.links (s : State) : Label → Option Addr
  | .step tid =>
    match (s.threads tid).insertFrame, s.cached tid with
    | some f, some newNode =>
      if (insertStep s.store newNode f).2.insertedNew then some newNode else none
    | _, _ => none
  | _ => none

/-- A node at its place in a list of descending ids. -/
def insertVersion (st : Store) (new : Addr) : List Addr → List Addr
  | [] => [new]
  | a :: rest =>
    if st.xminOf new < st.xminOf a then a :: insertVersion st new rest
    else new :: a :: rest

/-- The list that has the nodes a step links, and from which nothing is collected. -/
def State.grow (s s' : State) (label : Label) (nodes : List Addr) : List Addr :=
  match s.links label with
  | none => nodes
  | some new => insertVersion s'.store new nodes

/-- The chain that has every node linked in a run, and was never collected. -/
def uncollected : State → List Label → List Addr → List Addr
  | _, [], nodes => nodes
  | s, label :: rest, nodes =>
    match next s label with
    | none => nodes
    | some s' => uncollected s' rest (s.grow s' label nodes)

theorem insertVersion_eq (above : ∀ a ∈ front, st.xminOf new < st.xminOf a)
    (below : ∀ a ∈ rest, st.xminOf a < st.xminOf new) :
    insertVersion st new (front ++ rest) = front ++ new :: rest := by
  induction front with
  | nil =>
    cases rest with
    | nil => rfl
    | cons a rest => simp [insertVersion, Nat.not_lt_of_lt (below a (by simp))]
  | cons a front ih =>
    have inFront := ih fun other mem => above other (by simp [mem])
    simp [insertVersion, above a (by simp), inFront]

/-- What holds during a pass; `full` is the chain that nobody collected. -/
structure PassInv (oldestXmin : Xid) (full : List Addr) (s : State) : Prop where
  inv : StateInv s
  horizon : s.collector.oldestXmin = oldestXmin
  published : ∀ a ∈ full, Published s a
  split : ∃ nodes old, s.store.Listed nodes ∧ full = nodes ++ old ∧
    ∀ a ∈ old, s.store.xminOf a < oldestXmin
  phase : s.collector.pc.searching = true ∨
    s.collector.pc.unlinked = true ∧ NoOld s.store oldestXmin

section

variable {s s' : State} {oldestXmin : Xid} {full : List Addr} (passInv : PassInv oldestXmin full s)
include passInv

theorem PassInv.outside (inv' : StateInv s')
    (careful : Careful s label) (step : next s label = some s')
    (noLink : s.links label = none) (same : s'.collector = s.collector)
    (listed : ∀ {nodes}, s.store.Listed nodes → s'.store.Listed nodes) :
    PassInv oldestXmin (s.grow s' label full) s' := by
  have kept : ∀ a ∈ full, Published s' a ∧ s'.store.xminOf a = s.store.xminOf a :=
    fun a mem => next_published passInv.inv careful step (passInv.published a mem)
  have isFull : s.grow s' label full = full := by simp [State.grow, noLink]
  rw [isFull]
  obtain ⟨nodes, old, isListed, isSplit, isOld⟩ := passInv.split
  refine ⟨inv', by rw [same]; exact passInv.horizon, fun a mem => (kept a mem).1,
    ⟨nodes, old, listed isListed, isSplit, fun a mem => ?_⟩, ?_⟩
  · rw [(kept a (by simp [isSplit, mem])).2]
    exact isOld a mem
  · rw [same]
    rcases passInv.phase with searching | ⟨unlinked, noOld⟩
    · exact .inl searching
    · refine .inr ⟨unlinked, noOld_of_listed (listed isListed) fun a mem => ?_⟩
      rw [(kept a (by simp [isSplit, mem])).2]
      exact noOld a ⟨nodes, isListed, mem⟩

theorem PassInv.insertStep (inv' : StateInv s') (careful : Careful s (.step tid))
    (step : next s (.step tid) = some s') (isIns : s.threads tid = .inserting f)
    (isCached : s.cached tid = some newNode)
    (isNext : s' = s.installInsert tid (insertStep s.store newNode f).1
      (insertStep s.store newNode f).2) :
    PassInv oldestXmin (s.grow s' (.step tid) full) s' := by
  have inv := passInv.inv
  have access := (inv.insertStep isIns isCached careful).access
  have new := inv.newNode isIns isCached
  have links : s.links (.step tid) =
      if (VersionStore.insertStep s.store newNode f).2.insertedNew then some newNode
      else none := by
    simp [State.links, isIns, Thread.insertFrame, isCached]
  have sameCollector : s'.collector = s.collector := by rw [isNext]; rfl
  obtain ⟨nodes, old, listed, isSplit, isOld⟩ := passInv.split
  rcases access.listed inv.store new listed with ⟨notNew, same⟩ | ⟨isNew, front, back, rfl, linked⟩
  · apply passInv.outside inv' careful step (by simp [links, notNew]) sameCollector
    intro nodes' listed'
    cases listed.unique listed'
    rw [isNext]
    exact same
  · have listed' : s'.store.Listed (front ++ newNode :: back) := by
      rw [isNext]
      exact linked
    have recent : oldestXmin ≤ s'.store.xminOf newNode := by
      rw [← passInv.horizon, isNext]
      have known := (inv.inserting isIns).known.1
      rw [← new.xminOf, ← access.xminOf] at known
      exact known
    have kept : ∀ a ∈ full, Published s' a ∧ s'.store.xminOf a = s.store.xminOf a :=
      fun a mem => next_published inv careful step (passInv.published a mem)
    have isOld' : ∀ a ∈ old, s'.store.xminOf a < oldestXmin := by
      intro a mem
      rw [(kept a (by simp [isSplit, mem])).2]
      exact isOld a mem
    obtain ⟨-, tailDescending, above⟩ :=
      Store.descending_append.mp (inv'.store.nodes_nodup listed').1
    have isFull : s.grow s' (.step tid) full = (front ++ newNode :: back) ++ old := by
      simp only [State.grow, links, isNew, if_true]
      rw [isSplit, append_assoc, insertVersion_eq, append_assoc, cons_append]
      · exact fun a mem => above a mem newNode (by simp)
      · intro a mem
        rcases mem_append.mp mem with inBack | inOld
        · exact (Store.descending_cons.mp tailDescending).1 a inBack
        · exact (isOld' a inOld).trans_le recent
    rw [isFull]
    refine ⟨inv', by rw [sameCollector]; exact passInv.horizon, ?_, ⟨_, _, listed', rfl, isOld'⟩, ?_⟩
    · intro a mem
      rcases mem_append.mp mem with inChain | inOld
      · exact inv'.chain a ⟨_, listed', inChain⟩
      · exact (kept a (by simp [isSplit, inOld])).1
    · rw [sameCollector]
      rcases passInv.phase with searching | ⟨unlinked, noOld⟩
      · exact .inl searching
      · refine .inr ⟨unlinked, noOld_of_listed listed' fun a mem => ?_⟩
        by_cases isAddr : a = newNode
        · rw [isAddr]
          exact recent
        · have inOld : a ∈ front ++ back := by simpa [isAddr] using mem
          rw [(kept a (by rw [isSplit]; exact mem_append_left _ inOld)).2]
          exact noOld a ⟨_, listed, inOld⟩

theorem PassInv.gcStep (inv' : StateInv s') (careful : Careful s .gc) (step : next s .gc = some s')
    (isNext : s' = { s with
      store := (gcStep s.store s.collector).1
      collector := (gcStep s.store s.collector).2 }) :
    PassInv oldestXmin (s.grow s' .gc full) s' := by
  have inv := passInv.inv
  have kept : ∀ a ∈ full, Published s' a ∧ s'.store.xminOf a = s.store.xminOf a :=
    fun a mem => next_published inv careful step (passInv.published a mem)
  have stepOk := gcStep_ok inv.store inv.gc (careful.1.2 rfl)
  have phase := gcStep_pass inv.store inv.gc (careful.1.2 rfl)
    (by rw [passInv.horizon]; exact passInv.phase)
  have isFull : s.grow s' .gc full = full := rfl
  rw [isFull]
  obtain ⟨nodes, old, listed, isSplit, isOld⟩ := passInv.split
  obtain ⟨remaining, dropped, rfl, listed', isDropped⟩ := stepOk.access.listed inv.store listed
  refine ⟨inv', ?_, fun a mem => (kept a mem).1, ?_, ?_⟩
  · rw [isNext]
    exact stepOk.oldestXmin.trans passInv.horizon
  · refine ⟨remaining, dropped ++ old, by rw [isNext]; exact listed', ?_, fun a mem => ?_⟩
    · rw [isSplit, append_assoc]
    · have inFull : a ∈ full := by
        rw [isSplit, append_assoc]
        exact mem_append_right _ mem
      rw [(kept a inFull).2]
      rcases mem_append.mp mem with inDropped | inOld
      · rw [← passInv.horizon]
        exact isDropped a inDropped
      · exact isOld a inOld
  · rw [isNext, ← passInv.horizon]
    exact phase

/-- Every step of a pass keeps the uncollected chain in front of old nodes. -/
theorem PassInv.next (careful : Careful s label)
    (during : s.duringPass label) (step : next s label = some s') :
    PassInv oldestXmin (s.grow s' label full) s' := by
  have inv' := next_inv passInv.inv careful step
  cases next_move step with
  | @insert tid xmin unlocked recent =>
    have agrees := (prepareNode_ok passInv.inv tid xmin).agrees
    exact passInv.outside inv' careful step rfl rfl agrees.listed
  | insertStep isIns isCached => exact passInv.insertStep inv' careful step isIns isCached rfl
  | replaceStep isReplacing => simp [State.duringPass, isReplacing, Thread.insertFrame] at during
  | gc running => exact passInv.gcStep inv' careful step rfl
  | _ => cases during

theorem PassInv.run (meets : Run.Meets VersionStore.next
      (fun s label => Careful s label ∧ s.duringPass label) s schedule)
    (ended : Run.run VersionStore.next s schedule = some final) :
    PassInv oldestXmin (uncollected s schedule full) final := by
  induction schedule generalizing s full with
  | nil =>
    cases ended
    exact passInv
  | cons label rest ih =>
    obtain ⟨s', step, ended'⟩ := Run.run_cons_eq_some.mp ended
    obtain ⟨⟨careful, during⟩, meets'⟩ := (Run.meets_cons step).mp meets
    have later := ih (passInv.next careful during step) meets' ended'
    simpa [uncollected, step] using later

end

/-! ## What a reader gets -/

/-- A reader that is about to look for the chain of the key. -/
def Reader.ofSnapshot (snap : AbtSnapshot) (agg : Nat) : Reader :=
  ⟨⟨snap, none⟩, snap.xip, agg, .findHead, 0⟩

/-- The reader ends with a result if it makes its accesses without others in between. -/
def Reader.Gets (typ : AggType) (st : Store) (reader : Reader) (agg : Nat) : Prop :=
  ∃ accesses, ((Reader.step typ st)^[accesses] reader).pc = .done ∧
    ((Reader.step typ st)^[accesses] reader).agg = agg

section

variable {typ : AggType} {st : Store} {reader : Reader}

theorem Reader.Gets.step (gets : (reader.step typ st).Gets typ st res) :
    reader.Gets typ st res := by
  obtain ⟨accesses, ends⟩ := gets
  exact ⟨accesses + 1, ends⟩

/-- Through plain pointers the reader's walk is the loop over the versions of the chain. -/
theorem Reader.look_gets (plain : ∀ a, (st.read (.node a)).marked = false) {cur : Ptr}
    (curPlain : cur.marked = false) (chain : Segment st.linkOf cur.node nodes none) :
    (reader.look st cur).Gets typ st
      (excludeLoop typ reader.live.snapshot reader.xip reader.agg (st.versions nodes)) := by
  induction nodes generalizing reader cur with
  | nil =>
    obtain rfl : cur = Ptr.null := by
      cases cur
      cases curPlain
      cases (chain : _ = none)
      rfl
    exact ⟨0, rfl, rfl⟩
  | cons a rest ih =>
    obtain ⟨isNode, behind⟩ := Segment.cons_iff.mp chain
    obtain rfl : cur = .ofNode a := by
      cases cur
      cases curPlain
      cases isNode
      rfl
    simp only [Store.versions, map_cons, excludeLoop, Reader.look, Ptr.ofNode]
    cases verdict reader.live.snapshot reader.xip (st.xminOf a) with
    | stop => exact ⟨0, rfl, rfl⟩
    | keep xip => exact .step (ih (plain a) behind)
    | subtract xip => exact .step (.step (ih (plain a) behind))

theorem Reader.ofSnapshot_gets (ok : StoreOk st) (listed : st.Listed nodes) (snap : AbtSnapshot)
    (agg : Nat) : (Reader.ofSnapshot snap agg).Gets typ st
      (excludeAggInSnapshot typ (some snap) agg (st.versions nodes)) := by
  refine .step ?_
  cases live : st.entry with
  | none =>
    cases (Store.listed_none live).mp listed
    refine ⟨0, ?_⟩
    simp [Reader.step, Reader.ofSnapshot, live, Store.versions, excludeAggInSnapshot, excludeLoop]
  | some e =>
    have isStep : Reader.step typ st (Reader.ofSnapshot snap agg) =
        { Reader.ofSnapshot snap agg with pc := .readHead e } := by
      simp [Reader.step, Reader.ofSnapshot, live]
    rw [isStep]
    exact .step (Reader.look_gets ok.plain rfl (Position.atHead live listed).tail)

end

/-- As long as no failed swap brings back a marked head, a pass leaves the nodes of the
uncollected chain that are not old, and a reader whose snapshot is not before the horizon gets
what it would get from the uncollected chain. -/
theorem pass_preserves_exclusion {pre schedule : List Label} {start begun final : State}
    {nodes nodes' : List Addr} (meets : Run.Meets next Careful initial pre)
    (reached : Run.run next initial pre = some start) (listed : start.store.Listed nodes)
    (visited : next start .visit = some begun)
    (passMeets : Run.Meets next
      (fun s label => Careful s label ∧ s.duringPass label = true) begun schedule)
    (ended : Run.run next begun schedule = some final) (isIdle : final.collector.pc = .idle)
    (listed' : final.store.Listed nodes') :
    (∀ a ∈ uncollected begun schedule nodes, a ∉ nodes' →
      final.store.xminOf a < start.collector.oldestXmin) ∧
    (∀ a ∈ nodes, start.store.xminOf a < start.collector.oldestXmin → a ∉ nodes') ∧
    ∀ typ data snap agg, prepareSnapshotForSampling data = some snap →
      start.collector.oldestXmin ≤ snap.xmin →
      (∀ a ∈ uncollected begun schedule nodes, Serial.Near (final.store.xminOf a) snap.xmin) →
      (Reader.ofSnapshot snap agg).Gets typ final.store
        (excludeAggInSnapshot typ (some snap) agg
          (final.store.versions (uncollected begun schedule nodes))) := by
  have inv : StateInv start := Run.invariant StateInv next_inv initial_inv meets reached
  have isVisit := next_move visited
  have begins : PassInv start.collector.oldestXmin nodes begun := by
    cases isVisit with
    | visit live isIdle =>
      have quiet : Careful start .visit := careful_of_quiet rfl nofun
      refine ⟨next_inv inv quiet visited, rfl, fun a mem => ?_, ?_, Or.inl rfl⟩
      · exact inv.chain a ⟨nodes, listed, mem⟩
      · exact ⟨nodes, [], listed, by simp, by simp⟩
  obtain ⟨inv', -, -, ⟨remaining, old, isListed, isSplit, isOld⟩, phase⟩ :=
    begins.run passMeets ended
  cases listed'.unique isListed
  have noOld : NoOld final.store start.collector.oldestXmin := by
    rw [isIdle] at phase
    simpa [GcPc.searching, GcPc.unlinked] using phase
  refine ⟨?_, ?_, ?_⟩
  · intro a mem unlinked
    rw [isSplit] at mem
    rcases mem_append.mp mem with inChain | inOld
    · exact absurd inChain unlinked
    · exact isOld a inOld
  · intro a mem pre inChain
    have sameXmin : final.store.xminOf a = begun.store.xminOf a :=
      run_published begins.inv (passMeets.mono And.left) ended (begins.published a mem)
    have sameStore : begun.store = start.store := by
      cases isVisit
      rfl
    rw [sameStore] at sameXmin
    have recent := noOld a ⟨_, listed', inChain⟩
    rw [sameXmin] at recent
    exact absurd pre (recent.not_gt)
  · intro typ data snap agg _ notBefore near
    have isAppend : final.store.versions (uncollected begun schedule nodes) =
        final.store.versions nodes' ++ final.store.versions old := by
      rw [isSplit]
      exact map_append ..
    have same : excludeAggInSnapshot typ (some snap) agg (final.store.versions nodes') =
        excludeAggInSnapshot typ (some snap) agg
          (final.store.versions (uncollected begun schedule nodes)) := by
      rw [isAppend]
      apply (excludeLoop_append_old _ _ _).symm
      intro version mem
      obtain ⟨a, inOld, rfl⟩ := mem_map.mp mem
      have inFull : a ∈ uncollected begun schedule nodes := by
        rw [isSplit]
        exact mem_append_right _ inOld
      have compare : normalTransactionIdPrecedes (final.store.xminOf a) snap.xmin =
          decide (final.store.xminOf a < snap.xmin) := Serial.precedes_ofNat (near a inFull)
      rw [compare]
      exact decide_eq_true ((isOld a inOld).trans_le notBefore)
    rw [← same]
    exact Reader.ofSnapshot_gets inv'.store listed' snap agg

/-- A chain with an old node, and the horizon of the pass to come. -/
def withOldNode : List Label :=
  .replace 0 [(7, 20), (5, 10)] :: steps 0 3 ++ [.pass 6]

def passBegun : State := Run.last next initial (withOldNode ++ [.visit])

/-- A node is linked while the head is marked, and the old node is unlinked behind it. -/
def linksWhileMarked : List Label :=
  .insert 1 9 :: .gc :: .gc :: steps 1 2 ++ [.gc, .gc] ++ steps 1 2 ++ replicate 4 .gc

def linksWhileMarkedEnd : State := Run.last next passBegun linksWhileMarked

theorem linksWhileMarked_preserves :
    uncollected passBegun linksWhileMarked [1, 0] = [2, 1, 0] ∧
      linksWhileMarkedEnd.store.Listed [2, 1] ∧
      (Reader.ofSnapshot ⟨7, 10, [9, 7]⟩ 50).Gets .int8 linksWhileMarkedEnd.store 30 := by
  have reached : Run.run next initial withOldNode = some (Run.last next initial withOldNode) :=
    Run.run_last (by decide)
  have listed : (Run.last next initial withOldNode).store.Listed [1, 0] := ⟨rfl, rfl, rfl⟩
  have listed' : linksWhileMarkedEnd.store.Listed [2, 1] := ⟨rfl, rfl, rfl⟩
  have visited : next (Run.last next initial withOldNode) .visit = some passBegun := rfl
  have ended : Run.run next passBegun linksWhileMarked = some linksWhileMarkedEnd :=
    Run.run_last (by decide)
  have full : uncollected passBegun linksWhileMarked [1, 0] = [2, 1, 0] := by decide
  obtain ⟨-, -, same⟩ := pass_preserves_exclusion (by decide) reached listed visited (by decide)
    ended (by decide) listed'
  have gets := same .int8 (some ⟨true, 6, 10, [7, 9], [], false⟩) ⟨7, 10, [9, 7]⟩ 50 (by decide)
    (by decide) (by decide)
  have isThirty : excludeAggInSnapshot .int8 (some ⟨7, 10, [9, 7]⟩) 50
      (linksWhileMarkedEnd.store.versions [2, 1, 0]) = 30 := by decide
  rw [full, isThirty] at gets
  exact ⟨full, listed', gets⟩

/-- The head is marked between the look and the swap of an insertion, which makes its swap
again with the marked pointer; then the pass goes on. -/
def marksBeforeSwap : List Label :=
  .insert 1 9 :: steps 1 3 ++ [.gc, .gc] ++ steps 1 3 ++ replicate 5 .gc

/-- The node of 9 leads to that of 7 by a marked pointer, so a reader takes the upper half of 7
for its id, stops there, and keeps a version that it has to subtract. -/
theorem marksBeforeSwap_misses : Run.run next initial (withOldNode ++ [.visit]) = some passBegun ∧
    Run.Meets next (fun s label => NearIds s label ∧ s.duringPass label = true) passBegun
      marksBeforeSwap ∧
    uncollected passBegun marksBeforeSwap [1, 0] = [2, 1, 0] ∧
    ∃ final, Run.run next passBegun marksBeforeSwap = some final ∧
      final.collector.pc = .idle ∧ final.store.freed = [0] ∧
      final.store.read (.node 2) = ⟨some 1, true⟩ ∧
      excludeAggInSnapshot .int8 (some ⟨7, 10, [9, 7]⟩) 50 (final.store.versions [2, 1, 0]) = 30 ∧
      (Reader.ofSnapshot ⟨7, 10, [9, 7]⟩ 50).Gets .int8 final.store 50 := by
  have ended : Run.run next passBegun marksBeforeSwap =
      some (Run.last next passBegun marksBeforeSwap) := Run.run_last (by decide)
  exact ⟨Run.run_last (by decide), by decide, by decide, _, ended, by decide, by decide, by decide,
    by decide, 4, by decide, by decide⟩

end PgAqp.VersionStore
