import PgAqp.VersionStore.Insertion

/-!
# Replacing the chain

The backend that replaces a chain holds the page lock in exclusive mode, so only
the collector works on the chain with it.  Its new chain is private until the
swap of the head installs it.  The swap expects a head without a mark, hence it
never takes a chain away from the collector.
-/

namespace PgAqp.VersionStore

open Hash (Ptr Addr rawptr)
open Library Function List Store

/-- A finished chain that only its owner can reach. -/
structure Private (st : Store) (head : Ptr) (nodes : List Addr) : Prop where
  plain : head.marked = false
  listed : Segment st.linkOf head.node nodes none
  descending : st.Descending nodes
  allocated : ∀ a ∈ nodes, a < st.freshNode
  hidden : ∀ a ∈ nodes, ¬ st.InChain a

/-- The assertion of every program point of a replacement. -/
def ReplaceOk (st : Store) (f : ReplaceFrame) : Prop :=
  match f.pc with
  | .findHead => Private st f.newHead f.newNodes
  | .readHead => Private st f.newHead f.newNodes ∧ f.headPtr < st.freshEntry
  | .swap => Private st f.newHead f.newNodes ∧ f.headPtr < st.freshEntry ∧
      f.head.marked = false
  | .deleteChain => f.newNodes = [] ∧ ∃ a, f.head = .ofNode a

inductive ReplaceAccess (st : Store) (f : ReplaceFrame) : Store → Prop where
  | quiet : ReplaceAccess st f st
  | entered : ReplaceAccess st f st.hashEnter.2
  | installed {e : EntryId} (live : st.entry = some e)
      (unmarked : (st.heads e).marked = false)
      (isPrivate : Private st f.newHead f.newNodes) :
      ReplaceAccess st f (st.write (.head e) f.newHead)
  | freed (a : Addr) : ReplaceAccess st f (st.free a)

structure ReplaceStepOk (st : Store) (f : ReplaceFrame) (res : Store × Thread) :
    Prop where
  access : ReplaceAccess st f res.1
  goesOn : ∀ f', res.2 = .replacing f' → ReplaceOk res.1 f' ∧
    ∀ a ∈ f'.newNodes, a ∈ f.newNodes
  ends : res.2 = .idle ∨ ∃ f', res.2 = .replacing f'

section

variable {st st' : Store} {head : Ptr} {nodes : List Addr}

theorem ReplaceOk.owned (ok : ReplaceOk st f) (mem : a ∈ f.newNodes) :
    a < st.freshNode ∧ ¬ st.InChain a := by
  unfold ReplaceOk at ok
  split at ok
  · exact ⟨ok.allocated a mem, ok.hidden a mem⟩
  · exact ⟨ok.1.allocated a mem, ok.1.hidden a mem⟩
  · exact ⟨ok.1.allocated a mem, ok.1.hidden a mem⟩
  · rw [ok.1] at mem
    cases mem

theorem GcAccess.inChain (access : GcAccess st oldestXmin st') (ok : StoreOk st)
    (inChain : st'.InChain a) : st.InChain a := by
  obtain ⟨nodes, listed, -⟩ := ok.listed
  obtain ⟨kept, dropped, rfl, listed', -⟩ := access.listed ok listed
  have mem := listed'.inChain_iff.mp inChain
  exact listed.inChain_iff.mpr (mem_append_left _ mem)

theorem GcAccess.linkOf_hidden (access : GcAccess st oldestXmin st')
    (hidden : ¬ st.InChain a) : st'.linkOf (.node a) = st.linkOf (.node a) := by
  cases access with
  | quiet => rfl
  | remarked live sameNode =>
    rw [linkOf_write]
    exact update_of_ne (by simp) _ _
  | cut pos old =>
    rw [linkOf_write]
    apply update_of_ne
    rintro rfl
    rcases pos.link_cases with atHead | ⟨node, mem, atNode⟩
    · cases atHead
    · cases atNode
      exact hidden ⟨_, pos.listed, mem_append_left _ mem⟩
  | freed a => rfl
  | removed live deleted => rfl

theorem Private.congr (isPrivate : Private st head nodes)
    (links : ∀ a ∈ nodes, st'.linkOf (.node a) = st.linkOf (.node a))
    (xmins : ∀ a, st'.xminOf a = st.xminOf a) (fresh : st'.freshNode = st.freshNode)
    (inChain : ∀ a, st'.InChain a → st.InChain a) : Private st' head nodes where
  plain := isPrivate.plain
  listed := Segment.congr links isPrivate.listed
  descending := isPrivate.descending.congr fun a _ => xmins a
  allocated := by
    rw [fresh]
    exact isPrivate.allocated
  hidden a mem isIn := isPrivate.hidden a mem (inChain a isIn)

theorem Private.stable (access : GcAccess st oldestXmin st') (ok : StoreOk st)
    (isPrivate : Private st head nodes) : Private st' head nodes := by
  apply isPrivate.congr _ access.xminOf access.fresh.1 fun a => access.inChain ok
  intro a mem
  exact access.linkOf_hidden (isPrivate.hidden a mem)

/-- What a replacement knows depends on its private chain and on the entries. -/
theorem ReplaceOk.congr (replaceOk : ReplaceOk st f)
    (stays : Private st f.newHead f.newNodes → Private st' f.newHead f.newNodes)
    (fresh : st'.freshEntry = st.freshEntry) : ReplaceOk st' f := by
  unfold ReplaceOk at replaceOk ⊢
  rw [fresh]
  split at replaceOk
  · exact stays replaceOk
  · exact ⟨stays replaceOk.1, replaceOk.2⟩
  · exact ⟨stays replaceOk.1, replaceOk.2⟩
  · exact replaceOk

theorem ReplaceOk.stable (access : GcAccess st oldestXmin st') (ok : StoreOk st)
    (replaceOk : ReplaceOk st f) : ReplaceOk st' f :=
  replaceOk.congr (Private.stable access ok) access.fresh.2

end

section

variable {st : Store} {a : Addr}

theorem Private.hashEnter {head : Ptr} {nodes : List Addr} (ok : StoreOk st)
    (isPrivate : Private st head nodes) : Private st.hashEnter.2 head nodes := by
  obtain ⟨chain, listed, -⟩ := ok.listed
  have listed' := StoreOk.listed_hashEnter listed
  have sameNodes := st.hashEnter_nodes
  apply isPrivate.congr _ _ sameNodes.2
  · intro a inChain
    exact listed.inChain_iff.mpr (listed'.inChain_iff.mp inChain)
  · intro a _
    simp only [Store.linkOf, Store.read, sameNodes.1]
  · intro a
    simp only [xminOf, sameNodes.1]

theorem replace_findHead_ok (ok : StoreOk st) (replaceOk : ReplaceOk st f)
    (atPc : f.pc = .findHead) : ReplaceStepOk st f (replaceStep st f) := by
  simp only [ReplaceOk, atPc] at replaceOk
  simp only [replaceStep, atPc]
  split
  · split
    · exact ⟨.quiet, by simp, .inl rfl⟩
    next e live =>
      refine ⟨.quiet, ?_, .inr ⟨_, rfl⟩⟩
      rintro _ ⟨⟩
      exact ⟨⟨replaceOk, ok.entryOld live⟩, fun _ => id⟩
  · refine ⟨.entered, ?_, .inr ⟨_, rfl⟩⟩
    rintro _ ⟨⟩
    exact ⟨⟨replaceOk.hashEnter ok, ok.hashEnter.entryOld (StoreOk.hashEnter_entry st)⟩,
      fun _ => id⟩

theorem replace_look_ok (head : Ptr) (isPrivate : Private st f.newHead f.newNodes)
    (old : f.headPtr < st.freshEntry) :
    ReplaceStepOk st f (st, ReplaceFrame.look { f with head := head }) := by
  unfold ReplaceFrame.look
  split
  · split
    · exact ⟨.quiet, by simp, .inl rfl⟩
    · refine ⟨.quiet, ?_, .inr ⟨_, rfl⟩⟩
      rintro _ ⟨⟩
      exact ⟨isPrivate, fun _ => id⟩
  · split
    · refine ⟨.quiet, ?_, .inr ⟨_, rfl⟩⟩
      rintro _ ⟨⟩
      exact ⟨⟨isPrivate, old⟩, fun _ => id⟩
    next notMarked =>
      refine ⟨.quiet, ?_, .inr ⟨_, rfl⟩⟩
      rintro _ ⟨⟩
      exact ⟨⟨isPrivate, old, by simpa using notMarked⟩, fun _ => id⟩

theorem replace_swap_ok (ok : StoreOk st) (replaceOk : ReplaceOk st f)
    (atPc : f.pc = .swap) : ReplaceStepOk st f (replaceStep st f) := by
  simp only [ReplaceOk, atPc] at replaceOk
  obtain ⟨isPrivate, old, unmarked⟩ := replaceOk
  simp only [replaceStep, atPc]
  split
  next found =>
    have isUnmarked : (st.heads f.headPtr).marked = false := by rwa [found]
    have live : st.entry = some f.headPtr := by
      apply ok.live_of_head old
      intro deleted
      rw [deleted] at isUnmarked
      cases isUnmarked
    have access := ReplaceAccess.installed live isUnmarked isPrivate
    split
    · exact ⟨access, by simp, .inl rfl⟩
    next notNull =>
      refine ⟨access, ?_, .inr ⟨_, rfl⟩⟩
      rintro _ ⟨⟩
      exact ⟨⟨rfl, plain_node unmarked notNull⟩, by simp⟩
  · have looks := replace_look_ok (st.heads f.headPtr) isPrivate old
    simpa only [atPc] using looks

theorem replace_deleteChain_ok (ok : StoreOk st) (replaceOk : ReplaceOk st f)
    (atPc : f.pc = .deleteChain) : ReplaceStepOk st f (replaceStep st f) := by
  simp only [ReplaceOk, atPc] at replaceOk
  obtain ⟨noNodes, a, isHead⟩ := replaceOk
  have isRaw : rawptr f.head = some a := by
    rw [isHead]
    rfl
  simp only [replaceStep, atPc, isRaw]
  split
  · exact ⟨.freed a, by simp, .inl rfl⟩
  next notNull =>
    refine ⟨.freed a, ?_, .inr ⟨_, rfl⟩⟩
    rintro _ ⟨⟩
    refine ⟨?_, fun _ => id⟩
    exact ⟨noNodes, plain_node (ok.plain a) notNull⟩

theorem replaceStep_ok (ok : StoreOk st) (replaceOk : ReplaceOk st f) :
    ReplaceStepOk st f (replaceStep st f) := by
  cases atPc : f.pc with
  | findHead => exact replace_findHead_ok ok replaceOk atPc
  | readHead =>
    simp only [ReplaceOk, atPc] at replaceOk
    simp only [replaceStep, atPc]
    have looks := replace_look_ok (st.heads f.headPtr) replaceOk.1 replaceOk.2
    simpa only [atPc] using looks
  | swap => exact replace_swap_ok ok replaceOk atPc
  | deleteChain => exact replace_deleteChain_ok ok replaceOk atPc

end

section

variable {st : Store} {versions : List (Xid × Nat)}

/-- The addresses of the nodes of a new chain, in link order. -/
def newAddrs (st : Store) (versions : List (Xid × Nat)) : List Addr :=
  (range' st.freshNode versions.length).reverse

theorem newAddrs_cons (version : Xid × Nat) : newAddrs st (version :: versions) =
      (st.freshNode + versions.length) :: newAddrs st versions := by
  simp [newAddrs, range'_1_concat]

theorem mem_newAddrs (mem : a ∈ newAddrs st versions) :
    st.freshNode ≤ a ∧ a < st.freshNode + versions.length := by
  simpa [newAddrs, mem_range'_1] using mem

structure Allocated (st : Store) (versions : List (Xid × Nat)) (res : Store × Ptr) :
    Prop where
  agrees : Agrees st res.1
  freshNode : res.1.freshNode = st.freshNode + versions.length
  kept : ∀ a ∉ newAddrs st versions, res.1.nodes a = st.nodes a
  plain : res.2.marked = false
  listed : Segment res.1.linkOf res.2.node (newAddrs st versions) none
  versions : res.1.versions (newAddrs st versions) = versions

/-- The last node to be allocated is the head of the new chain. -/
theorem allocChain_ok (ok : StoreOk st) : Allocated st versions (st.allocChain versions) := by
  induction versions with
  | nil => exact ⟨Agrees.refl ok, rfl, fun _ _ => rfl, rfl, rfl, rfl⟩
  | cons version rest ih =>
    obtain ⟨agrees, freshNode, kept, plain, listed, restVersions⟩ := ih
    have restOk := agrees.ok ok
    have older : ∀ a ∈ newAddrs st rest, a ≠ st.freshNode + rest.length := by
      intro a mem
      exact Nat.ne_of_lt (mem_newAddrs mem).2
    have last : Agrees (st.allocChain rest).1 (st.allocChain (version :: rest)).1 :=
      Agrees.alloc restOk plain
    have others : ∀ a ∈ newAddrs st rest,
        (st.allocChain (version :: rest)).1.nodes a = (st.allocChain rest).1.nodes a := by
      intro a mem
      simp [allocChain, alloc, freshNode, older a mem]
    have new : (st.allocChain (version :: rest)).1.nodes (st.freshNode + rest.length) =
        ⟨version.1, (st.allocChain rest).2, version.2⟩ := by
      simp [allocChain, alloc, freshNode]
    refine ⟨agrees.trans last, ?_, ?_, rfl, ?_, ?_⟩
    · simp [allocChain, alloc, freshNode, Nat.add_assoc]
    · intro a notNew
      rw [newAddrs_cons, mem_cons, not_or] at notNew
      simpa [allocChain, alloc, freshNode, notNew.1] using kept a notNew.2
    · rw [newAddrs_cons]
      refine Segment.cons_iff.mpr ⟨?_, ?_⟩
      · simp [allocChain, Ptr.ofNode, freshNode]
      · rw [Store.linkOf, Store.read, new]
        apply Segment.congr _ listed
        intro a mem
        simp only [Store.linkOf, Store.read, others a mem]
    · rw [newAddrs_cons, Store.versions, map_cons]
      refine congrArg₂ cons (by rw [xminOf, new]) (Eq.trans ?_ restVersions)
      apply map_congr_left
      intro a mem
      simp only [xminOf, others a mem]

theorem descending_pairwise (ordered : descending versions) :
    (versions.map Prod.fst).Pairwise fun first second => second < first := by
  induction versions with
  | nil => exact List.Pairwise.nil
  | cons first rest ih =>
    cases rest with
    | nil => simp
    | cons second rest =>
      simp only [descending, Bool.and_eq_true, decide_eq_true_eq] at ordered
      have pairwise := ih ordered.2
      refine pairwise_cons.mpr ⟨?_, pairwise⟩
      intro xid mem
      rcases mem_cons.mp mem with rfl | inRest
      · exact ordered.1
      · exact Nat.lt_trans ((pairwise_cons.mp pairwise).1 xid inRest) ordered.1

theorem Allocated.isPrivate (ok : StoreOk st)
    (allocated : Allocated st versions res) (ordered : descending versions) :
    Private res.1 res.2 (newAddrs st versions) where
  plain := allocated.plain
  listed := allocated.listed
  descending := by
    have pairwise := descending_pairwise ordered
    rw [← allocated.versions, Store.versions, map_map] at pairwise
    exact pairwise_map.mp pairwise
  allocated a mem := by
    rw [allocated.freshNode]
    exact (mem_newAddrs mem).2
  hidden a mem inChain := by
    obtain ⟨nodes, listed, inNodes⟩ := (allocated.agrees.inChain_iff ok).mp inChain
    have old := (ok.nodes_nodup listed).2.2 a inNodes
    exact absurd old ((mem_newAddrs mem).1.not_gt)

end

namespace ReplaceAccess

variable {st st' : Store} {f : ReplaceFrame} {oldestXmin : Xid} {nodes : List Addr} {a : Addr}
  (access : ReplaceAccess st f st')
include access

theorem ok (ok : StoreOk st) : StoreOk st' := by
  cases access with
  | quiet => exact ok
  | entered => exact ok.hashEnter
  | installed live unmarked isPrivate =>
    obtain ⟨nodes, listed, -⟩ := ok.listed
    exact ok.write (Position.atHead live listed) (by simp) isPrivate.listed isPrivate.descending
      isPrivate.allocated
  | freed a => exact (Agrees.free ok a).ok ok

theorem listed (ok : StoreOk st)
    (listed : st.Listed nodes) : st'.Listed nodes ∨ st'.Listed f.newNodes := by
  cases access with
  | quiet => exact .inl listed
  | entered => exact .inl (StoreOk.listed_hashEnter listed)
  | installed live unmarked isPrivate =>
    exact .inr (ok.listed_write (Position.atHead live listed) isPrivate.listed (by simp))
  | freed a => exact .inl ((Agrees.free ok a).listed listed)

theorem inChain (ok : StoreOk st) (inChain : st'.InChain a) : st.InChain a ∨ a ∈ f.newNodes := by
  obtain ⟨nodes, isListed, -⟩ := ok.listed
  rcases access.listed ok isListed with same | installed
  · exact .inl (isListed.inChain_iff.mpr (same.inChain_iff.mp inChain))
  · exact .inr (installed.inChain_iff.mp inChain)

theorem xminOf (a : Addr) : st'.xminOf a = st.xminOf a := by
  cases access with
  | quiet => rfl
  | entered => rw [xminOf, st.hashEnter_nodes.1, xminOf]
  | installed => exact xminOf_write
  | freed => rfl

theorem deltaVal (a : Addr) : (st'.nodes a).deltaVal = (st.nodes a).deltaVal := by
  cases access with
  | quiet => rfl
  | entered => rw [st.hashEnter_nodes.1]
  | installed => exact deltaVal_write
  | freed => rfl

theorem freshNode : st'.freshNode = st.freshNode := by
  cases access with
  | quiet => rfl
  | entered => exact st.hashEnter_nodes.2
  | installed => exact freshNode_write
  | freed => rfl

theorem others (ok : StoreOk st) : Others oldestXmin st st' := by
  cases access with
  | quiet => exact Others.ofAgrees (Agrees.refl ok)
  | entered => exact Others.hashEnter st
  | freed a => exact Others.ofAgrees (Agrees.free ok a)
  | @installed e live unmarked isPrivate =>
    have offMark : ∀ {other}, st.entry = some other → (st.heads other).marked ≠ true := by
      intro other live'
      cases live.symm.trans live'
      simp [unmarked]
    refine ⟨by simp, by simp, ?_, ?_, ?_, ?_, ?_⟩
    · intro other live'
      cases live.symm.trans live'
      rw [unmarked, ← isPrivate.plain]
      simp [write]
    · intro other live' deleted
      refine absurd ?_ (offMark live')
      rw [deleted]
      rfl
    · intro dead
      cases dead.symm.trans live
    · exact fun live' marked => absurd marked (offMark live')
    · exact fun live' marked => absurd marked (offMark live')

end ReplaceAccess

end PgAqp.VersionStore
