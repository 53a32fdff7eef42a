import PgAqp.VersionStore.Chain

/-!
# The garbage collector

While the collector works on an entry the head of the chain is marked by it.
It stands at a node of the chain with no old node in front of it, and when its swap
succeeds, everything that the swap drops is old.
-/

namespace PgAqp.VersionStore

open Hash (Ptr Addr rawptr)
open Library List Option Store Collector

variable (st : Store) (gc : Collector)

def NoMark : Prop :=
  ∀ e, st.entry = some e → (st.heads e).marked = false

structure Collecting (st : Store) (gc : Collector) (front : List Addr) (a : Addr)
    (back : List Addr) : Prop where
  live : st.entry = some gc.headPtr
  marked : (st.heads gc.headPtr).marked = true
  listed : st.Listed (front ++ a :: back)
  recent : ∀ node ∈ front, gc.oldestXmin ≤ st.xminOf node

/-- The link that the collector would swing is the head or belongs to a node it has passed. -/
def LinkIn (front : List Addr) : Prop :=
  gc.curPtr = .head gc.headPtr ∨ ∃ node ∈ front, gc.curPtr = .node node

/-- The old nodes to be freed, if there are any, start with a plain pointer. -/
def Freeable : Prop :=
  gc.deletable = Ptr.null ∨ ∃ a, gc.deletable = .ofNode a

/-- The assertion of every program point of the collector. -/
def GcAt : Prop :=
  match gc.pc with
  | .idle => NoMark st
  | .readHead => NoMark st ∧ st.entry = some gc.headPtr
  | .markHead => NoMark st ∧ st.entry = some gc.headPtr ∧ ∃ a, gc.head = .ofNode a
  | .walk => ∃ front a back, gc.cur = .ofNode a ∧ Collecting st gc front a back ∧
      LinkIn gc front
  | .unlink => ∃ front a back, gc.deletable = .ofNode a ∧
      Collecting st gc front a back ∧ LinkIn gc front ∧
      st.xminOf a < gc.oldestXmin ∧
      (gc.curPtr ≠ .head gc.headPtr → gc.cur = gc.deletable)
  | .refind => ∃ front a back, gc.deletable = .ofNode a ∧
      Collecting st gc front a back ∧ st.xminOf a < gc.oldestXmin ∧
      ∃ node ∈ front, gc.cur = .ofNode node
  | .rereadHead => st.entry = some gc.headPtr ∧ Freeable gc
  | .unmarkHead => st.entry = some gc.headPtr ∧
      (st.heads gc.headPtr).marked = true ∧ gc.head.marked = true ∧ Freeable gc
  | .deleteChain => NoMark st ∧ ∃ a, gc.head = .ofNode a
  | .tryRead => NoMark st
  | .tryMark => NoMark st
  | .tryRemove => ∃ e rest, gc.maybeDeletable = e :: rest ∧ st.entry = some e ∧
      st.heads e = deletedChainHead
  | .crashed => False

/-- What the collector knows between two of its steps. -/
structure GcOk (st : Store) (gc : Collector) : Prop where
  maybe : ∀ e ∈ gc.maybeDeletable, e < st.freshEntry
  here : GcAt st gc

def Grown (oldestXmin : Xid) (nodes nodes' : List Addr) : Prop :=
  nodes' = nodes ∨ ∃ front back new, nodes = front ++ back ∧ nodes' = front ++ new :: back ∧
    oldestXmin ≤ st.xminOf new

theorem Grown.split {oldestXmin : Xid} (grown : Grown st oldestXmin (front ++ a :: back) nodes') :
    ∃ front' back', nodes' = front' ++ a :: back' ∧ (∀ node ∈ front, node ∈ front') ∧
      ∀ node ∈ front', node ∈ front ∨ oldestXmin ≤ st.xminOf node := by
  rcases grown with rfl | ⟨left, right, new, isOld, rfl, recent⟩
  · exact ⟨front, back, rfl, fun _ => id, fun _ => .inl⟩
  · rcases append_eq_append_iff.mp isOld with ⟨more, rfl, isRight⟩ | ⟨more, rfl, isBack⟩
    · cases more with
      | nil =>
        subst isRight
        refine ⟨front ++ [new], back, by simp, fun node mem => by simp [mem], ?_⟩
        intro node mem
        rcases mem_append.mp mem with old | isNew
        · exact .inl old
        · rw [mem_singleton.mp isNew]
          exact .inr recent
      | cons first rest =>
        obtain ⟨rfl, rfl⟩ := cons.inj isRight
        exact ⟨front, rest ++ new :: right, by simp, fun _ => id, fun _ => .inl⟩
    · subst isBack
      refine ⟨left ++ new :: more, back, by simp, fun node mem => ?_, fun node mem => ?_⟩
      · rcases mem_append.mp mem with inLeft | inMore
        · simp [inLeft]
        · simp [inMore]
      · rcases mem_append.mp mem with inLeft | inMore
        · exact .inl (by simp [inLeft])
        · rcases mem_cons.mp inMore with rfl | inMore
          · exact .inr recent
          · exact .inl (by simp [inMore])

/-- What the backends may do to the store while the collector is at work. -/
structure Others (oldestXmin : Xid) (st st' : Store) : Prop where
  freshEntry : st.freshEntry ≤ st'.freshEntry
  live : ∀ {e}, st.entry = some e → st'.entry = some e
  mark : ∀ {e}, st.entry = some e →
    (st'.heads e).marked = (st.heads e).marked
  deleted : ∀ {e}, st.entry = some e → st.heads e = deletedChainHead →
    st'.heads e = deletedChainHead
  unmarked : st.entry = none → NoMark st'
  listed : ∀ {e nodes}, st.entry = some e → (st.heads e).marked = true →
    st.Listed nodes → ∃ nodes', st'.Listed nodes' ∧ Grown st' oldestXmin nodes nodes'
  xmin : ∀ {e a}, st.entry = some e → (st.heads e).marked = true →
    st.InChain a → st'.xminOf a = st.xminOf a

namespace Others

variable {st : Store} {oldestXmin : Xid}

theorem ofAgrees (agrees : Agrees st st') : Others oldestXmin st st' where
  freshEntry := Nat.le_of_eq agrees.freshEntry.symm
  live live := agrees.entry.trans live
  mark _ := by rw [agrees.heads]
  deleted _ isDeleted := by rwa [agrees.heads]
  unmarked dead e live := by
    rw [agrees.entry, dead] at live
    cases live
  listed _ _ listed := ⟨_, agrees.listed listed, .inl rfl⟩
  xmin _ _ inChain := agrees.xminOf inChain

theorem hashEnter (st : Store) : Others oldestXmin st st.hashEnter.2 := by
  cases live : st.entry with
  | some e =>
    have same : st.hashEnter.2 = st := by simp [Store.hashEnter, live]
    rw [same]
    refine ⟨le_rfl, id, fun _ => rfl, fun _ => id, ?_, ?_, fun _ _ _ => rfl⟩
    · intro dead
      cases dead.symm.trans live
    · exact fun _ _ listed => ⟨_, listed, .inl rfl⟩
  | none =>
    have noEntry : ∀ {e}, st.entry ≠ some e := by simp [live]
    refine ⟨?_, (absurd · noEntry), (absurd · noEntry), (absurd · noEntry), ?_,
      (absurd · noEntry), (absurd · noEntry)⟩
    · simp [Store.hashEnter, live]
    · rintro - e isNew
      simp only [Store.hashEnter, live, some.injEq] at isNew
      simp [Store.hashEnter, live, isNew, Ptr.null]

end Others

section

variable {st : Store} {gc : Collector}

theorem NoMark.stable (others : Others gc.oldestXmin st st') (noMark : NoMark st) : NoMark st' := by
  cases live : st.entry with
  | none => exact others.unmarked live
  | some e =>
    intro e' live'
    cases (others.live live).symm.trans live'
    rw [others.mark live]
    exact noMark e live

theorem Collecting.inChain (collecting : Collecting st gc front a back)
    (mem : node ∈ front ++ a :: back) : st.InChain node :=
  ⟨_, collecting.listed, mem⟩

theorem Collecting.xmin_stable (others : Others gc.oldestXmin st st')
    (collecting : Collecting st gc front a back) : st'.xminOf a = st.xminOf a :=
  others.xmin collecting.live collecting.marked (collecting.inChain (by simp))

theorem Collecting.stable (others : Others gc.oldestXmin st st')
    (collecting : Collecting st gc front a back) :
    ∃ front' back', Collecting st' gc front' a back' ∧ ∀ node ∈ front, node ∈ front' := by
  obtain ⟨nodes', listed', grown⟩ := others.listed collecting.live collecting.marked collecting.listed
  obtain ⟨front', back', rfl, keeps, recent⟩ := grown.split
  refine ⟨front', back', ⟨others.live collecting.live, ?_, listed', ?_⟩, keeps⟩
  · rw [others.mark collecting.live]
    exact collecting.marked
  · intro node mem
    rcases recent node mem with old | new
    · rw [others.xmin collecting.live collecting.marked (collecting.inChain (by simp [old]))]
      exact collecting.recent node old
    · exact new

theorem LinkIn.mono (keeps : ∀ node ∈ front, node ∈ front')
    (linkIn : LinkIn gc front) : LinkIn gc front' := by
  rcases linkIn with atHead | ⟨node, mem, atNode⟩
  · exact .inl atHead
  · exact .inr ⟨node, keeps node mem, atNode⟩

theorem GcOk.stable (others : Others gc.oldestXmin st st') (ok : GcOk st gc) : GcOk st' gc where
  maybe e mem := Nat.lt_of_lt_of_le (ok.maybe e mem) others.freshEntry
  here := by
    have here := ok.here
    unfold GcAt at here ⊢
    split at here
    · exact here.stable others
    · exact ⟨here.1.stable others, others.live here.2⟩
    · exact ⟨here.1.stable others, others.live here.2.1, here.2.2⟩
    · obtain ⟨front, a, back, isCur, collecting, linkIn⟩ := here
      obtain ⟨front', back', collecting', keeps⟩ := collecting.stable others
      exact ⟨front', a, back', isCur, collecting', linkIn.mono keeps⟩
    · obtain ⟨front, a, back, isDeletable, collecting, linkIn, old, isCur⟩ := here
      obtain ⟨front', back', collecting', keeps⟩ := collecting.stable others
      refine ⟨front', a, back', isDeletable, collecting', linkIn.mono keeps, ?_, isCur⟩
      rwa [collecting.xmin_stable others]
    · obtain ⟨front, a, back, isDeletable, collecting, old, node, mem, isCur⟩ := here
      obtain ⟨front', back', collecting', keeps⟩ := collecting.stable others
      refine ⟨front', a, back', isDeletable, collecting', ?_, node, keeps node mem, isCur⟩
      rwa [collecting.xmin_stable others]
    · exact ⟨others.live here.1, here.2⟩
    · refine ⟨others.live here.1, ?_, here.2.2⟩
      rw [others.mark here.1]
      exact here.2.1
    · exact ⟨here.1.stable others, here.2⟩
    · exact here.stable others
    · exact here.stable others
    · obtain ⟨e, rest, isFirst, live, deleted⟩ := here
      exact ⟨e, rest, isFirst, others.live live, others.deleted live deleted⟩
    · exact here

end

inductive GcAccess (st : Store) (oldestXmin : Xid) : Store → Prop where
  | quiet : GcAccess st oldestXmin st
  | remarked {e : EntryId} {ptr : Ptr} (live : st.entry = some e)
      (sameNode : ptr.node = st.linkOf (.head e)) :
      GcAccess st oldestXmin (st.write (.head e) ptr)
  | cut {e : EntryId} {link : Link} {front back : List Addr}
      (position : Position st e link front back)
      (old : ∀ a ∈ back, st.xminOf a < oldestXmin) :
      GcAccess st oldestXmin (st.write link Ptr.null)
  | freed (a : Addr) : GcAccess st oldestXmin (st.free a)
  | removed {e : EntryId} (live : st.entry = some e)
      (deleted : st.heads e = deletedChainHead) :
      GcAccess st oldestXmin st.hashRemove

/-- The ids that the collector compares lie less than half the range apart. -/
def GcNear : Prop :=
  gc.pc = .walk → ∀ a ∈ gc.cur.node, Serial.Near (st.xminOf a) gc.oldestXmin
  deriving Decidable

/-- A step of the collector: what it does, and what it knows afterwards. -/
structure GcStepOk (st : Store) (gc : Collector) (res : Store × Collector) : Prop where
  access : GcAccess st gc.oldestXmin res.1
  known : GcOk res.1 res.2
  oldestXmin : res.2.oldestXmin = gc.oldestXmin

section

variable {st : Store} {gc : Collector} {front back : List Addr} {a : Addr}

theorem plain_node (plain : ptr.marked = false) (notNull : ptr ≠ Ptr.null) :
    ∃ a, ptr = .ofNode a := by
  obtain ⟨node, marked⟩ := ptr
  cases plain
  cases node with
  | none => exact absurd rfl notNull
  | some a => exact ⟨a, rfl⟩

namespace Collecting

variable (collecting : Collecting st gc front a back)
include collecting

theorem behind {next : Addr}
    (linked : st.read (.node a) = .ofNode next) : ∃ rest, back = next :: rest := by
  have whole := (listed_some collecting.live).mp collecting.listed
  obtain ⟨-, behind⟩ := Chain.append_iff.mp whole
  obtain ⟨-, tail⟩ := Segment.cons_iff.mp behind
  rw [linkOf, linked] at tail
  cases back with
  | nil => cases tail
  | cons first rest =>
    cases tail.1
    exact ⟨rest, rfl⟩

theorem nodup (ok : StoreOk st) : (front ++ a :: back).Nodup :=
  (ok.nodes_nodup collecting.listed).2.1

theorem position (ok : StoreOk st)
    (linkIn : LinkIn gc front) (leads : st.linkOf gc.curPtr = some a) :
    Position st gc.headPtr gc.curPtr front (a :: back) := by
  obtain ⟨pre, after, position⟩ : ∃ pre after, Position st gc.headPtr gc.curPtr pre after := by
    rcases linkIn with atHead | ⟨node, mem, atNode⟩
    · rw [atHead]
      exact ⟨[], _, Position.atHead collecting.live collecting.listed⟩
    · rw [atNode]
      obtain ⟨init, after, position⟩ :=
        Position.atNode collecting.live (collecting.inChain (mem_append_left _ mem))
      exact ⟨init ++ [node], after, position⟩
  have same := position.listed.unique collecting.listed
  have isFirst := position.linkOf_eq.symm.trans leads
  cases after with
  | nil => cases isFirst
  | cons first rest =>
    cases isFirst
    obtain ⟨sameFront, sameBack⟩ := split_unique (collecting.nodup ok) same.symm
    rw [sameFront, sameBack]
    exact position

/-- The link that the swap of the collector finds as expected leads to the first old node. -/
theorem expected_position (ok : StoreOk st)
    (linkIn : LinkIn gc front) (isDeletable : gc.deletable = .ofNode a)
    (isCur : gc.curPtr ≠ .head gc.headPtr → gc.cur = gc.deletable)
    (found : st.read gc.curPtr = gc.expected) :
    Position st gc.headPtr gc.curPtr front (a :: back) := by
  apply collecting.position ok linkIn
  rw [linkOf, found]
  unfold expected
  split
  · rw [isDeletable]
    rfl
  next offHead =>
    rw [isCur offHead, isDeletable]
    rfl

/-- The link of a passed node leads to a passed node or to where the collector stands. -/
theorem next_of_passed (ok : StoreOk st) (mem : node ∈ front) :
    ∃ next, st.read (.node node) = .ofNode next ∧ (next = a ∨ next ∈ front) := by
  obtain ⟨init, more, rfl⟩ := append_of_mem mem
  have position : Position st gc.headPtr (.node node) (init ++ [node]) (more ++ a :: back) := by
    refine ⟨collecting.live, ?_, Chain.endCell_snoc _ _ _⟩
    simpa using collecting.listed
  have leads := position.linkOf_eq
  have plain := ok.plain node
  have isNode : ∀ next, st.linkOf (.node node) = some next →
      st.read (.node node) = .ofNode next := by
    intro next linked
    obtain ⟨next', isNext⟩ := plain_node plain (fun isNull => by
      rw [linkOf, isNull] at linked
      cases linked)
    rw [linkOf, isNext] at linked
    cases linked
    exact isNext
  cases more with
  | nil => exact ⟨a, isNode a leads, .inl rfl⟩
  | cons first rest => exact ⟨first, isNode first leads, .inr (by simp)⟩

/-- The head of the marked chain leads to a passed node or to where the collector stands. -/
theorem head_leads :
    ∃ next, st.heads gc.headPtr = (Ptr.ofNode next).mark ∧ (next = a ∨ next ∈ front) := by
  have leads := (Position.atHead collecting.live collecting.listed).linkOf_eq
  have marked := collecting.marked
  cases isHead : st.heads gc.headPtr with
  | mk node mark =>
    rw [Store.linkOf, Store.read, isHead] at leads
    rw [isHead] at marked
    cases marked
    cases front with
    | nil => exact ⟨a, congrArg (Ptr.mk · true) leads, .inl rfl⟩
    | cons first rest => exact ⟨first, congrArg (Ptr.mk · true) leads, .inr (by simp)⟩

end Collecting

theorem lookAtHead_ok (ok : StoreOk st) (maybe : ∀ e ∈ gc.maybeDeletable,
    e < st.freshEntry) (noMark : NoMark st) (live : st.entry = some gc.headPtr) :
    GcStepOk st gc (st, lookAtHead { gc with head := st.heads gc.headPtr }) := by
  unfold lookAtHead
  split
  · refine ⟨.quiet, ⟨fun e mem => ?_, noMark⟩, rfl⟩
    rcases mem_append.mp mem with old | new
    · exact maybe e old
    · rw [mem_singleton.mp new]
      exact ok.entryOld live
  · next notNull => exact ⟨.quiet, ⟨maybe, noMark, live, plain_node (noMark _ live) notNull⟩, rfl⟩

theorem markHead_ok (ok : StoreOk st) (gcOk : GcOk st gc) (atPc : gc.pc = .markHead) :
    GcStepOk st gc (gcStep st gc) := by
  have here := gcOk.here
  simp only [GcAt, atPc] at here
  obtain ⟨noMark, live, a, isHead⟩ := here
  simp only [gcStep, atPc]
  split
  next same =>
    have sameNode : gc.head.mark.node = st.linkOf (.head gc.headPtr) := by
      rw [Store.linkOf, Store.read, same]
      rfl
    obtain ⟨nodes, listed, -⟩ := ok.listed
    have isFirst := (Position.atHead live listed).linkOf_eq
    rw [← sameNode, isHead] at isFirst
    refine ⟨.remarked live sameNode, ⟨?_, ?_⟩, rfl⟩
    · exact gcOk.maybe
    · cases nodes with
      | nil => cases isFirst
      | cons first rest =>
        cases isFirst
        refine ⟨[], a, rest, isHead, ⟨?_, ?_, ok.listed_remark live sameNode listed, by simp⟩,
          .inl rfl⟩
        · exact live
        · simp [write, isHead, Ptr.ofNode, Ptr.mark]
  · exact lookAtHead_ok ok gcOk.maybe noMark live

theorem walk_ok (ok : StoreOk st) (gcOk : GcOk st gc) (near : GcNear st gc)
    (atPc : gc.pc = .walk) : GcStepOk st gc (gcStep st gc) := by
  have here := gcOk.here
  simp only [GcAt, atPc] at here
  obtain ⟨front, a, back, isCur, collecting, linkIn⟩ := here
  have close := near atPc a (by rw [isCur]; rfl)
  have isRaw : rawptr gc.cur = some a := by rw [isCur]; rfl
  have compare : normalTransactionIdPrecedes (st.xminOf a) gc.oldestXmin =
      decide (st.xminOf a < gc.oldestXmin) := Serial.precedes_ofNat close
  simp only [gcStep, atPc, isRaw, compare, decide_eq_true_eq]
  split
  next old =>
    refine ⟨.quiet, ⟨gcOk.maybe, front, a, back, isCur, ?_, linkIn, old, fun _ => rfl⟩, rfl⟩
    exact ⟨collecting.live, collecting.marked, collecting.listed, collecting.recent⟩
  next recent =>
    split
    · exact ⟨.quiet, ⟨gcOk.maybe, collecting.live, .inl rfl⟩, rfl⟩
    next notNull =>
      obtain ⟨next, isNext⟩ := plain_node (ok.plain a) notNull
      obtain ⟨rest, rfl⟩ := collecting.behind isNext
      refine ⟨.quiet, ⟨gcOk.maybe, front ++ [a], next, rest, isNext, ?_, ?_⟩, rfl⟩
      · refine ⟨collecting.live, collecting.marked, ?_, ?_⟩
        · simpa using collecting.listed
        · intro node mem
          rcases mem_append.mp mem with old | isAddr
          · exact collecting.recent node old
          · rw [mem_singleton.mp isAddr]
            exact Nat.le_of_not_lt recent
      · exact .inr ⟨a, by simp, rfl⟩

/-- After a failed swap the collector stands at a passed node or at the old one again. -/
theorem lookForDeletable_ok {next : Addr} (gcOk : GcOk st gc)
    (collecting : Collecting st gc front a back) (old : st.xminOf a < gc.oldestXmin)
    (isDeletable : gc.deletable = .ofNode a)
    (same : gc'.oldestXmin = gc.oldestXmin ∧ gc'.headPtr = gc.headPtr ∧
      gc'.deletable = gc.deletable ∧ gc'.maybeDeletable = gc.maybeDeletable)
    (linkIn : LinkIn gc' front) (isCur : gc'.cur = .ofNode next) (place : next = a ∨ next ∈ front) :
    GcStepOk st gc (st, gc'.lookForDeletable) := by
  obtain ⟨sameXmin, sameHead, sameDeletable, sameMaybe⟩ := same
  have maybe : ∀ e ∈ gc'.maybeDeletable, e < st.freshEntry := by
    rw [sameMaybe]
    exact gcOk.maybe
  have collecting' : Collecting st gc' front a back := by
    refine ⟨?_, ?_, collecting.listed, ?_⟩
    · rw [sameHead]
      exact collecting.live
    · rw [sameHead]
      exact collecting.marked
    · rw [sameXmin]
      exact collecting.recent
  have old' : st.xminOf a < gc'.oldestXmin := by rwa [sameXmin]
  have isDeletable' := sameDeletable.trans isDeletable
  unfold lookForDeletable
  split
  next found =>
    refine ⟨.quiet, ⟨maybe, front, a, back, isDeletable', ?_, linkIn, old', fun _ => found⟩,
      sameXmin⟩
    exact ⟨collecting'.live, collecting'.marked, collecting'.listed, collecting'.recent⟩
  next notFound =>
    have passed : next ∈ front := by
      rcases place with rfl | mem
      · exact absurd (isCur.trans isDeletable'.symm) notFound
      · exact mem
    refine ⟨.quiet, ⟨maybe, front, a, back, isDeletable', ?_, old', next, passed, isCur⟩, sameXmin⟩
    exact ⟨collecting'.live, collecting'.marked, collecting'.listed, collecting'.recent⟩

theorem unlink_ok (ok : StoreOk st) (gcOk : GcOk st gc) (atPc : gc.pc = .unlink) :
    GcStepOk st gc (gcStep st gc) := by
  have here := gcOk.here
  simp only [GcAt, atPc] at here
  obtain ⟨front, a, back, isDeletable, collecting, linkIn, old, isCur⟩ := here
  simp only [gcStep, atPc]
  split
  next found =>
    have position := collecting.expected_position ok linkIn isDeletable isCur found
    obtain ⟨descending, -, -⟩ := ok.nodes_nodup collecting.listed
    have below := (descending_cons.mp (descending_append.mp descending).2.1).1
    refine ⟨.cut position ?_, ⟨?_, ?_, .inr ⟨a, isDeletable⟩⟩, rfl⟩
    · intro node mem
      rcases mem_cons.mp mem with rfl | later
      · exact old
      · exact Nat.lt_trans (below node later) old
    · rw [freshEntry_write]
      intro e mem
      split at mem
      · rcases mem_append.mp mem with pre | isHead
        · exact gcOk.maybe e pre
        · rw [mem_singleton.mp isHead]
          exact ok.entryOld collecting.live
      · exact gcOk.maybe e mem
    · rw [entry_write]
      exact collecting.live
  · rcases linkIn with atHead | ⟨node, mem, atNode⟩
    · obtain ⟨next, isHead, place⟩ := collecting.head_leads
      simp only [atHead, if_true, Store.read, isHead]
      exact lookForDeletable_ok gcOk collecting old isDeletable ⟨rfl, rfl, rfl, rfl⟩
        (.inl rfl) rfl place
    · obtain ⟨next, isNext, place⟩ := collecting.next_of_passed ok mem
      have offHead : (Cell.node node : Link) ≠ .head gc.headPtr := by simp
      simp only [atNode, if_neg offHead, isNext]
      exact lookForDeletable_ok gcOk collecting old isDeletable ⟨rfl, rfl, rfl, rfl⟩
        (.inr ⟨node, mem, rfl⟩) rfl place

theorem refind_ok (ok : StoreOk st) (gcOk : GcOk st gc) (atPc : gc.pc = .refind) :
    GcStepOk st gc (gcStep st gc) := by
  have here := gcOk.here
  simp only [GcAt, atPc] at here
  obtain ⟨front, a, back, isDeletable, collecting, old, node, mem, isCur⟩ := here
  have isRaw : rawptr gc.cur = some node := by
    rw [isCur]
    rfl
  obtain ⟨next, isNext, place⟩ := collecting.next_of_passed ok mem
  simp only [gcStep, atPc, isRaw, isNext]
  exact lookForDeletable_ok gcOk collecting old isDeletable ⟨rfl, rfl, rfl, rfl⟩
    (.inr ⟨node, mem, rfl⟩) rfl place

theorem startDelete_ok (access : GcAccess st gc.oldestXmin st')
    (maybe : ∀ e ∈ gc'.maybeDeletable, e < st'.freshEntry)
    (sameXmin : gc'.oldestXmin = gc.oldestXmin) (noMark : NoMark st')
    (freeable : Freeable gc') : GcStepOk st gc (st', gc'.startDelete) := by
  unfold startDelete
  split
  · exact ⟨access, ⟨maybe, noMark⟩, sameXmin⟩
  next toFree =>
    rcases freeable with isNull | isNode
    · exact absurd (.inl isNull) toFree
    · exact ⟨access, ⟨maybe, noMark, isNode⟩, sameXmin⟩

theorem noMark_of_live {e : EntryId} (live : st.entry = some e)
    (plain : (st.heads e).marked = false) : NoMark st := by
  intro e' live'
  cases live.symm.trans live'
  exact plain

theorem rereadHead_ok (gcOk : GcOk st gc) (atPc : gc.pc = .rereadHead) :
    GcStepOk st gc (gcStep st gc) := by
  have here := gcOk.here
  simp only [GcAt, atPc] at here
  obtain ⟨live, freeable⟩ := here
  simp only [gcStep, atPc]
  split
  · next marked => exact ⟨.quiet, ⟨gcOk.maybe, live, marked, marked, freeable⟩, rfl⟩
  next plain =>
    have noMark := noMark_of_live live (by simpa using plain)
    exact startDelete_ok .quiet gcOk.maybe rfl noMark freeable

theorem unmarkHead_ok (gcOk : GcOk st gc) (atPc : gc.pc = .unmarkHead) :
    GcStepOk st gc (gcStep st gc) := by
  have here := gcOk.here
  simp only [GcAt, atPc] at here
  obtain ⟨live, marked, headMarked, freeable⟩ := here
  simp only [gcStep, atPc]
  split
  next same =>
    have sameNode : gc.head.unmark.node = st.linkOf (.head gc.headPtr) := by
      rw [Store.linkOf, Store.read, same]
      rfl
    have live' : (st.write (.head gc.headPtr) gc.head.unmark).entry = some gc.headPtr := by
      exact live
    have noMark : NoMark (st.write (.head gc.headPtr) gc.head.unmark) := by
      apply noMark_of_live live'
      simp [write, Ptr.unmark, headMarked]
    apply startDelete_ok (.remarked live sameNode) _ rfl noMark freeable
    exact gcOk.maybe
  · refine ⟨.quiet, ⟨gcOk.maybe, ?_⟩, rfl⟩
    exact ⟨live, marked, marked, freeable⟩

theorem deleteChain_ok (ok : StoreOk st) (gcOk : GcOk st gc) (atPc : gc.pc = .deleteChain) :
    GcStepOk st gc (gcStep st gc) := by
  have here := gcOk.here
  simp only [GcAt, atPc] at here
  obtain ⟨noMark, a, isHead⟩ := here
  have isRaw : rawptr gc.head = some a := by
    rw [isHead]
    rfl
  simp only [gcStep, atPc, isRaw]
  split
  · exact ⟨.freed a, ⟨gcOk.maybe, noMark⟩, rfl⟩
  next notNull =>
    refine ⟨.freed a, ⟨gcOk.maybe, ?_⟩, rfl⟩
    exact ⟨noMark, plain_node (ok.plain a) notNull⟩

theorem nextMaybe_ok (noMark : NoMark st) {head : Ptr}
    (maybe : ∀ e ∈ gc.maybeDeletable, e < st.freshEntry) :
    GcStepOk st gc (st, nextMaybe { gc with head := head }) := by
  refine ⟨.quiet, ⟨fun e mem => ?_, noMark⟩, rfl⟩
  exact maybe e (mem_of_mem_tail mem)

theorem tryRead_ok (gcOk : GcOk st gc) (atPc : gc.pc = .tryRead) :
    GcStepOk st gc (gcStep st gc) := by
  have noMark := gcOk.here
  simp only [GcAt, atPc] at noMark
  simp only [gcStep, atPc]
  split
  · exact ⟨.quiet, ⟨gcOk.maybe, noMark⟩, rfl⟩
  · split
    · exact ⟨.quiet, ⟨gcOk.maybe, noMark⟩, rfl⟩
    · exact nextMaybe_ok noMark gcOk.maybe

theorem tryMark_ok (ok : StoreOk st) (gcOk : GcOk st gc) (atPc : gc.pc = .tryMark) :
    GcStepOk st gc (gcStep st gc) := by
  have noMark := gcOk.here
  simp only [GcAt, atPc] at noMark
  simp only [gcStep, atPc]
  split
  · exact ⟨.quiet, ⟨gcOk.maybe, noMark⟩, rfl⟩
  next e rest isFirst =>
    split
    next isNull =>
      have live : st.entry = some e := by
        by_contra notLive
        have old := gcOk.maybe e (by simp [isFirst])
        have deleted := ok.dead old notLive
        rw [isNull] at deleted
        cases deleted
      have sameNode : deletedChainHead.node = st.linkOf (.head e) := by
        rw [Store.linkOf, Store.read, isNull]
        rfl
      refine ⟨.remarked live sameNode, ⟨?_, e, rest, isFirst, ?_, ?_⟩, rfl⟩
      · exact gcOk.maybe
      · exact live
      · simp [write]
    · exact nextMaybe_ok noMark gcOk.maybe

theorem tryRemove_ok (gcOk : GcOk st gc) (atPc : gc.pc = .tryRemove) :
    GcStepOk st gc (gcStep st gc) := by
  have here := gcOk.here
  simp only [GcAt, atPc] at here
  obtain ⟨e, rest, -, live, deleted⟩ := here
  simp only [gcStep, atPc]
  refine ⟨.removed live deleted, ⟨fun e mem => ?_, ?_⟩, rfl⟩
  · exact gcOk.maybe e (mem_of_mem_tail mem)
  · intro e' live'
    cases live'

theorem gcStep_ok (ok : StoreOk st) (gcOk : GcOk st gc) (near : GcNear st gc) :
    GcStepOk st gc (gcStep st gc) := by
  cases atPc : gc.pc with
  | idle =>
    simp only [gcStep, atPc]
    exact ⟨.quiet, gcOk, rfl⟩
  | readHead =>
    have here := gcOk.here
    simp only [GcAt, atPc] at here
    simp only [gcStep, atPc]
    have looks := lookAtHead_ok ok gcOk.maybe here.1 here.2
    simpa only [atPc] using looks
  | markHead => exact markHead_ok ok gcOk atPc
  | walk => exact walk_ok ok gcOk near atPc
  | unlink => exact unlink_ok ok gcOk atPc
  | refind => exact refind_ok ok gcOk atPc
  | rereadHead => exact rereadHead_ok gcOk atPc
  | unmarkHead => exact unmarkHead_ok gcOk atPc
  | deleteChain => exact deleteChain_ok ok gcOk atPc
  | tryRead => exact tryRead_ok gcOk atPc
  | tryMark => exact tryMark_ok ok gcOk atPc
  | tryRemove => exact tryRemove_ok gcOk atPc
  | crashed =>
    have here := gcOk.here
    simp only [GcAt, atPc] at here

end

namespace GcAccess

variable {st st' : Store} {oldestXmin : Xid} {a : Addr} {nodes : List Addr}
  (access : GcAccess st oldestXmin st')
include access

theorem ok (ok : StoreOk st) : StoreOk st' := by
  cases access with
  | quiet => exact ok
  | remarked live sameNode => exact ok.remark live sameNode
  | cut position old => exact (ok.cut position).1
  | freed a => exact (Agrees.free ok a).ok ok
  | removed live deleted => exact (ok.hashRemove live deleted).1

theorem listed (ok : StoreOk st) (listed : st.Listed nodes) :
    ∃ kept dropped, nodes = kept ++ dropped ∧ st'.Listed kept ∧
      ∀ a ∈ dropped, st.xminOf a < oldestXmin := by
  cases access with
  | quiet => exact ⟨nodes, [], by simp, listed, by simp⟩
  | remarked live sameNode =>
    exact ⟨nodes, [], by simp, ok.listed_remark live sameNode listed, by simp⟩
  | @cut _ _ front back position old =>
    cases listed.unique position.listed
    exact ⟨front, back, rfl, (ok.cut position).2, old⟩
  | freed a => exact ⟨nodes, [], by simp, (Agrees.free ok a).listed listed, by simp⟩
  | removed live deleted =>
    exact ⟨nodes, [], by simp, (ok.hashRemove live deleted).2 listed, by simp⟩

theorem xminOf (a : Addr) : st'.xminOf a = st.xminOf a := by
  cases access with
  | remarked => exact xminOf_write
  | cut => exact xminOf_write
  | _ => rfl

theorem freshEntry : st'.freshEntry = st.freshEntry := by
  cases access with
  | remarked => exact freshEntry_write
  | cut => exact freshEntry_write
  | _ => rfl

theorem deltaVal (a : Addr) : (st'.nodes a).deltaVal = (st.nodes a).deltaVal := by
  cases access with
  | remarked => exact deltaVal_write
  | cut => exact deltaVal_write
  | _ => rfl

theorem fresh : st'.freshNode = st.freshNode ∧ st'.freshEntry = st.freshEntry := by
  cases access with
  | remarked => exact ⟨freshNode_write, freshEntry_write⟩
  | cut => exact ⟨freshNode_write, freshEntry_write⟩
  | _ => exact ⟨rfl, rfl⟩

end GcAccess

end PgAqp.VersionStore
