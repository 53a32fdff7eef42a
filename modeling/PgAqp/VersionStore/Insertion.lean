import PgAqp.VersionStore.Collector

/-!
# Finding or creating a version node

A backend that inserts for a running transaction remembers a link of the chain
and the node it has seen behind that link.  Nodes with larger ids than its own
are never collected, so the link stays in the chain.  All of this ends where a failed swap
brings back the mark of the head, which the next step takes for a part of the address.
-/

namespace PgAqp.VersionStore

open Hash (Ptr Addr rawptr)
open Library Function List Store InsertFrame

def First (st : Store) (a : Addr) : Prop :=
  ∃ e, st.entry = some e ∧ st.linkOf (.head e) = some a

/-- A node that has been in the chain, and still is unless it has become old. -/
structure Seen (st : Store) (published : Addr → Prop) (oldestXmin : Xid) (a : Addr) :
    Prop where
  published : published a
  kept : st.InChain a ∨ st.xminOf a < oldestXmin

/-- Where an insertion stands: at the head, whose old value it remembers, or at a node with a
larger id. -/
def InsertPlace (st : Store) (published : Addr → Prop) (f : InsertFrame) : Prop :=
  (f.curPtr = .head f.headPtr ∧
    (f.oldHead.marked = true → f.cur.node = f.oldHead.node ∨
      ∀ a, f.oldHead.node = some a → ¬ First st a)) ∨
  ∃ a, f.curPtr = .node a ∧ st.InChain a ∧ published a ∧
    f.xmin < st.xminOf a

structure InsertAt (st : Store) (published : Addr → Prop) (oldestXmin : Xid)
    (f : InsertFrame) : Prop where
  entryOld : f.headPtr < st.freshEntry
  curPlain : f.cur.marked = false
  curSeen : ∀ a, f.cur.node = some a → Seen st published oldestXmin a
  oldHead : f.oldHead.marked = true → ∃ a, f.oldHead.node = some a ∧ published a
  place : InsertPlace st published f

/-- The assertion of every program point of an insertion. -/
def InsertOk (st : Store) (published : Addr → Prop) (oldestXmin : Xid) (f : InsertFrame) :
    Prop :=
  oldestXmin ≤ f.xmin ∧
  match f.pc with
  | .enterHash => True
  | .readHead => f.headPtr < st.freshEntry
  | .visit => InsertAt st published oldestXmin f ∧ ∃ a, f.cur = .ofNode a
  | .swap => InsertAt st published oldestXmin f ∧
      ∀ a, f.cur.node = some a → st.xminOf a < f.xmin

/-- What every step keeps for the insertions that are running. -/
structure Evolves (st st' : Store) (published published' : Addr → Prop)
    (oldestXmin' : Xid) : Prop where
  stays : ∀ {a}, published a → published' a
  xmin : ∀ {a}, published a → st'.xminOf a = st.xminOf a
  kept : ∀ {a}, st.InChain a → st'.InChain a ∨ st.xminOf a < oldestXmin'
  first : ∀ {a}, published a → First st' a → First st a
  freshEntry : st.freshEntry ≤ st'.freshEntry

section

variable {st st' : Store} {published published' : Addr → Prop} {oldestXmin' : Xid}
  (evolves : Evolves st st' published published' oldestXmin')
include evolves

theorem Seen.stable (later : oldestXmin ≤ oldestXmin') (seen : Seen st published oldestXmin a) :
    Seen st' published' oldestXmin' a where
  published := evolves.stays seen.published
  kept := by
    rw [evolves.xmin seen.published]
    rcases seen.kept with inChain | old
    · exact evolves.kept inChain
    · exact .inr (Nat.lt_of_lt_of_le old later)

theorem InsertPlace.stable (recent : oldestXmin' ≤ f.xmin)
    (oldHead : f.oldHead.marked → ∃ a, f.oldHead.node = some a ∧ published a)
    (place : InsertPlace st published f) : InsertPlace st' published' f := by
  rcases place with ⟨atHead, returns⟩ | ⟨a, atNode, inChain, isPublished, larger⟩
  · refine .inl ⟨atHead, fun marked => ?_⟩
    rcases returns marked with same | buried
    · exact .inl same
    · obtain ⟨head, isHead, headPublished⟩ := oldHead marked
      right
      intro a isAddr first
      cases isHead.symm.trans isAddr
      exact buried head isHead (evolves.first headPublished first)
  · refine .inr ⟨a, atNode, ?_, evolves.stays isPublished, ?_⟩
    · rcases evolves.kept inChain with still | old
      · exact still
      · exact absurd (Nat.lt_trans larger old) (Nat.not_lt_of_le recent)
    · rwa [evolves.xmin isPublished]

theorem InsertAt.stable (later : oldestXmin ≤ oldestXmin') (recent : oldestXmin' ≤ f.xmin)
    (at_ : InsertAt st published oldestXmin f) :
    InsertAt st' published' oldestXmin' f where
  entryOld := Nat.lt_of_lt_of_le at_.entryOld evolves.freshEntry
  curPlain := at_.curPlain
  curSeen a isCur := (at_.curSeen a isCur).stable evolves later
  oldHead marked := by
    obtain ⟨a, isHead, isPublished⟩ := at_.oldHead marked
    exact ⟨a, isHead, evolves.stays isPublished⟩
  place := at_.place.stable evolves recent at_.oldHead

theorem InsertOk.stable (later : oldestXmin ≤ oldestXmin') (recent : oldestXmin' ≤ f.xmin)
    (ok : InsertOk st published oldestXmin f) :
    InsertOk st' published' oldestXmin' f := by
  obtain ⟨-, here⟩ := ok
  refine ⟨recent, ?_⟩
  split at here
  · trivial
  · exact Nat.lt_of_lt_of_le here evolves.freshEntry
  · exact ⟨here.1.stable evolves later recent, here.2⟩
  · obtain ⟨at_, below⟩ := here
    refine ⟨at_.stable evolves later recent, fun a isCur => ?_⟩
    rw [evolves.xmin (at_.curSeen a isCur).published]
    exact below a isCur

end

/-- The ids that an insertion compares lie less than half the range apart. -/
def InsertNear (st : Store) (f : InsertFrame) : Prop :=
  f.pc = .visit → ∀ a ∈ f.cur.node, Serial.Near (st.xminOf a) f.xmin
  deriving Decidable

structure Links (st : Store) (newNode : Addr) (f : InsertFrame) (e : EntryId)
    (front back : List Addr) : Prop where
  position : Position st e f.curPtr front back
  plain : f.cur.marked = false
  leads : f.cur.node = back.head?
  above : ∀ a ∈ front, f.xmin < st.xminOf a
  below : ∀ a ∈ back, st.xminOf a < f.xmin
  keepsMark : f.curPtr = .head e → st.heads e ≠ deletedChainHead ∧
    (f.stored newNode).marked = (st.heads e).marked
  plainNode : ∀ a, f.curPtr = .node a → (f.stored newNode).marked = false

inductive InsertAccess (st : Store) (newNode : Addr) (f : InsertFrame) :
    Store → InsertEffect → Prop where
  | quiet {effect : InsertEffect} (notNew : effect.insertedNew = false) :
      InsertAccess st newNode f st effect
  | entered {effect : InsertEffect} (notNew : effect.insertedNew = false) :
      InsertAccess st newNode f st.hashEnter.2 effect
  | prepared {effect : InsertEffect} (notNew : effect.insertedNew = false)
      (plain : f.cur.marked = false) :
      InsertAccess st newNode f (st.write (.node newNode) f.cur) effect
  | linked {e : EntryId} {front back : List Addr}
      (links : Links st newNode f e front back) :
      InsertAccess st newNode f
        ((st.write (.node newNode) f.cur).write f.curPtr (f.stored newNode))
        ⟨.returned newNode, true⟩

/-- The head that a failed swap would bring back carries no mark, or says that the chain is
deleted. -/
def HeadReadable (st : Store) (f : InsertFrame) : Prop :=
  f.pc = .swap → f.curPtr = .head f.headPtr →
    st.heads f.headPtr = f.expected ∨
      (st.heads f.headPtr).marked = false ∨
      st.heads f.headPtr = deletedChainHead
  deriving Decidable

/-- A step of an insertion: what it does, and what it knows afterwards. -/
structure InsertStepOk (st : Store) (published : Addr → Prop) (oldestXmin : Xid)
    (newNode : Addr) (f : InsertFrame) (res : Store × InsertEffect) : Prop where
  access : InsertAccess st newNode f res.1 res.2
  goesOn : ∀ f', res.2.thread = .inserting f' →
    f'.xmin = f.xmin ∧ InsertOk res.1 published oldestXmin f'
  returns : ∀ a, res.2.thread = .returned a →
    res.1.InChain a ∧ res.1.xminOf a = f.xmin
  alive : res.2.thread ≠ .crashed
  stays : res.2.thread ≠ .idle ∧ ∀ f', res.2.thread ≠ .replacing f'

structure NewNode (st : Store) (newNode : Addr) (xmin : Xid) : Prop where
  hidden : ¬ st.InChain newNode
  allocated : newNode < st.freshNode
  xminOf : st.xminOf newNode = xmin

section

variable {st : Store}

theorem Store.InChain.live (inChain : st.InChain a) : ∃ e, st.entry = some e := by
  obtain ⟨nodes, listed, mem⟩ := inChain
  cases live : st.entry with
  | none =>
    rw [(listed_none live).mp listed] at mem
    cases mem
  | some e => exact ⟨e, rfl⟩

theorem First.inChain (ok : StoreOk st) (first : First st a) : st.InChain a := by
  obtain ⟨e, live, leads⟩ := first
  obtain ⟨nodes, listed, -⟩ := ok.listed
  refine ⟨nodes, listed, ?_⟩
  exact mem_of_head? ((Position.atHead live listed).linkOf_eq.symm.trans leads)

theorem Store.InChain.successor (inChain : st.InChain a)
    (leads : st.linkOf (.node a) = some follower) : st.InChain follower := by
  obtain ⟨e, live⟩ := inChain.live
  obtain ⟨init, back, pos⟩ := Position.atNode live inChain
  refine ⟨_, pos.listed, mem_append_right _ ?_⟩
  exact mem_of_head? (pos.linkOf_eq.symm.trans leads)

theorem StoreOk.live_of_head (ok : StoreOk st) (old : e < st.freshEntry)
    (notDeleted : st.heads e ≠ deletedChainHead) : st.entry = some e := by
  by_contra notLive
  exact notDeleted (ok.dead old notLive)

theorem stored_node (f : InsertFrame) (newNode : Addr) :
    (f.stored newNode).node = some newNode := by
  unfold stored
  split <;> rfl

theorem NewNode.link (ok : StoreOk st) (new : NewNode st newNode f.xmin)
    (links : Links st newNode f e front back) :
    StoreOk ((st.write (.node newNode) f.cur).write f.curPtr (f.stored newNode)) ∧
      ((st.write (.node newNode) f.cur).write f.curPtr (f.stored newNode)).Listed
        (front ++ newNode :: back) := by
  obtain ⟨pos, plain, leads, above, below, -, plainNode⟩ := links
  have agrees := Agrees.writeNode ok new.hidden plain
  have prepared := agrees.ok ok
  have pos' : Position (st.write (.node newNode) f.cur) e f.curPtr front back :=
    ⟨pos.live, agrees.listed pos.listed, pos.endsAt⟩
  obtain ⟨descending, -, allocated⟩ := ok.nodes_nodup pos.listed
  obtain ⟨frontDescending, backDescending, across⟩ := descending_append.mp descending
  have tail : Segment (st.write (.node newNode) f.cur).linkOf
      (f.stored newNode).node (newNode :: back) none := by
    refine Segment.cons_iff.mpr ⟨stored_node f newNode, ?_⟩
    have behind := pos'.tail
    rw [pos'.linkOf_eq, ← leads] at behind
    have atNew : (st.write (.node newNode) f.cur).linkOf (.node newNode) = f.cur.node := by
      rw [linkOf_write, update_self]
    rwa [atNew]
  have descending' : (st.write (.node newNode) f.cur).Descending (front ++ newNode :: back) := by
    refine descending_append.mpr ⟨?_, descending_cons.mpr ⟨?_, ?_⟩, ?_⟩
    · exact frontDescending.congr (fun _ _ => xminOf_write)
    · intro a mem
      rw [xminOf_write, xminOf_write, new.xminOf]
      exact below a mem
    · exact backDescending.congr (fun _ _ => xminOf_write)
    · intro first inFront second mem
      rw [xminOf_write, xminOf_write]
      rcases mem_cons.mp mem with rfl | inBack
      · rw [new.xminOf]
        exact above first inFront
      · exact across first inFront second inBack
  constructor
  · apply prepared.write pos' plainNode tail descending'
    intro a mem
    rcases mem_cons.mp mem with rfl | inBack
    · exact new.allocated
    · exact allocated a (mem_append_right _ inBack)
  · apply prepared.listed_write pos' tail
    have apart := (nodup_append.mp descending'.nodup).2.2
    intro a inTail inFront
    exact apart a inFront a inTail rfl

end

section

variable {st : Store} {published : Addr → Prop} {oldestXmin : Xid} {newNode : Addr}
  {f : InsertFrame} {a : Addr}

theorem InsertAt.withPc (at_ : InsertAt st published oldestXmin f) (pc : InsertPc) :
    InsertAt st published oldestXmin { f with pc := pc } :=
  ⟨at_.entryOld, at_.curPlain, at_.curSeen, at_.oldHead, at_.place⟩

theorem search_ok (recent : oldestXmin ≤ f'.xmin) (at_ : InsertAt st published oldestXmin f')
    (goesOn : f'.search.thread = .inserting f'') :
    f''.xmin = f'.xmin ∧ InsertOk st published oldestXmin f'' := by
  unfold search at goesOn
  split at goesOn
  next isNull =>
    cases goesOn
    refine ⟨rfl, recent, at_.withPc .swap, fun a isCur => ?_⟩
    rw [isNull] at isCur
    cases isCur
  next notNull =>
    cases goesOn
    exact ⟨rfl, recent, at_.withPc .visit, plain_node at_.curPlain notNull⟩

theorem search_effect (f : InsertFrame) :
    f.search.insertedNew = false ∧ ∃ f', f.search.thread = .inserting f' := by
  unfold search
  split
  · exact ⟨rfl, _, rfl⟩
  · exact ⟨rfl, _, rfl⟩

theorem InsertStepOk.ofSearch (access : ∀ effect : InsertEffect, effect.insertedNew = false →
      InsertAccess st newNode f st' effect)
    (same : f'.xmin = f.xmin) (recent : oldestXmin ≤ f.xmin)
    (known : InsertAt st' published oldestXmin f') :
    InsertStepOk st published oldestXmin newNode f (st', f'.search) := by
  obtain ⟨notNew, next, isNext⟩ := search_effect f'
  refine ⟨access _ notNew, ?_, ?_, ?_, ?_⟩
  · intro f'' goesOn
    obtain ⟨sameXmin, ok⟩ := search_ok (by rwa [same]) known goesOn
    exact ⟨sameXmin.trans same, ok⟩
  · intro a returned
    cases isNext.symm.trans returned
  · rw [isNext]
    simp
  · rw [isNext]
    simp

theorem marked_node (marked : ptr.marked) (notDeleted : ptr ≠ deletedChainHead) :
    ∃ a, ptr.node = some a := by
  obtain ⟨node, mark⟩ := ptr
  cases marked
  cases node with
  | none => exact absurd rfl notDeleted
  | some a => exact ⟨a, rfl⟩

theorem Position.back_below {e : EntryId} {xmin : Xid} (pos : Position st e link front back)
    (ok : StoreOk st) (first : ∀ a, back.head? = some a → st.xminOf a < xmin) :
    ∀ a ∈ back, st.xminOf a < xmin := by
  obtain ⟨descending, -, -⟩ := ok.nodes_nodup pos.listed
  obtain ⟨-, backDescending, -⟩ := descending_append.mp descending
  intro a mem
  cases back with
  | nil => cases mem
  | cons head rest =>
    have headBelow := first head rfl
    rcases mem_cons.mp mem with rfl | inRest
    · exact headBelow
    · exact Nat.lt_trans ((descending_cons.mp backDescending).1 a inRest) headBelow

theorem InsertAt.atHead (newNode : Addr) (ok : StoreOk st)
    (at_ : InsertAt st published oldestXmin f) (atHead : f.curPtr = .head f.headPtr)
    (found : st.heads f.headPtr = f.expected) :
    st.heads f.headPtr ≠ deletedChainHead ∧ f.cur.node = st.linkOf (.head f.headPtr) ∧
      (f.stored newNode).marked = (st.heads f.headPtr).marked := by
  rcases at_.place with ⟨-, returns⟩ | ⟨a, atNode, -⟩
  · by_cases marked : f.oldHead.marked
    · obtain ⟨a, isHead, -⟩ := at_.oldHead marked
      have expected : f.expected = f.oldHead := by simp [expected, atHead, marked]
      have notDeleted : st.heads f.headPtr ≠ deletedChainHead := by
        rw [found, expected]
        intro isDeleted
        rw [isDeleted] at isHead
        cases isHead
      have live := ok.live_of_head at_.entryOld notDeleted
      have leads : st.linkOf (.head f.headPtr) = f.oldHead.node := by
        rw [Store.linkOf, Store.read, found, expected]
      refine ⟨notDeleted, ?_, ?_⟩
      · rcases returns marked with same | buried
        · exact same.trans leads.symm
        · exact absurd ⟨_, live, leads.trans isHead⟩ (buried a isHead)
      · rw [found, expected, marked]
        simp [stored, atHead, marked, Ptr.mark, Ptr.ofNode]
    · have expected : f.expected = f.cur := by simp [expected, marked]
      refine ⟨?_, ?_, ?_⟩
      · rw [found, expected]
        intro isDeleted
        have plain := at_.curPlain
        rw [isDeleted] at plain
        cases plain
      · rw [Store.linkOf, Store.read, found, expected]
      · rw [found, expected, at_.curPlain]
        simp [stored, marked, Ptr.ofNode]
  · cases atHead.symm.trans atNode

theorem InsertAt.linked (newNode : Addr) (ok : StoreOk st)
    (at_ : InsertAt st published oldestXmin f)
    (below : ∀ a, f.cur.node = some a → st.xminOf a < f.xmin)
    (found : st.read f.curPtr = f.expected) :
    ∃ e front back, Links st newNode f e front back := by
  rcases at_.place with ⟨atHead, -⟩ | ⟨a, atNode, inChain, -, larger⟩
  · have isHead : st.heads f.headPtr = f.expected := by
      rw [atHead] at found
      exact found
    obtain ⟨notDeleted, leads, keepsMark⟩ := at_.atHead newNode ok atHead isHead
    have live := ok.live_of_head at_.entryOld notDeleted
    obtain ⟨nodes, listed, -⟩ := ok.listed
    have pos : Position st f.headPtr f.curPtr [] nodes := by
      rw [atHead]
      exact Position.atHead live listed
    rw [← atHead, pos.linkOf_eq] at leads
    refine ⟨_, _, _, pos, at_.curPlain, leads, by simp, ?_, ?_, ?_⟩
    · apply pos.back_below ok
      intro a isFirst
      exact below a (leads.trans isFirst)
    · exact fun _ => ⟨notDeleted, keepsMark⟩
    · intro a atNode
      cases atHead.symm.trans atNode
  · obtain ⟨e, live⟩ := inChain.live
    obtain ⟨init, back, pos⟩ := Position.atNode live inChain
    rw [← atNode] at pos
    have offHead : ¬ (f.curPtr = .head f.headPtr ∧ f.oldHead.marked) := by
      rw [atNode]
      simp
    have leads : f.cur.node = back.head? := by
      rw [← pos.linkOf_eq, linkOf, found, expected, if_neg offHead]
    have plain : (f.stored newNode).marked = false := by
      rw [stored, if_neg offHead]
      rfl
    obtain ⟨descending, -, -⟩ := ok.nodes_nodup pos.listed
    have frontDescending := (descending_append.mp descending).1
    refine ⟨_, _, _, pos, at_.curPlain, leads, ?_, ?_, ?_, ?_⟩
    · intro other mem
      rcases mem_append.mp mem with inInit | isAddr
      · have above := (descending_append.mp frontDescending).2.2 other inInit a (by simp)
        exact Nat.lt_trans larger above
      · rwa [mem_singleton.mp isAddr]
    · apply pos.back_below ok
      intro first isFirst
      exact below first (leads.trans isFirst)
    · intro atHead
      cases atHead.symm.trans atNode
    · exact fun _ _ => plain

/-- Setting up the hidden node changes nothing that an insertion knows. -/
theorem evolves_prepared (ok : StoreOk st) (hidden : ¬ st.InChain newNode)
    (plain : ptr.marked = false) :
    Evolves st (st.write (.node newNode) ptr) published published oldestXmin where
  stays := id
  xmin _ := xminOf_write
  kept inChain := .inl (((Agrees.writeNode ok hidden plain).inChain_iff ok).mpr inChain)
  first _ first := first
  freshEntry := le_rfl

theorem InsertAt.found (ok : StoreOk st) (inChain : ∀ a, st.InChain a → published a)
    (at_ : InsertAt st published oldestXmin f) (notDeleted : st.read f.curPtr ≠ deletedChainHead)
    (plain : (st.read f.curPtr).marked = false) :
    InsertAt st published oldestXmin { f with cur := st.read f.curPtr } := by
  rcases at_.place with ⟨atHead, -⟩ | ⟨a, atNode, isIn, isPublished, larger⟩
  · have live : st.entry = some f.headPtr := by
      apply ok.live_of_head at_.entryOld
      rw [atHead] at notDeleted
      exact notDeleted
    refine ⟨at_.entryOld, plain, ?_, at_.oldHead, .inl ⟨atHead, fun marked => ?_⟩⟩
    · intro a isCur
      rw [atHead] at isCur
      have isIn := First.inChain ok ⟨_, live, isCur⟩
      exact ⟨inChain a isIn, .inl isIn⟩
    · by_cases same : (st.read f.curPtr).node = f.oldHead.node
      · exact .inl same
      · right
        rintro a isHead ⟨e, live', leads⟩
        cases live.symm.trans live'
        apply same
        rw [isHead, ← leads, atHead]
        rfl
  · refine ⟨at_.entryOld, plain, ?_, at_.oldHead, .inr ⟨a, atNode, isIn, isPublished, larger⟩⟩
    intro follower leads
    rw [atNode] at leads
    have following := isIn.successor leads
    exact ⟨inChain follower following, .inl following⟩

variable (ok : StoreOk st) (insertOk : InsertOk st published oldestXmin f)
include ok insertOk

theorem enterHash_ok (atPc : f.pc = .enterHash) :
    InsertStepOk st published oldestXmin newNode f (insertStep st newNode f) := by
  simp only [insertStep, atPc]
  refine ⟨.entered rfl, ?_, by simp, by simp, by simp⟩
  intro f' goesOn
  cases goesOn
  have entered := ok.hashEnter
  exact ⟨rfl, insertOk.1, entered.entryOld (StoreOk.hashEnter_entry st)⟩

variable (inChain : ∀ a, st.InChain a → published a)
include inChain

theorem readHead_ok (atPc : f.pc = .readHead) :
    InsertStepOk st published oldestXmin newNode f (insertStep st newNode f) := by
  obtain ⟨recent, old⟩ := insertOk
  simp only [atPc] at old
  simp only [insertStep, atPc]
  split
  · refine ⟨.quiet rfl, ?_, by simp, by simp, by simp⟩
    intro f' goesOn
    cases goesOn
    exact ⟨rfl, recent, trivial⟩
  next notDeleted =>
    have live := ok.live_of_head old notDeleted
    have seen : ∀ a, (st.heads f.headPtr).node = some a → st.InChain a :=
      fun a isHead => First.inChain ok ⟨_, live, isHead⟩
    refine InsertStepOk.ofSearch (fun _ => .quiet) ?_ recent ?_
    · rfl
    · refine ⟨old, rfl, ?_, ?_, .inl ⟨rfl, fun _ => .inl rfl⟩⟩
      · intro a isCur
        exact ⟨inChain a (seen a isCur), .inl (seen a isCur)⟩
      · intro marked
        obtain ⟨a, isHead⟩ := marked_node marked notDeleted
        exact ⟨a, isHead, inChain a (seen a isHead)⟩

theorem visit_ok (near : InsertNear st f) (atPc : f.pc = .visit) :
    InsertStepOk st published oldestXmin newNode f (insertStep st newNode f) := by
  obtain ⟨recent, here⟩ := insertOk
  simp only [atPc] at here
  obtain ⟨at_, a, isCur⟩ := here
  have isNode : f.cur.node = some a := by
    rw [isCur]
    rfl
  have close := near atPc a isNode
  have compare : normalTransactionIdPrecedes (st.xminOf a) f.xmin =
      decide (st.xminOf a < f.xmin) := Serial.precedes_ofNat close
  have same : xid32 (st.xminOf a) = xid32 f.xmin ↔ st.xminOf a = f.xmin :=
    Serial.ofNat_eq_iff close
  have stays : f.xmin ≤ st.xminOf a → st.InChain a := by
    intro above
    rcases (at_.curSeen a isNode).kept with still | old
    · exact still
    · exact absurd (Nat.lt_of_lt_of_le old recent) (Nat.not_lt_of_le above)
  simp only [insertStep, atPc, isCur, Ptr.ofNode, compare, same, decide_eq_true_eq]
  split
  next isXmin =>
    refine ⟨.quiet rfl, by simp, ?_, by simp, by simp⟩
    rintro _ ⟨⟩
    exact ⟨stays (Nat.le_of_eq isXmin.symm), isXmin⟩
  next otherXmin =>
    split
    next older =>
      refine ⟨.quiet rfl, ?_, by simp, by simp, by simp⟩
      rintro _ ⟨⟩
      have atSwap := at_.withPc .swap
      rw [isCur] at atSwap
      refine ⟨rfl, recent, atSwap, ?_⟩
      rintro _ ⟨⟩
      exact older
    next notOlder =>
      have larger : f.xmin < st.xminOf a :=
        Nat.lt_of_le_of_ne (Nat.le_of_not_lt notOlder) (Ne.symm otherXmin)
      have here := stays (Nat.le_of_lt larger)
      refine InsertStepOk.ofSearch (fun _ => .quiet) ?_ recent ?_
      · rfl
      · refine ⟨at_.entryOld, ok.plain a, ?_, at_.oldHead, .inr ⟨a, rfl, here,
          inChain a here, larger⟩⟩
        intro follower leads
        have following := here.successor leads
        exact ⟨inChain follower following, .inl following⟩

theorem swap_ok (new : NewNode st newNode f.xmin) (readable : HeadReadable st f)
    (atPc : f.pc = .swap) :
    InsertStepOk st published oldestXmin newNode f (insertStep st newNode f) := by
  obtain ⟨recent, here⟩ := insertOk
  simp only [atPc] at here
  obtain ⟨at_, below⟩ := here
  have offNew : f.curPtr ≠ .node newNode := by
    rcases at_.place with ⟨atHead, -⟩ | ⟨a, atNode, isIn, -⟩
    · rw [atHead]
      simp
    · rw [atNode]
      intro same
      cases same
      exact new.hidden isIn
  simp only [insertStep, atPc, read_write_of_ne offNew]
  split
  next found =>
    obtain ⟨e, front, back, links⟩ := at_.linked newNode ok below found
    refine ⟨.linked links, by simp, ?_, by simp, by simp⟩
    rintro _ ⟨⟩
    rw [xminOf_write, xminOf_write]
    exact ⟨⟨_, (new.link ok links).2, by simp⟩, new.xminOf⟩
  next notFound =>
    split
    · refine ⟨.prepared rfl at_.curPlain, ?_, by simp, by simp, by simp⟩
      rintro _ ⟨⟩
      exact ⟨rfl, recent, trivial⟩
    next notDeleted =>
      -- Only a head that the collector has marked could bring back a mark.
      have plain : (st.read f.curPtr).marked = false := by
        rcases at_.place with ⟨atHead, -⟩ | ⟨a, atNode, -⟩
        · rw [atHead] at notFound notDeleted ⊢
          rcases readable atPc atHead with same | plain | deleted
          · exact absurd same notFound
          · exact plain
          · exact absurd deleted notDeleted
        · rw [atNode]
          exact ok.plain a
      have stands := at_.found ok inChain notDeleted plain
      have kept : InsertAt (st.write (.node newNode) f.cur) published oldestXmin
          { f with cur := st.read f.curPtr } :=
        stands.stable (evolves_prepared ok new.hidden at_.curPlain) le_rfl recent
      refine InsertStepOk.ofSearch (fun _ isOld => .prepared isOld at_.curPlain) ?_ recent ?_
      · rfl
      · simpa only [atPc] using kept

theorem insertStep_ok (new : NewNode st newNode f.xmin) (near : InsertNear st f)
    (readable : HeadReadable st f) :
    InsertStepOk st published oldestXmin newNode f (insertStep st newNode f) := by
  cases atPc : f.pc with
  | enterHash => exact enterHash_ok ok insertOk atPc
  | readHead => exact readHead_ok ok insertOk inChain atPc
  | visit => exact visit_ok ok insertOk inChain near atPc
  | swap => exact swap_ok ok insertOk inChain new readable atPc

end

theorem first_iff {nodes : List Addr} (listed : st.Listed nodes) :
    First st a ↔ nodes.head? = some a := by
  cases live : st.entry with
  | none =>
    rw [(listed_none live).mp listed]
    simp [First, live]
  | some e =>
    have leads := (Position.atHead live listed).linkOf_eq
    simp [First, live, leads]

namespace InsertAccess

variable {st st' : Store} {newNode : Addr} {f : InsertFrame} {effect : InsertEffect}
  {oldestXmin : Xid} {nodes : List Addr} (access : InsertAccess st newNode f st' effect)
include access

theorem ok (ok : StoreOk st) (new : NewNode st newNode f.xmin) : StoreOk st' := by
  cases access with
  | quiet notNew => exact ok
  | entered notNew => exact ok.hashEnter
  | prepared notNew plain => exact (Agrees.writeNode ok new.hidden plain).ok ok
  | linked links => exact (new.link ok links).1

theorem listed (ok : StoreOk st) (new : NewNode st newNode f.xmin) (listed : st.Listed nodes) :
    (effect.insertedNew = false ∧ st'.Listed nodes) ∨
      effect = ⟨.returned newNode, true⟩ ∧ ∃ front back, nodes = front ++ back ∧
        st'.Listed (front ++ newNode :: back) := by
  cases access with
  | quiet notNew => exact .inl ⟨notNew, listed⟩
  | entered notNew => exact .inl ⟨notNew, StoreOk.listed_hashEnter listed⟩
  | prepared notNew plain =>
    exact .inl ⟨notNew, (Agrees.writeNode ok new.hidden plain).listed listed⟩
  | linked links =>
    cases listed.unique links.position.listed
    exact .inr ⟨rfl, _, _, rfl, (new.link ok links).2⟩

theorem xminOf (a : Addr) : st'.xminOf a = st.xminOf a := by
  cases access with
  | quiet notNew => rfl
  | entered notNew => rw [xminOf, st.hashEnter_nodes.1, xminOf]
  | prepared notNew plain => exact xminOf_write
  | linked links => rw [xminOf_write, xminOf_write]

theorem deltaVal (a : Addr) : (st'.nodes a).deltaVal = (st.nodes a).deltaVal := by
  cases access with
  | quiet notNew => rfl
  | entered notNew => rw [st.hashEnter_nodes.1]
  | prepared notNew plain => exact deltaVal_write
  | linked links => rw [deltaVal_write, deltaVal_write]

theorem fresh : st'.freshNode = st.freshNode ∧ st.freshEntry ≤ st'.freshEntry := by
  cases access with
  | quiet notNew => exact ⟨rfl, le_rfl⟩
  | entered notNew =>
    unfold hashEnter
    split
    · exact ⟨rfl, le_rfl⟩
    · exact ⟨rfl, Nat.le_succ _⟩
  | prepared notNew plain => exact ⟨rfl, le_rfl⟩
  | linked links => simp

theorem others (ok : StoreOk st) (new : NewNode st newNode f.xmin) (recent : oldestXmin ≤ f.xmin) :
    Others oldestXmin st st' := by
  cases access with
  | quiet notNew => exact Others.ofAgrees (Agrees.refl ok)
  | entered notNew => exact Others.hashEnter st
  | prepared notNew plain => exact Others.ofAgrees (Agrees.writeNode ok new.hidden plain)
  | @linked e front back links =>
    have live := links.position.live
    have heads : ((((st.write (.node newNode) f.cur).write f.curPtr
          (f.stored newNode)).heads e).marked = (st.heads e).marked) ∧
        (st.heads e = deletedChainHead → ((st.write (.node newNode) f.cur).write
          f.curPtr (f.stored newNode)).heads e = deletedChainHead) := by
      rcases links.position.link_cases with atHead | ⟨a, -, atNode⟩
      · obtain ⟨notDeleted, keepsMark⟩ := links.keepsMark atHead
        rw [atHead]
        refine ⟨?_, fun deleted => absurd deleted notDeleted⟩
        simpa [write] using keepsMark
      · rw [atNode]
        exact ⟨rfl, id⟩
    refine ⟨by simp, ?_, ?_, ?_, ?_, ?_, ?_⟩
    · simp
    · intro other live'
      cases live.symm.trans live'
      exact heads.1
    · intro other live'
      cases live.symm.trans live'
      exact heads.2
    · intro dead
      cases dead.symm.trans live
    · intro other nodes _ _ isListed
      cases isListed.unique links.position.listed
      refine ⟨_, (new.link ok links).2, .inr ⟨front, back, newNode, rfl, rfl, ?_⟩⟩
      rw [xminOf_write, xminOf_write, new.xminOf]
      exact recent
    · intro other a _ _ _
      rw [xminOf_write, xminOf_write]

theorem evolves (ok : StoreOk st) (new : NewNode st newNode f.xmin)
    (unpublished : ¬ published newNode) (stays : ∀ {a}, published a → published' a) :
    Evolves st st' published published' oldestXmin where
  stays := stays
  xmin _ := access.xminOf _
  kept := by
    rintro a ⟨nodes, isListed, mem⟩
    left
    rcases access.listed ok new isListed with ⟨-, same⟩ | ⟨-, front, back, rfl, linked⟩
    · exact ⟨_, same, mem⟩
    · refine ⟨_, linked, ?_⟩
      rcases mem_append.mp mem with inFront | inBack
      · simp [inFront]
      · simp [inBack]
  first := by
    intro a isPublished first
    obtain ⟨nodes, isListed, -⟩ := ok.listed
    rcases access.listed ok new isListed with ⟨-, same⟩ | ⟨-, front, back, rfl, linked⟩
    · exact (first_iff isListed).mpr ((first_iff same).mp first)
    · have isFirst := (first_iff linked).mp first
      cases front with
      | nil =>
        cases isFirst
        exact absurd isPublished unpublished
      | cons head rest => exact (first_iff isListed).mpr isFirst
  freshEntry := access.fresh.2

end InsertAccess

end PgAqp.VersionStore
