import Mathlib.Data.List.Basic
import PgAqp.VersionStore.Abtvs

/-!
# The version chain in shared memory

The chain of a key is the list of nodes behind the value word of its live entry.
A store is well formed when this list has strictly descending transaction ids,
no link of a node is marked, and every entry that is no longer live is marked as
deleted.
-/

namespace PgAqp.VersionStore

open Hash (Ptr Addr)
open Library Store

namespace Store

def linkOf (st : Store) (link : Link) : Option Addr := (st.read link).node

def Listed (st : Store) (nodes : List Addr) : Prop :=
  match st.entry with
  | none => nodes = []
  | some e => Chain st.linkOf (.head e) nodes

def InChain (st : Store) (a : Addr) : Prop :=
  ∃ nodes, st.Listed nodes ∧ a ∈ nodes

def versions (st : Store) (nodes : List Addr) : List (Xid × Nat) :=
  nodes.map fun a => (st.xminOf a, (st.nodes a).deltaVal)

def Descending (st : Store) (nodes : List Addr) : Prop :=
  nodes.Pairwise fun first second => st.xminOf second < st.xminOf first

variable {st : Store} {link : Link} {ptr : Ptr} {a : Addr} {nodes : List Addr}

@[simp]
theorem read_write_self : (st.write link ptr).read link = ptr := by
  cases link <;> simp [read, write]

theorem read_write_of_ne (diff : other ≠ link) :
    (st.write link ptr).read other = st.read other := by
  cases link with
  | head e =>
    cases other with
    | head e' =>
      have ne : e' ≠ e := fun same => diff (same ▸ rfl)
      simp [read, write, ne]
    | node a' => simp [read, write]
  | node a =>
    cases other with
    | head e' => simp [read, write]
    | node a' =>
      have ne : a' ≠ a := fun same => diff (same ▸ rfl)
      simp [read, write, ne]

@[simp]
theorem linkOf_write : (st.write link ptr).linkOf = Function.update st.linkOf link ptr.node := by
  funext other
  by_cases same : other = link
  · subst same
    simp [linkOf]
  · simp [linkOf, read_write_of_ne same, Function.update_of_ne same]

@[simp]
theorem xminOf_write : (st.write link ptr).xminOf a = st.xminOf a := by
  cases link with
  | head e => rfl
  | node a' =>
    by_cases same : a = a'
    · subst same
      simp [xminOf, write]
    · simp [xminOf, write, same]

@[simp]
theorem deltaVal_write : ((st.write link ptr).nodes a).deltaVal = (st.nodes a).deltaVal := by
  cases link with
  | head e => rfl
  | node a' =>
    by_cases same : a = a'
    · subst same
      simp [write]
    · simp [write, same]

@[simp]
theorem entry_write : (st.write link ptr).entry = st.entry := by
  cases link <;> rfl

@[simp]
theorem freshEntry_write : (st.write link ptr).freshEntry = st.freshEntry := by
  cases link <;> rfl

@[simp]
theorem freshNode_write : (st.write link ptr).freshNode = st.freshNode := by
  cases link <;> rfl

variable {value range : Nat}

theorem heads_write_of_ne (diff : link ≠ .head e) : (st.write link ptr).heads e = st.heads e := by
  have kept : (st.write link ptr).read (.head e) = st.read (.head e) := read_write_of_ne (diff.symm)
  exact kept

@[simp]
theorem xminOf_addDelta : (st.addDelta a value range).xminOf node = st.xminOf node := by
  by_cases same : node = a
  · subst same
    simp [xminOf, addDelta]
  · simp [xminOf, addDelta, same]

@[simp]
theorem read_addDelta : (st.addDelta a value range).read = st.read := by
  funext link
  cases link with
  | head e => rfl
  | node node =>
    by_cases same : node = a
    · subst same
      simp [read, addDelta]
    · simp [read, addDelta, same]

theorem hashEnter_nodes (st : Store) :
    st.hashEnter.2.nodes = st.nodes ∧ st.hashEnter.2.freshNode = st.freshNode := by
  unfold hashEnter
  split <;> exact ⟨rfl, rfl⟩

theorem listed_some (live : st.entry = some e) :
    st.Listed nodes ↔ Chain st.linkOf (.head e) nodes := by
  simp [Listed, live]

theorem listed_none (absent : st.entry = none) : st.Listed nodes ↔ nodes = [] := by
  simp [Listed, absent]

theorem Listed.unique (first : st.Listed nodes) (second : st.Listed nodes') : nodes = nodes' := by
  cases live : st.entry with
  | none =>
    rw [listed_none live] at first second
    rw [first, second]
  | some e =>
    rw [listed_some live] at first second
    exact Chain.unique first second

theorem Listed.inChain_iff (listed : st.Listed nodes) : st.InChain a ↔ a ∈ nodes := by
  constructor
  · rintro ⟨nodes', listed', mem⟩
    rwa [listed.unique listed']
  · intro mem
    exact ⟨nodes, listed, mem⟩

theorem Descending.congr {st' : Store} (ids : ∀ a ∈ nodes, st'.xminOf a = st.xminOf a)
    (descending : st.Descending nodes) : st'.Descending nodes := by
  apply List.Pairwise.imp_of_mem _ descending
  intro first second firstMem secondMem less
  rwa [ids first firstMem, ids second secondMem]

theorem Descending.nodup (descending : st.Descending nodes) : nodes.Nodup := by
  apply List.Pairwise.imp _ descending
  rintro first second less rfl
  exact absurd less (Nat.lt_irrefl _)

theorem descending_append :
    st.Descending (front ++ back) ↔ st.Descending front ∧ st.Descending back ∧
      ∀ first ∈ front, ∀ second ∈ back, st.xminOf second < st.xminOf first :=
  List.pairwise_append

theorem descending_cons : st.Descending (a :: nodes) ↔
      (∀ second ∈ nodes, st.xminOf second < st.xminOf a) ∧ st.Descending nodes :=
  List.pairwise_cons

end Store

structure StoreOk (st : Store) : Prop where
  listed : ∃ nodes, st.Listed nodes ∧ st.Descending nodes ∧
    ∀ a ∈ nodes, a < st.freshNode
  plain : ∀ a, (st.read (.node a)).marked = false
  dead : ∀ {e}, e < st.freshEntry → st.entry ≠ some e →
    st.heads e = deletedChainHead
  entryOld : ∀ {e}, st.entry = some e → e < st.freshEntry

structure Position (st : Store) (e : EntryId) (link : Link) (front back : List Addr) :
    Prop where
  live : st.entry = some e
  listed : st.Listed (front ++ back)
  endsAt : endCell (.head e) front = link

namespace Position

variable {st : Store} {e : EntryId} {link : Link} {front back : List Addr} {a : Addr}

theorem atHead (live : st.entry = some e) (listed : st.Listed back) :
    Position st e (.head e) [] back :=
  ⟨live, listed, rfl⟩

theorem atNode (live : st.entry = some e) (inChain : st.InChain a) :
    ∃ init back, Position st e (.node a) (init ++ [a]) back := by
  obtain ⟨nodes, listed, mem⟩ := inChain
  obtain ⟨init, back, rfl⟩ := List.append_of_mem mem
  refine ⟨init, back, live, ?_, Chain.endCell_snoc _ _ _⟩
  rwa [List.append_assoc]

variable (pos : Position st e link front back)
include pos

theorem tail : Segment st.linkOf (st.linkOf link) back none := by
  have listed := (listed_some pos.live).mp pos.listed
  obtain ⟨-, tail⟩ := Chain.append_iff.mp listed
  rwa [pos.endsAt] at tail

theorem linkOf_eq : st.linkOf link = back.head? := by
  have tail := pos.tail
  cases back with
  | nil => exact tail
  | cons a rest => exact tail.1

theorem link_cases : link = .head e ∨ ∃ a ∈ front, link = .node a := by
  rw [← pos.endsAt]
  rcases Chain.endCell_cases (Cell.head e : Link) front with ⟨-, atEnd⟩ | ⟨init, last, rfl, atEnd⟩
  · exact .inl atEnd
  · exact .inr ⟨last, by simp, atEnd⟩

end Position

theorem split_unique (nodup : (front ++ a :: back).Nodup)
    (same : front ++ a :: back = front' ++ a :: back') : front = front' ∧ back = back' := by
  obtain ⟨-, backNodup, apart⟩ := List.nodup_append.mp nodup
  have offFront : a ∉ front := fun mem => apart a mem a (by simp) rfl
  have offBack : a ∉ back := (List.nodup_cons.mp backNodup).1
  obtain ⟨sameFront, -, sameBack⟩ := (List.append_cons_inj_of_notMem offFront offBack).mp same
  exact ⟨sameFront, sameBack⟩

namespace StoreOk

variable {st : Store} {e : EntryId} {link : Link} {ptr : Ptr} {front back tail : List Addr}
  {a : Addr} (ok : StoreOk st)
include ok

variable {nodes : List Addr}

theorem nodes_nodup (listed : st.Listed nodes) :
    st.Descending nodes ∧ nodes.Nodup ∧ ∀ a ∈ nodes, a < st.freshNode := by
  obtain ⟨nodes', listed', descending, allocated⟩ := ok.listed
  cases listed.unique listed'
  exact ⟨descending, descending.nodup, allocated⟩

variable (pos : Position st e link front back)
include pos

theorem listed_write (tailListed : Segment st.linkOf ptr.node tail none)
    (disjoint : ∀ a ∈ tail, a ∉ front) :
    (st.write link ptr).Listed (front ++ tail) := by
  obtain ⟨-, nodup, -⟩ := ok.nodes_nodup pos.listed
  have listed := (listed_some pos.live).mp pos.listed
  have live' : (st.write link ptr).entry = some e := by
    rw [entry_write]
    exact pos.live
  rw [listed_some live', linkOf_write, ← pos.endsAt]
  exact Chain.update_endCell listed (List.nodup_append.mp nodup).1 tailListed disjoint

theorem write (plain : ∀ a, link = .node a → ptr.marked = false)
    (tailListed : Segment st.linkOf ptr.node tail none) (descending : st.Descending (front ++ tail))
    (allocated : ∀ a ∈ tail, a < st.freshNode) : StoreOk (st.write link ptr) where
  listed := by
    obtain ⟨-, -, inFront⟩ := ok.nodes_nodup pos.listed
    have apart := (List.nodup_append.mp descending.nodup).2.2
    refine ⟨front ++ tail, ?_, ?_, ?_⟩
    · apply ok.listed_write pos tailListed
      intro a inTail mem
      exact apart a mem a inTail rfl
    · exact descending.congr (fun a _ => xminOf_write)
    · intro a mem
      rw [freshNode_write]
      rcases List.mem_append.mp mem with old | new
      · exact inFront a (List.mem_append_left _ old)
      · exact allocated a new
  plain a := by
    by_cases same : link = .node a
    · rw [← same, read_write_self]
      exact plain a same
    · rw [read_write_of_ne (Ne.symm same)]
      exact ok.plain a
  dead {other} old notLive := by
    rw [entry_write] at notLive
    rw [freshEntry_write] at old
    have offHead : link ≠ .head other := by
      intro same
      rcases pos.link_cases with isHead | ⟨a, -, isNode⟩
      · rw [same] at isHead
        cases isHead
        exact notLive pos.live
      · rw [same] at isNode
        cases isNode
    rw [heads_write_of_ne offHead]
    exact ok.dead old notLive
  entryOld {other} live := by
    rw [entry_write] at live
    rw [freshEntry_write]
    exact ok.entryOld live

theorem cut : StoreOk (st.write link Ptr.null) ∧ (st.write link Ptr.null).Listed front := by
  obtain ⟨descending, -, -⟩ := ok.nodes_nodup pos.listed
  have frontDescending : st.Descending (front ++ []) := by
    simpa using (descending_append.mp descending).1
  have ends : Segment st.linkOf Ptr.null.node [] none := rfl
  constructor
  · exact ok.write pos (fun _ _ => rfl) ends frontDescending (by simp)
  · simpa using ok.listed_write pos ends (by simp)

omit pos

/-- A change of the mark, or of a null head to the deleted one, keeps the chain. -/
theorem listed_remark (live : st.entry = some e) (sameNode : ptr.node = st.linkOf (.head e))
    (listed : st.Listed nodes) : (st.write (.head e) ptr).Listed nodes := by
  have pos := Position.atHead live listed
  apply ok.listed_write pos
  · rw [sameNode]
    exact pos.tail
  · simp

theorem remark (live : st.entry = some e) (sameNode : ptr.node = st.linkOf (.head e)) :
    StoreOk (st.write (.head e) ptr) := by
  obtain ⟨nodes, listed, descending, allocated⟩ := ok.listed
  have pos := Position.atHead live listed
  apply ok.write pos (by simp) _ descending allocated
  rw [sameNode]
  exact pos.tail

omit ok

theorem hashEnter_entry (st : Store) : st.hashEnter.2.entry = some st.hashEnter.1 := by
  unfold hashEnter
  split
  · next live => exact live
  · rfl

theorem listed_hashEnter (listed : st.Listed nodes) : st.hashEnter.2.Listed nodes := by
  unfold hashEnter
  split
  · exact listed
  next absent =>
    rw [(listed_none absent).mp listed]
    simp [Store.Listed, Chain, Store.linkOf, Store.read, Ptr.null]

theorem hashEnter (ok : StoreOk st) : StoreOk st.hashEnter.2 := by
  obtain ⟨nodes, listed, descending, allocated⟩ := ok.listed
  have listed' := listed_hashEnter listed
  unfold Store.hashEnter at listed' ⊢
  split at listed' <;> rename_i live
  · exact ok
  · refine ⟨⟨nodes, listed', descending, allocated⟩, ok.plain, ?_, ?_⟩
    · intro other old notLive
      have diff : other ≠ st.freshEntry := fun same => notLive (congrArg some same.symm)
      have older : other < st.freshEntry := Nat.lt_of_le_of_ne (Nat.le_of_lt_succ old) diff
      simp only [Function.update_of_ne diff]
      exact ok.dead older (by simp [live])
    · intro other isNew
      cases isNew
      exact Nat.lt_succ_self _

theorem hashRemove (ok : StoreOk st) (live : st.entry = some e)
    (deleted : st.heads e = deletedChainHead) :
    StoreOk st.hashRemove ∧ ∀ {nodes}, st.Listed nodes → st.hashRemove.Listed nodes := by
  have empty : ∀ {nodes}, st.Listed nodes → nodes = [] := by
    intro nodes listed
    have isHead := (Position.atHead live listed).linkOf_eq
    rw [Store.linkOf, Store.read, deleted] at isHead
    exact List.head?_eq_none_iff.mp isHead.symm
  refine ⟨⟨⟨[], rfl, List.Pairwise.nil, by simp⟩, ok.plain, ?_, by simp [Store.hashRemove]⟩, empty⟩
  intro other old _
  by_cases same : other = e
  · subst same
    exact deleted
  · exact ok.dead old (by rw [live]; exact fun isOther => same (Option.some.inj isOther).symm)

end StoreOk

structure Agrees (st st' : Store) : Prop where
  heads : st'.heads = st.heads
  entry : st'.entry = st.entry
  freshEntry : st'.freshEntry = st.freshEntry
  freshNode : st.freshNode ≤ st'.freshNode
  nodes : ∀ {a}, st.InChain a →
    (st'.nodes a).xmin = (st.nodes a).xmin ∧
      (st'.nodes a).next = (st.nodes a).next
  plain : ∀ a, (st'.read (.node a)).marked = false

namespace Agrees

variable {st : Store} {a : Addr} {ptr : Ptr} {nodes : List Addr}

theorem listed (agrees : Agrees st st') (listed : st.Listed nodes) : st'.Listed nodes := by
  cases live : st.entry with
  | none =>
    rw [listed_none (agrees.entry.trans live)]
    exact (listed_none live).mp listed
  | some e =>
    rw [listed_some (agrees.entry.trans live)]
    have sameHead : st'.linkOf (.head e) = st.linkOf (.head e) :=
      congrArg (fun heads : EntryId → Ptr => (heads e).node) agrees.heads
    unfold Chain
    rw [sameHead]
    apply Segment.congr _ ((listed_some live).mp listed)
    intro node mem
    exact congrArg Ptr.node (agrees.nodes ⟨nodes, listed, mem⟩).2

theorem xminOf (agrees : Agrees st st') (inChain : st.InChain a) : st'.xminOf a = st.xminOf a :=
  (agrees.nodes inChain).1

theorem ok (agrees : Agrees st st') (ok : StoreOk st) : StoreOk st' where
  listed := by
    obtain ⟨nodes, listed, descending, allocated⟩ := ok.listed
    refine ⟨nodes, agrees.listed listed, ?_, ?_⟩
    · apply descending.congr
      intro a mem
      exact agrees.xminOf ⟨nodes, listed, mem⟩
    · intro a mem
      exact Nat.lt_of_lt_of_le (allocated a mem) agrees.freshNode
  plain := agrees.plain
  dead old notLive := by
    rw [agrees.entry] at notLive
    rw [agrees.freshEntry] at old
    rw [agrees.heads]
    exact ok.dead old notLive
  entryOld live := by
    rw [agrees.entry] at live
    rw [agrees.freshEntry]
    exact ok.entryOld live

theorem inChain_iff (agrees : Agrees st st') (ok : StoreOk st) : st'.InChain a ↔ st.InChain a := by
  obtain ⟨nodes, listed, -⟩ := ok.listed
  rw [listed.inChain_iff, (agrees.listed listed).inChain_iff]

theorem refl (ok : StoreOk st) : Agrees st st :=
  ⟨rfl, rfl, rfl, le_rfl, fun _ => ⟨rfl, rfl⟩, ok.plain⟩

theorem trans (first : Agrees st st') (second : Agrees st' st'') : Agrees st st'' where
  heads := second.heads.trans first.heads
  entry := second.entry.trans first.entry
  freshEntry := second.freshEntry.trans first.freshEntry
  freshNode := Nat.le_trans first.freshNode second.freshNode
  nodes := by
    rintro a ⟨nodes, listed, mem⟩
    obtain ⟨sameXmin, sameNext⟩ := second.nodes ⟨nodes, first.listed listed, mem⟩
    rw [sameXmin, sameNext]
    exact first.nodes ⟨nodes, listed, mem⟩
  plain := second.plain

theorem writeNode (ok : StoreOk st) (hidden : ¬ st.InChain a)
    (plain : ptr.marked = false) : Agrees st (st.write (.node a) ptr) where
  heads := rfl
  entry := rfl
  freshEntry := rfl
  freshNode := le_rfl
  nodes {other} inChain := by
    have diff : other ≠ a := fun same => hidden (same ▸ inChain)
    simp [write, diff]
  plain other := by
    by_cases same : other = a
    · rwa [same, read_write_self]
    · rw [read_write_of_ne (fun isNode => same (Cell.node.inj isNode))]
      exact ok.plain other

theorem setXmin (ok : StoreOk st) (hidden : ¬ st.InChain a) (xmin : Xid) :
    Agrees st (st.setXmin a xmin) where
  heads := rfl
  entry := rfl
  freshEntry := rfl
  freshNode := le_rfl
  nodes {other} inChain := by
    have diff : other ≠ a := fun same => hidden (same ▸ inChain)
    simp [Store.setXmin, diff]
  plain other := by
    have kept := ok.plain other
    by_cases same : other = a
    · subst same
      simpa [Store.setXmin, Store.read] using kept
    · simpa [Store.setXmin, Store.read, same] using kept

theorem alloc (ok : StoreOk st) (plain : version.next.marked = false) :
    Agrees st (st.alloc version) where
  heads := rfl
  entry := rfl
  freshEntry := rfl
  freshNode := Nat.le_succ _
  nodes {other} inChain := by
    obtain ⟨nodes, listed, mem⟩ := inChain
    obtain ⟨-, -, allocated⟩ := ok.nodes_nodup listed
    simp [Store.alloc, Nat.ne_of_lt (allocated other mem)]
  plain other := by
    by_cases same : other = st.freshNode
    · subst same
      simpa [Store.alloc, Store.read] using plain
    · simpa [Store.alloc, Store.read, same] using ok.plain other

theorem free (ok : StoreOk st) (a : Addr) : Agrees st (st.free a) where
  heads := rfl
  entry := rfl
  freshEntry := rfl
  freshNode := le_rfl
  nodes _ := ⟨rfl, rfl⟩
  plain := ok.plain

theorem addDelta (ok : StoreOk st) (a : Addr) (value range : Nat) :
    Agrees st (st.addDelta a value range) where
  heads := rfl
  entry := rfl
  freshEntry := rfl
  freshNode := le_rfl
  nodes {other} _ := by
    refine ⟨xminOf_addDelta, ?_⟩
    have sameLinks : (st.addDelta a value range).read = st.read := read_addDelta
    exact congrFun sameLinks (.node other)
  plain other := by
    rw [read_addDelta]
    exact ok.plain other

end Agrees

end PgAqp.VersionStore
