import PgAqp.Hash.HtabInvariant

/-!
# The memories that a call has lived through

A call that searches without locks is right about some moment of its own
lifetime.  Its history lists the memories since its start, the newest first.
-/

namespace PgAqp.Hash

open Library List

variable (t : Table) (history : List Moment) (m : Memory) (key : Key)

def SortedKeys (nodes : List Addr) : Prop :=
  nodes.Pairwise fun first second => m.keyOf first < m.keyOf second

/-- Every bucket is sorted by strictly increasing keys, marked nodes included. -/
def Ordered : Prop :=
  ∀ bucket nodes, m.Listed bucket nodes → SortedKeys m nodes

/-- The entry of a key: an unmarked node of its bucket. -/
def Holds (a : Addr) : Prop :=
  m.Reach (t.bucketOf key) a ∧ m.keyOf a = key ∧ ¬ m.Marked a

def Absent : Prop :=
  ∀ a, ¬ Holds t m key a

namespace SortedKeys

variable {m : Memory}

theorem append_iff : SortedKeys m (front ++ back) ↔ SortedKeys m front ∧ SortedKeys m back ∧
        ∀ first ∈ front, ∀ second ∈ back, m.keyOf first < m.keyOf second :=
  pairwise_append

theorem cons_iff : SortedKeys m (a :: nodes) ↔
      (∀ other ∈ nodes, m.keyOf a < m.keyOf other) ∧ SortedKeys m nodes :=
  pairwise_cons

theorem congr (keys : ∀ a ∈ nodes, m'.keyOf a = m.keyOf a)
    (sorted : SortedKeys m nodes) : SortedKeys m' nodes := by
  refine List.Pairwise.imp_of_mem (fun {first second} firstMem secondMem less => ?_) sorted
  rwa [keys first firstMem, keys second secondMem]

theorem eq_of_key (sorted : SortedKeys m nodes) (firstMem : first ∈ nodes)
    (secondMem : second ∈ nodes) (same : m.keyOf first = m.keyOf second) : first = second := by
  induction nodes with
  | nil => cases firstMem
  | cons a rest ih =>
    obtain ⟨less, restSorted⟩ := cons_iff.mp sorted
    rcases mem_cons.mp firstMem with rfl | firstRest
    · rcases mem_cons.mp secondMem with rfl | secondRest
      · rfl
      · exact absurd same (Nat.ne_of_lt (less second secondRest))
    · rcases mem_cons.mp secondMem with rfl | secondRest
      · exact absurd same (Nat.ne_of_gt (less first firstRest))
      · exact ih restSorted firstRest secondRest

end SortedKeys

section

variable {t : Table} {m : Memory} {key : Key} {a : Addr}

theorem Ordered.eq_of_key (ordered : Ordered m) (wf : MemWf t m) (first : m.Reach bucket a)
    (second : m.Reach bucket other) (same : m.keyOf a = m.keyOf other) : a = other := by
  obtain ⟨nodes, listed, -, -⟩ := wf.listed bucket
  exact (ordered bucket nodes listed).eq_of_key (listed.reach_iff.mp first)
    (listed.reach_iff.mp second) same

theorem Ordered.holds_unique (ordered : Ordered m) (wf : MemWf t m)
    (first : Holds t m key a) (second : Holds t m key other) : a = other :=
  ordered.eq_of_key wf first.1 second.1 (first.2.1.trans second.2.1.symm)

theorem Ordered.absent_of_marked (ordered : Ordered m) (wf : MemWf t m)
    (reach : m.Reach (t.bucketOf key) a) (isKey : m.keyOf a = key)
    (marked : m.Marked a) : Absent t m key := by
  rintro other ⟨otherReach, otherKey, unmarked⟩
  cases ordered.eq_of_key wf otherReach reach (otherKey.trans isKey.symm)
  exact unmarked marked

/-- A place of the bucket with only smaller keys in front of it. -/
def Before (t : Table) (m : Memory) (key : Key) (link : Link) : Prop :=
  link = .head (t.bucketOf key) ∨
    ∃ a, link = .node a ∧ m.Reach (t.bucketOf key) a ∧ m.keyOf a < key

variable {after : Memory}

theorem Position.front_below (pos : Position t m bucket link front back)
    (ordered : Ordered m) (less : ∀ a, link = .node a → m.keyOf a < key) :
    ∀ a ∈ front, m.keyOf a < key := by
  intro a mem
  obtain ⟨frontSorted, -, -⟩ := SortedKeys.append_iff.mp (ordered _ _ pos.listed)
  rcases Chain.endCell_cases (Cell.head bucket : Link) front with ⟨rfl, -⟩ | ⟨init, last, rfl, atEnd⟩
  · cases mem
  · have lastLess := less last (pos.endsAt.symm.trans atEnd)
    obtain ⟨-, -, across⟩ := SortedKeys.append_iff.mp frontSorted
    rcases mem_append.mp mem with inInit | isLast
    · exact Nat.lt_trans (across a inInit last (by simp)) lastLess
    · rwa [mem_singleton.mp isLast]

theorem Before.position (pre : Before t m key link) (wf : MemWf t m) :
    (∃ front back, Position t m (t.bucketOf key) link front back) ∧
      ∀ a, link = .node a → m.keyOf a < key := by
  rcases pre with rfl | ⟨node, rfl, reach, less⟩
  · obtain ⟨back, pos⟩ := Position.ofHead wf (t.bucketOf key)
    exact ⟨⟨[], back, pos⟩, by simp⟩
  · obtain ⟨init, back, pos⟩ := Position.ofNode wf reach
    refine ⟨⟨init ++ [node], back, pos⟩, ?_⟩
    rintro a ⟨⟩
    exact less

theorem Before.absent (pre : Before t m key link) (ordered : Ordered m) (wf : MemWf t m)
    (above : ∀ next, m.linkOf link = some next → key < m.keyOf next) :
    Absent t m key := by
  obtain ⟨⟨front, back, pos⟩, less⟩ := pre.position wf
  have below := pos.front_below ordered less
  rintro a ⟨reach, isKey, -⟩
  rcases mem_append.mp (pos.listed.reach_iff.mp reach) with inFront | inBack
  · exact absurd isKey (Nat.ne_of_lt (below a inFront))
  · obtain ⟨-, backSorted, -⟩ := SortedKeys.append_iff.mp (ordered _ _ pos.listed)
    cases back with
    | nil => cases inBack
    | cons first rest =>
      have firstAbove := above first pos.linkOf_eq
      rcases mem_cons.mp inBack with rfl | inRest
      · exact absurd isKey (Nat.ne_of_gt firstAbove)
      · have afterFirst := (SortedKeys.cons_iff.mp backSorted).1 a inRest
        exact absurd isKey (Nat.ne_of_gt (Nat.lt_trans firstAbove afterFirst))

theorem Ordered.congr (ordered : Ordered m)
    (lists : ∀ {bucket nodes}, after.Listed bucket nodes → m.Listed bucket nodes)
    (keys : ∀ {bucket a}, m.Reach bucket a → after.keyOf a = m.keyOf a) :
    Ordered after := by
  intro bucket nodes listed
  refine (ordered bucket nodes (lists listed)).congr (fun a mem => ?_)
  exact keys ⟨nodes, lists listed, mem⟩

theorem AgreesOff.ordered (agrees : AgreesOff m after a)
    (wf : MemWf t m) (hidden : Hidden m a) (ordered : Ordered m) :
    Ordered after := by
  refine ordered.congr (fun {bucket nodes} listed => ?_) (fun reach => ?_)
  · obtain ⟨nodes', listed', -, -⟩ := wf.listed bucket
    rwa [listed.unique (agrees.listed hidden listed')]
  · exact (agrees.evolves wf hidden).key (.inl reach)

theorem SameLists.ordered (same : SameLists t m after) (ordered : Ordered m) : Ordered after :=
  ordered.congr (Memory.listed_congr same.linkOf).mp (fun _ => same.key _)

theorem Splice.ordered (splice : Splice t m bucket link ptr front run post middle)
    (wf : MemWf t m) (pre : Ordered m) (sorted : SortedKeys m (front ++ (middle ++ post))) :
    Ordered (m.write link ptr) := by
  intro other nodes listed
  refine SortedKeys.congr (fun a _ => Memory.keyOf_write) ?_
  by_cases same : other = bucket
  · subst same
    rw [listed.unique splice.listed]
    exact sorted
  · obtain ⟨nodes', listed', -, inBucket⟩ := wf.listed other
    rw [listed.unique (splice.listed_other same listed' inBucket)]
    exact pre other nodes' listed'

end

/-- One memory of a history; `own` tells whether the call itself made the step to it. -/
structure Moment where
  memory : Memory
  own : Bool

structure Later (t : Table) (pre after : Memory) : Prop where
  key : ∀ {bucket a}, Known t pre bucket a → after.keyOf a = pre.keyOf a
  frozen : ∀ {a}, pre.Marked a →
    after.read (.node a) = pre.read (.node a)
  known : ∀ {bucket a}, Known t pre bucket a → Known t after bucket a
  sentinel : ∀ {bucket a}, Known t pre bucket a →
    t.isSentinel (pre.elems a).value = true →
    t.isSentinel (after.elems a).value = true

namespace Later

variable {t : Table} {after : Memory} {a : Addr}

theorem refl (t : Table) (m : Memory) : Later t m m := ⟨fun _ => rfl, fun _ => rfl, id, fun _ => id⟩

theorem step (later : Later t pre after) (evolves : Evolves t after last)
    (wf : MemWf t after) : Later t pre last where
  key known := (evolves.key (later.known known)).trans (later.key known)
  frozen {a} marked := by
    have stillMarked : after.Marked a := by
      unfold Memory.Marked
      rwa [later.frozen marked]
    exact (evolves.frozen stillMarked).trans (later.frozen marked)
  known known := evolves.known wf (later.known known)
  sentinel known isSentinel :=
    evolves.sentinel (later.known known) (later.sentinel known isSentinel)

theorem marked (later : Later t pre after) (marked : pre.Marked a) : after.Marked a := by
  unfold Memory.Marked
  rwa [later.frozen marked]

end Later

structure HistOk (t : Table) (history : List Moment) (m : Memory) : Prop where
  current : ∃ own older, history = ⟨m, own⟩ :: older
  wf : ∀ moment ∈ history, MemWf t moment.memory
  ordered : ∀ moment ∈ history, Ordered moment.memory
  later : ∀ moment ∈ history, Later t moment.memory m
  lost : ∀ {bucket a}, ∀ moment ∈ history, moment.memory.Reach bucket a →
    m.Reach bucket a ∨
      ∃ old ∈ history, old.memory.Reach bucket a ∧ old.memory.Marked a

def Visited (bucket : Nat) (a : Addr) : Prop :=
  ∃ moment ∈ history, moment.memory.Reach bucket a

def AbsentIn : Prop :=
  ∃ moment ∈ history, Absent t moment.memory key

def LeftAt (link : Link) : Prop :=
  link = .head (t.bucketOf key) ∨
    ∃ a, link = .node a ∧ Visited history (t.bucketOf key) a ∧
      m.keyOf a < key

def Ahead :
    Option Addr → Prop
  | none => AbsentIn t history key
  | some a => Visited history (t.bucketOf key) a ∧
      (key < m.keyOf a → AbsentIn t history key)

namespace HistOk

variable {t : Table} {history : List Moment} {m after : Memory} {bucket : Nat} {key : Key}
  {a next : Addr} {link : Link}

theorem start (wf : MemWf t m) (ordered : Ordered m) : HistOk t [⟨m, own⟩] m where
  current := ⟨own, [], rfl⟩
  wf moment mem := by
    rw [mem_singleton.mp mem]
    exact wf
  ordered moment mem := by
    rw [mem_singleton.mp mem]
    exact ordered
  later moment mem := by
    rw [mem_singleton.mp mem]
    exact Later.refl _ _
  lost moment mem reach := by
    rw [mem_singleton.mp mem] at reach
    exact .inl reach

variable (hist : HistOk t history m)
include hist

theorem present : ∃ moment ∈ history, moment.memory = m := by
  obtain ⟨own, older, rfl⟩ := hist.current
  exact ⟨_, mem_cons_self .., rfl⟩

theorem push (evolves : Evolves t m after) (wf : MemWf t m) (wf' : MemWf t after)
    (ordered' : Ordered after) : HistOk t (⟨after, own⟩ :: history) after where
  current := ⟨own, history, rfl⟩
  wf moment mem := by
    rcases mem_cons.mp mem with rfl | old
    · exact wf'
    · exact hist.wf moment old
  ordered moment mem := by
    rcases mem_cons.mp mem with rfl | old
    · exact ordered'
    · exact hist.ordered moment old
  later moment mem := by
    rcases mem_cons.mp mem with rfl | old
    · exact Later.refl _ _
    · exact (hist.later moment old).step evolves wf
  lost {bucket a} moment mem reach := by
    rcases mem_cons.mp mem with rfl | old
    · exact .inl reach
    · rcases hist.lost moment old reach with now | ⟨past, pastMem, gone⟩
      · rcases evolves.reach now with still | marked
        · exact .inl still
        · obtain ⟨present, presentMem, rfl⟩ := hist.present
          exact .inr ⟨present, mem_cons_of_mem _ presentMem, now, marked⟩
      · exact .inr ⟨past, mem_cons_of_mem _ pastMem, gone⟩

theorem present_wf : MemWf t m := by
  obtain ⟨moment, mem, rfl⟩ := hist.present
  exact hist.wf moment mem

theorem present_ordered : Ordered m := by
  obtain ⟨moment, mem, rfl⟩ := hist.present
  exact hist.ordered moment mem

variable (visited : Visited history bucket a)
include visited

/-- A visited node is in the bucket, or was there marked as it still is. -/
theorem visited_cases : ∃ moment ∈ history, moment.memory.Reach bucket a ∧
      moment.memory.read (.node a) = m.read (.node a) ∧
      moment.memory.keyOf a = m.keyOf a := by
  obtain ⟨moment, mem, reach⟩ := visited
  rcases hist.lost moment mem reach with now | ⟨past, pastMem, pastReach, marked⟩
  · obtain ⟨present, presentMem, rfl⟩ := hist.present
    exact ⟨present, presentMem, now, rfl, rfl⟩
  · have later := hist.later past pastMem
    exact ⟨past, pastMem, pastReach, (later.frozen marked).symm, (later.key (.inl pastReach)).symm⟩

theorem known_of_visited : Known t m bucket a := by
  obtain ⟨moment, mem, reach⟩ := visited
  exact (hist.later moment mem).known (.inl reach)

theorem reach_of_visited (unmarked : ¬ m.Marked a) : m.Reach bucket a :=
  MemWf.reach_of_known (hist.known_of_visited visited) unmarked

theorem visited_next (linked : m.linkOf (.node a) = some next) : Visited history bucket next := by
  obtain ⟨moment, mem, reach, sameLink, -⟩ := hist.visited_cases visited
  refine ⟨moment, mem, MemWf.reach_next reach ?_⟩
  rw [Memory.linkOf, sameLink]
  exact linked

theorem key_lt_next (linked : m.linkOf (.node a) = some next) : m.keyOf a < m.keyOf next := by
  obtain ⟨moment, mem, reach, sameLink, sameKey⟩ := hist.visited_cases visited
  have linked' : moment.memory.linkOf (.node a) = some next := by
    rw [Memory.linkOf, sameLink]
    exact linked
  have later := hist.later moment mem
  rw [← sameKey, later.key (.inl (MemWf.reach_next reach linked'))]
  obtain ⟨init, back, pos⟩ := Position.ofNode (hist.wf moment mem) reach
  obtain ⟨-, -, across⟩ := SortedKeys.append_iff.mp (hist.ordered moment mem _ _ pos.listed)
  refine across a (by simp) next ?_
  exact mem_of_head? (pos.linkOf_eq.symm.trans linked')

omit visited

theorem absentIn_of_marked (visited : Visited history (t.bucketOf key) a)
    (isKey : m.keyOf a = key) (marked : m.Marked a) : AbsentIn t history key := by
  obtain ⟨moment, mem, reach, sameLink, sameKey⟩ := hist.visited_cases visited
  refine ⟨moment, mem, (hist.ordered moment mem).absent_of_marked (hist.wf moment mem)
    reach (sameKey.trans isKey) ?_⟩
  unfold Memory.Marked
  rwa [sameLink]

theorem leftAt_cases (left : LeftAt t history m key link) :
    ∃ moment ∈ history, Before t moment.memory key link ∧
      moment.memory.linkOf link = m.linkOf link := by
  rcases left with rfl | ⟨a, rfl, visited, less⟩
  · obtain ⟨present, presentMem, rfl⟩ := hist.present
    exact ⟨present, presentMem, .inl rfl, rfl⟩
  · obtain ⟨moment, mem, reach, sameLink, sameKey⟩ := hist.visited_cases visited
    exact ⟨moment, mem, .inr ⟨a, rfl, reach, by rwa [sameKey]⟩, congrArg Ptr.node sameLink⟩

theorem ahead_of_read (left : LeftAt t history m key link) :
    Ahead t history m key (m.linkOf link) := by
  obtain ⟨moment, mem, pre, sameLink⟩ := hist.leftAt_cases left
  have wf := hist.wf moment mem
  have ordered := hist.ordered moment mem
  cases linked : m.linkOf link with
  | none =>
    refine ⟨moment, mem, pre.absent ordered wf (fun next isNext => ?_)⟩
    cases (sameLink.trans linked).symm.trans isNext
  | some next =>
    have reach : moment.memory.Reach (t.bucketOf key) next := by
      rcases pre with rfl | ⟨a, rfl, reach, -⟩
      · exact wf.reach_head (sameLink.trans linked)
      · exact MemWf.reach_next reach (sameLink.trans linked)
    refine ⟨⟨moment, mem, reach⟩, fun above => ⟨moment, mem, ?_⟩⟩
    refine pre.absent ordered wf (fun next' isNext => ?_)
    cases (sameLink.trans linked).symm.trans isNext
    rwa [← (hist.later moment mem).key (.inl reach)]

end HistOk

section

variable {t : Table} {history : List Moment} {m after : Memory} {key : Key}

theorem Visited.push (visited : Visited history bucket a) :
    Visited (moment :: history) bucket a := by
  obtain ⟨old, mem, reach⟩ := visited
  exact ⟨old, mem_cons_of_mem _ mem, reach⟩

theorem AbsentIn.push (absent : AbsentIn t history key) : AbsentIn t (moment :: history) key := by
  obtain ⟨old, mem, absent⟩ := absent
  exact ⟨old, mem_cons_of_mem _ mem, absent⟩

theorem LeftAt.push (hist : HistOk t history m) (evolves : Evolves t m after)
    (left : LeftAt t history m key link) :
    LeftAt t (moment :: history) after key link := by
  rcases left with isHead | ⟨a, isNode, visited, less⟩
  · exact .inl isHead
  · refine .inr ⟨a, isNode, visited.push, ?_⟩
    rwa [evolves.key (hist.known_of_visited visited)]

theorem Ahead.push (hist : HistOk t history m) (evolves : Evolves t m after)
    (ahead : Ahead t history m key target) :
    Ahead t (moment :: history) after key target := by
  cases target with
  | none => exact AbsentIn.push ahead
  | some a =>
    obtain ⟨visited, absent⟩ := ahead
    refine ⟨visited.push, fun above => ?_⟩
    rw [evolves.key (hist.known_of_visited visited)] at above
    exact (absent above).push

end

end PgAqp.Hash
