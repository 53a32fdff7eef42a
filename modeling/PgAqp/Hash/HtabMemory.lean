import Mathlib.Tactic.Tauto
import PgAqp.Hash.LockfreeHtab

/-!
# Bucket lists in shared memory

A node is in a bucket when the links from the bucket head visit it, whatever
marks the links carry.  The writes of the table keep every bucket a finite list, and
each of them evolves memory: keys stay, a marked link is frozen, and a node that
leaves its bucket is marked already.
-/

namespace PgAqp.Hash

open Library Memory

namespace Memory

def linkOf (m : Memory) (link : Link) : Option Addr := (m.read link).node

def Marked (m : Memory) (a : Addr) : Prop :=
  (m.read (.node a)).marked = true
  deriving Decidable

def Listed (m : Memory) (bucket : Nat) (nodes : List Addr) : Prop :=
  Chain m.linkOf (.head bucket) nodes

def Reach (m : Memory) (bucket : Nat) (a : Addr) : Prop :=
  ∃ nodes, m.Listed bucket nodes ∧ a ∈ nodes

variable {m : Memory} {link : Link} {ptr : Ptr}

@[simp]
theorem read_write_self : (m.write link ptr).read link = ptr := by
  cases link <;> simp [read, write]

theorem read_write_of_ne (diff : other ≠ link) : (m.write link ptr).read other = m.read other := by
  cases link with
  | head bucket =>
    cases other with
    | head bucket' =>
      have ne : bucket' ≠ bucket := fun same => diff (same ▸ rfl)
      simp [read, write, ne]
    | node a' => simp [read, write]
  | node a =>
    cases other with
    | head bucket' => simp [read, write]
    | node a' =>
      have ne : a' ≠ a := fun same => diff (same ▸ rfl)
      simp [read, write, ne]

@[simp]
theorem linkOf_write : (m.write link ptr).linkOf = Function.update m.linkOf link ptr.node := by
  funext other
  by_cases same : other = link
  · subst same
    simp [linkOf]
  · simp [linkOf, read_write_of_ne same, Function.update_of_ne same]

@[simp]
theorem keyOf_write : (m.write link ptr).keyOf a = m.keyOf a := by
  cases link with
  | head bucket => rfl
  | node a' =>
    by_cases same : a = a'
    · subst same
      simp [keyOf, write]
    · simp [keyOf, write, same]

@[simp]
theorem value_write : ((m.write link ptr).elems a).value = (m.elems a).value := by
  cases link with
  | head bucket => rfl
  | node a' =>
    by_cases same : a = a'
    · subst same
      simp [write]
    · simp [write, same]

@[simp]
theorem fresh_write : (m.write link ptr).fresh = m.fresh := by
  cases link <;> rfl

@[simp]
theorem freed_write : (m.write link ptr).freed = m.freed := by
  cases link <;> rfl

theorem Listed.unique
    (first : m.Listed bucket nodes) (second : m.Listed bucket nodes') : nodes = nodes' :=
  Chain.unique first second

theorem Listed.reach_iff (listed : m.Listed bucket nodes) : m.Reach bucket a ↔ a ∈ nodes := by
  constructor
  · rintro ⟨nodes', listed', mem⟩
    rwa [listed.unique listed']
  · exact fun mem => ⟨nodes, listed, mem⟩

end Memory

/-- A node that is part of a bucket or was deleted from it. -/
def Known (t : Table) (m : Memory) (bucket : Nat) (a : Addr) : Prop :=
  m.Reach bucket a ∨ m.Marked a ∧ t.bucketOf (m.keyOf a) = bucket

structure MemWf (t : Table) (m : Memory) : Prop where
  listed : ∀ bucket, ∃ nodes, m.Listed bucket nodes ∧ nodes.Nodup ∧
    ∀ a ∈ nodes, t.bucketOf (m.keyOf a) = bucket
  headUnmarked : ∀ bucket, (m.buckets bucket).marked = false
  markedNext : ∀ {a next}, m.Marked a → m.linkOf (.node a) = some next →
    Known t m (t.bucketOf (m.keyOf a)) next

namespace MemWf

variable {m : Memory} {bucket : Nat}

theorem bucketOf_key (wf : MemWf t m) (reach : m.Reach bucket a) :
    t.bucketOf (m.keyOf a) = bucket := by
  obtain ⟨nodes, listed, -, inBucket⟩ := wf.listed bucket
  exact inBucket a (listed.reach_iff.mp reach)

theorem known_bucket (wf : MemWf t m) (known : Known t m bucket a) :
    t.bucketOf (m.keyOf a) = bucket := by
  rcases known with reach | ⟨-, inBucket⟩
  · exact wf.bucketOf_key reach
  · exact inBucket

theorem reach_of_known (known : Known t m bucket a) (unmarked : ¬ m.Marked a) : m.Reach bucket a :=
  known.resolve_right (fun deleted => unmarked deleted.1)

theorem reach_next {next : Addr} (reach : m.Reach bucket a)
    (linked : m.linkOf (.node a) = some next) : m.Reach bucket next := by
  obtain ⟨nodes, listed, mem⟩ := reach
  obtain ⟨front, back, rfl, -, behind⟩ := Segment.split_mem listed mem
  refine ⟨_, listed, ?_⟩
  cases back with
  | nil =>
    rw [linked] at behind
    cases behind
  | cons first rest =>
    cases linked.symm.trans behind.1
    simp

theorem known_next (wf : MemWf t m) {next : Addr} (known : Known t m bucket a)
    (linked : m.linkOf (.node a) = some next) : Known t m bucket next := by
  by_cases marked : m.Marked a
  · rw [← wf.known_bucket known]
    exact wf.markedNext marked linked
  · exact .inl (reach_next (reach_of_known known marked) linked)

theorem reach_head (wf : MemWf t m) {next : Addr}
    (linked : m.linkOf (.head bucket) = some next) : m.Reach bucket next := by
  obtain ⟨nodes, listed, -, -⟩ := wf.listed bucket
  refine ⟨nodes, listed, ?_⟩
  unfold Memory.Listed Chain at listed
  rw [linked] at listed
  cases nodes with
  | nil => cases listed
  | cons first rest =>
    cases listed.1
    simp

end MemWf

structure Position (t : Table) (m : Memory) (bucket : Nat) (link : Link)
    (front back : List Addr) : Prop where
  listed : m.Listed bucket (front ++ back)
  nodup : (front ++ back).Nodup
  inBucket : ∀ a ∈ front ++ back, t.bucketOf (m.keyOf a) = bucket
  endsAt : endCell (.head bucket) front = link

namespace Position

variable {t : Table} {m : Memory} {bucket : Nat} {link : Link} {back : List Addr}

theorem ofHead (wf : MemWf t m) (bucket : Nat) :
    ∃ back, Position t m bucket (.head bucket) [] back := by
  obtain ⟨nodes, listed, nodup, inBucket⟩ := wf.listed bucket
  exact ⟨nodes, listed, nodup, inBucket, rfl⟩

theorem ofNode (wf : MemWf t m) (reach : m.Reach bucket a) :
    ∃ init back, Position t m bucket (.node a) (init ++ [a]) back := by
  obtain ⟨nodes, listed, nodup, inBucket⟩ := wf.listed bucket
  obtain ⟨init, back, rfl⟩ := List.append_of_mem (listed.reach_iff.mp reach)
  have regroup : init ++ a :: back = (init ++ [a]) ++ back := by simp
  rw [regroup] at listed nodup inBucket
  exact ⟨init, back, listed, nodup, inBucket, Chain.endCell_snoc _ _ _⟩

theorem tail (pos : Position t m bucket link front back) :
    Segment m.linkOf (m.linkOf link) back none := by
  obtain ⟨-, tail⟩ := Chain.append_iff.mp pos.listed
  rwa [pos.endsAt] at tail

theorem linkOf_eq (pos : Position t m bucket link front back) : m.linkOf link = back.head? := by
  have tail := pos.tail
  cases back with
  | nil => exact tail
  | cons a rest => exact tail.1

theorem node_mem_front (pos : Position t m bucket (.node a) front back) : a ∈ front := by
  rcases Chain.endCell_cases (Cell.head bucket : Link) front with ⟨-, atEnd⟩ | ⟨init, last, rfl, atEnd⟩
  · rw [pos.endsAt] at atEnd
    cases atEnd
  · rw [pos.endsAt] at atEnd
    cases atEnd
    simp

theorem off_bucket (pos : Position t m bucket link front back) (diff : other ≠ bucket)
    {nodes : List Addr} (inOther : ∀ a ∈ nodes, t.bucketOf (m.keyOf a) = other) :
    (.head other : Link) ≠ link ∧ ∀ a ∈ nodes, link ≠ .node a := by
  constructor
  · rintro rfl
    rcases Chain.endCell_cases (Cell.head bucket : Link) front with ⟨-, atEnd⟩ | ⟨_, _, -, atEnd⟩
    · rw [pos.endsAt] at atEnd
      cases atEnd
      exact diff rfl
    · rw [pos.endsAt] at atEnd
      cases atEnd
  · rintro a mem rfl
    have here := pos.inBucket a (List.mem_append_left _ pos.node_mem_front)
    exact diff ((inOther a mem).symm.trans here)

end Position

/-- What one step of the system may do to memory. -/
structure Evolves (t : Table) (pre after : Memory) : Prop where
  key : ∀ {bucket a}, Known t pre bucket a → after.keyOf a = pre.keyOf a
  frozen : ∀ {a}, pre.Marked a →
    after.read (.node a) = pre.read (.node a)
  reach : ∀ {bucket a}, pre.Reach bucket a →
    after.Reach bucket a ∨ pre.Marked a
  sentinel : ∀ {bucket a}, Known t pre bucket a →
    t.isSentinel (pre.elems a).value = true →
    t.isSentinel (after.elems a).value = true

namespace Evolves

variable {t : Table} {pre after : Memory} {bucket : Nat} {a : Addr}

theorem refl (t : Table) (m : Memory) : Evolves t m m :=
  ⟨fun _ => rfl, fun _ => rfl, .inl, fun _ => id⟩

theorem marked (evolves : Evolves t pre after) (marked : pre.Marked a) : after.Marked a := by
  unfold Memory.Marked
  rwa [evolves.frozen marked]

theorem known (evolves : Evolves t pre after) (wf : MemWf t pre)
    (known : Known t pre bucket a) : Known t after bucket a := by
  by_cases marked : pre.Marked a
  · refine .inr ⟨evolves.marked marked, ?_⟩
    rw [evolves.key known]
    exact wf.known_bucket known
  · have reach := MemWf.reach_of_known known marked
    exact .inl ((evolves.reach reach).resolve_right marked)

theorem trans (first : Evolves t pre after) (second : Evolves t after last) (wf : MemWf t pre)
    (stays : ∀ {a}, after.Marked a → pre.Marked a) : Evolves t pre last where
  key known := (second.key (first.known wf known)).trans (first.key known)
  frozen marked := (second.frozen (first.marked marked)).trans (first.frozen marked)
  reach reach := by
    rcases first.reach reach with reach' | marked
    · exact (second.reach reach').imp_right stays
    · exact .inr marked
  sentinel known isSentinel :=
    second.sentinel (first.known wf known) (first.sentinel known isSentinel)

/-- A change that marks nothing keeps deleted nodes leading back into their buckets. -/
theorem markedNext (evolves : Evolves t pre after) (wf : MemWf t pre)
    (stays : ∀ {a}, after.Marked a → pre.Marked a) {next : Addr}
    (marked : after.Marked a) (linked : after.linkOf (.node a) = some next) :
    Known t after (t.bucketOf (after.keyOf a)) next := by
  have deleted : Known t pre (t.bucketOf (pre.keyOf a)) a := .inr ⟨stays marked, rfl⟩
  rw [evolves.key deleted]
  refine evolves.known wf (wf.markedNext (stays marked) ?_)
  rw [← linked]
  exact congrArg Ptr.node (evolves.frozen (stays marked)).symm

end Evolves

variable {after : Memory}

theorem Memory.listed_congr {pre : Memory} (same : after.linkOf = pre.linkOf) :
    after.Listed bucket nodes ↔ pre.Listed bucket nodes := by
  unfold Memory.Listed
  rw [same]

theorem Memory.reach_congr {pre : Memory} (same : after.linkOf = pre.linkOf)
    : after.Reach bucket a ↔ pre.Reach bucket a := by
  simp only [Memory.Reach, listed_congr same]

section

variable {t : Table} {m : Memory} {a : Addr}

theorem linkOf_mark : (m.write (.node a) (m.read (.node a)).mark).linkOf = m.linkOf := by
  rw [linkOf_write]
  exact Function.update_eq_self _ _

theorem marked_mark (unmarked : ¬ m.Marked a) :
    (m.write (.node a) (m.read (.node a)).mark).Marked other ↔ m.Marked other ∨ other = a := by
  unfold Memory.Marked at unmarked ⊢
  by_cases same : other = a
  · subst same
    simpa [Ptr.mark] using unmarked
  · rw [read_write_of_ne (by simpa using same)]
    simp [same]

theorem Evolves.mark (unmarked : ¬ m.Marked a) :
    Evolves t m (m.write (.node a) (m.read (.node a)).mark) where
  key _ := keyOf_write
  frozen {other} marked := by
    have diff : other ≠ a := fun same => unmarked (same ▸ marked)
    exact read_write_of_ne (by simpa using diff)
  reach reach := .inl ((reach_congr linkOf_mark).mpr reach)
  sentinel _ isSentinel := by rwa [value_write]

theorem MemWf.mark (wf : MemWf t m) (reach : m.Reach bucket a) (unmarked : ¬ m.Marked a) :
    MemWf t (m.write (.node a) (m.read (.node a)).mark) where
  listed other := by
    obtain ⟨nodes, listed, nodup, inBucket⟩ := wf.listed other
    exact ⟨nodes, (listed_congr linkOf_mark).mpr listed, nodup,
      fun node mem => by rw [keyOf_write]; exact inBucket node mem⟩
  headUnmarked := wf.headUnmarked
  markedNext {node next} marked linked := by
    rw [linkOf_mark] at linked
    rw [keyOf_write]
    refine (Evolves.mark unmarked).known wf ?_
    rcases (marked_mark unmarked).mp marked with pre | rfl
    · exact wf.markedNext pre linked
    · rw [wf.bucketOf_key reach]
      exact .inl (MemWf.reach_next reach linked)

end

/-- A node that no list and no deleted link shows. -/
structure Hidden (m : Memory) (a : Addr) : Prop where
  unlisted : ∀ bucket, ¬ m.Reach bucket a
  unmarked : ¬ m.Marked a

theorem Hidden.ne_of_known (hidden : Hidden m a) (known : Known t m bucket other) : other ≠ a := by
  rintro rfl
  rcases known with reach | ⟨marked, -⟩
  · exact hidden.unlisted bucket reach
  · exact hidden.unmarked marked

/-- Memory changes at one node only, and leaves it unmarked. -/
structure AgreesOff (pre after : Memory) (a : Addr) : Prop where
  buckets : after.buckets = pre.buckets
  elems : ∀ other, other ≠ a → after.elems other = pre.elems other
  plain : (after.read (.node a)).marked = false

namespace AgreesOff

variable {t : Table} {pre after : Memory} {a : Addr} {bucket : Nat}

theorem write (plain : ptr.marked = false) : AgreesOff m (m.write (.node a) ptr) a where
  buckets := rfl
  elems other diff := by simp [Memory.write, diff]
  plain := by rwa [read_write_self]

variable (agrees : AgreesOff pre after a)
include agrees

theorem read_node (diff : other ≠ a) : after.read (.node other) = pre.read (.node other) :=
  congrArg Elem.next (agrees.elems other diff)

theorem listed (hidden : Hidden pre a) (listed : pre.Listed bucket nodes) :
    after.Listed bucket nodes := by
  have sameHead : after.linkOf (.head bucket) = pre.linkOf (.head bucket) :=
    congrArg (fun buckets : Nat → Ptr => (buckets bucket).node) agrees.buckets
  unfold Memory.Listed Chain
  rw [sameHead]
  refine Segment.congr (fun node mem => ?_) listed
  have diff : node ≠ a := fun same => hidden.unlisted bucket ⟨nodes, listed, same ▸ mem⟩
  exact congrArg Ptr.node (agrees.read_node diff)

theorem reach_iff (wf : MemWf t pre)
    (hidden : Hidden pre a) : after.Reach bucket other ↔ pre.Reach bucket other := by
  obtain ⟨nodes, listed, -, -⟩ := wf.listed bucket
  rw [listed.reach_iff, (agrees.listed hidden listed).reach_iff]

theorem marked_iff (hidden : Hidden pre a) : after.Marked other ↔ pre.Marked other := by
  by_cases same : other = a
  · subst same
    refine iff_of_false ?_ hidden.unmarked
    simp [Memory.Marked, agrees.plain]
  · unfold Memory.Marked
    rw [agrees.read_node same]

theorem evolves (wf : MemWf t pre) (hidden : Hidden pre a) : Evolves t pre after where
  key known := congrArg Elem.key (agrees.elems _ (hidden.ne_of_known known))
  frozen marked := agrees.read_node (fun same => hidden.unmarked (same ▸ marked))
  reach reach := .inl ((agrees.reach_iff wf hidden).mpr reach)
  sentinel known isSentinel := by rwa [agrees.elems _ (hidden.ne_of_known known)]

theorem wf (wf : MemWf t pre) (hidden : Hidden pre a) : MemWf t after where
  listed bucket := by
    obtain ⟨nodes, listed, nodup, inBucket⟩ := wf.listed bucket
    refine ⟨nodes, agrees.listed hidden listed, nodup, fun node mem => ?_⟩
    rw [(agrees.evolves wf hidden).key (.inl ⟨nodes, listed, mem⟩)]
    exact inBucket node mem
  headUnmarked bucket := by
    rw [agrees.buckets]
    exact wf.headUnmarked bucket
  markedNext := (agrees.evolves wf hidden).markedNext wf (agrees.marked_iff hidden).mp

theorem hidden_iff (wf : MemWf t pre)
    (hidden : Hidden pre a) : Hidden after other ↔ Hidden pre other := by
  constructor
  · intro ⟨unlisted, unmarked⟩
    exact ⟨fun bucket reach => unlisted bucket ((agrees.reach_iff wf hidden).mpr reach),
      fun marked => unmarked ((agrees.marked_iff hidden).mpr marked)⟩
  · intro ⟨unlisted, unmarked⟩
    exact ⟨fun bucket reach => unlisted bucket ((agrees.reach_iff wf hidden).mp reach),
      fun marked => unmarked ((agrees.marked_iff hidden).mp marked)⟩

end AgreesOff

structure SameLists (t : Table) (pre after : Memory) : Prop where
  read : ∀ link, after.read link = pre.read link
  key : ∀ a, after.keyOf a = pre.keyOf a
  sentinel : ∀ a, t.isSentinel (pre.elems a).value = true →
    t.isSentinel (after.elems a).value = true

namespace SameLists

variable {t : Table} {pre after : Memory} {a : Addr} {bucket : Nat} (same : SameLists t pre after)
include same

theorem linkOf : after.linkOf = pre.linkOf := funext fun link => congrArg Ptr.node (same.read link)

theorem marked_iff : after.Marked a ↔ pre.Marked a := by
  unfold Memory.Marked
  rw [same.read]

theorem evolves : Evolves t pre after where
  key _ := same.key _
  frozen _ := same.read _
  reach reach := .inl ((reach_congr same.linkOf).mpr reach)
  sentinel _ := same.sentinel _

theorem wf (wf : MemWf t pre) : MemWf t after where
  listed bucket := by
    obtain ⟨nodes, listed, nodup, inBucket⟩ := wf.listed bucket
    refine ⟨nodes, (listed_congr same.linkOf).mpr listed, nodup, fun node mem => ?_⟩
    rw [same.key]
    exact inBucket node mem
  headUnmarked bucket :=
    (congrArg Ptr.marked (same.read (.head bucket))).trans (wf.headUnmarked bucket)
  markedNext := same.evolves.markedNext wf same.marked_iff.mp

theorem hidden_iff : Hidden after a ↔ Hidden pre a := by
  constructor
  · intro ⟨unlisted, unmarked⟩
    exact ⟨fun bucket reach => unlisted bucket ((reach_congr same.linkOf).mpr reach),
      fun marked => unmarked (same.marked_iff.mpr marked)⟩
  · intro ⟨unlisted, unmarked⟩
    exact ⟨fun bucket reach => unlisted bucket ((reach_congr same.linkOf).mp reach),
      fun marked => unmarked (same.marked_iff.mp marked)⟩

end SameLists

structure Splice (t : Table) (m : Memory) (bucket : Nat) (link : Link) (ptr : Ptr)
    (front run post middle : List Addr) : Prop where
  position : Position t m bucket link front (run ++ post)
  linkUnmarked : (m.read link).marked = false
  runMarked : ∀ a ∈ run, m.Marked a
  ptrUnmarked : ptr.marked = false
  behind : Segment m.linkOf ptr.node (middle ++ post) none
  hidden : ∀ a ∈ middle, ∀ bucket, ¬ m.Reach bucket a
  middleNodup : middle.Nodup
  middleInBucket : ∀ a ∈ middle, t.bucketOf (m.keyOf a) = bucket

namespace Splice

variable {t : Table} {m : Memory} {bucket : Nat} {link : Link} {ptr : Ptr}
  {front run post middle : List Addr} (splice : Splice t m bucket link ptr front run post middle)
include splice

variable {a : Addr} {other : Nat}

theorem not_mem (mem : a ∈ middle) : a ∉ front ++ (run ++ post) := fun inList =>
  splice.hidden a mem bucket (splice.position.listed.reach_iff.mpr inList)

theorem listed : (m.write link ptr).Listed bucket (front ++ (middle ++ post)) := by
  unfold Memory.Listed
  have nodup := splice.position.nodup
  rw [linkOf_write, ← splice.position.endsAt]
  refine Chain.update_endCell splice.position.listed (List.nodup_append.mp nodup).1 splice.behind ?_
  intro a mem inFront
  rcases List.mem_append.mp mem with inMiddle | inPost
  · exact splice.not_mem inMiddle (List.mem_append_left _ inFront)
  · exact (List.nodup_append.mp nodup).2.2 a inFront a (by simp [inPost]) rfl

theorem listed_other (diff : other ≠ bucket) (listed : m.Listed other nodes)
    (inOther : ∀ a ∈ nodes, t.bucketOf (m.keyOf a) = other) :
    (m.write link ptr).Listed other nodes := by
  unfold Memory.Listed
  rw [linkOf_write]
  obtain ⟨headOff, nodesOff⟩ := splice.position.off_bucket diff inOther
  exact Chain.update_off listed headOff nodesOff

theorem nodup : (front ++ (middle ++ post)).Nodup := by
  have nodup := splice.position.nodup
  obtain ⟨frontNodup, backNodup, across⟩ := List.nodup_append.mp nodup
  have postNodup := (List.nodup_append.mp backNodup).2.1
  refine List.nodup_append.mpr ⟨frontNodup, List.nodup_append.mpr
    ⟨splice.middleNodup, postNodup, ?_⟩, ?_⟩
  · rintro a inMiddle _ inPost rfl
    exact splice.not_mem inMiddle (by simp [inPost])
  · rintro a inFront _ inBack rfl
    rcases List.mem_append.mp inBack with inMiddle | inPost
    · exact splice.not_mem inMiddle (by simp [inFront])
    · exact across a inFront a (by simp [inPost]) rfl

theorem marked_iff : (m.write link ptr).Marked a ↔ m.Marked a := by
  unfold Memory.Marked
  by_cases same : (.node a : Link) = link
  · subst same
    simp [splice.ptrUnmarked, splice.linkUnmarked]
  · rw [read_write_of_ne same]

variable (pre : MemWf t m)
include pre

theorem reach_cases (reach : (m.write link ptr).Reach other a) : m.Reach other a ∨ a ∈ middle := by
  by_cases same : other = bucket
  · subst same
    have mem := splice.listed.reach_iff.mp reach
    rw [splice.position.listed.reach_iff]
    simp only [List.mem_append] at mem ⊢
    tauto
  · obtain ⟨nodes, listed, -, inBucket⟩ := pre.listed other
    have mem := (splice.listed_other same listed inBucket).reach_iff.mp reach
    exact .inl ⟨nodes, listed, mem⟩

theorem reach_kept (reach : m.Reach other a) : (m.write link ptr).Reach other a ∨ a ∈ run := by
  by_cases same : other = bucket
  · subst same
    have mem := splice.position.listed.reach_iff.mp reach
    rw [splice.listed.reach_iff]
    simp only [List.mem_append] at mem ⊢
    tauto
  · obtain ⟨nodes, listed, -, inBucket⟩ := pre.listed other
    exact .inl ⟨nodes, splice.listed_other same listed inBucket, listed.reach_iff.mp reach⟩

theorem run_dropped (mem : a ∈ run) : ¬ (m.write link ptr).Reach other a := by
  intro reach
  have wasThere : m.Reach bucket a := splice.position.listed.reach_iff.mpr (by simp [mem])
  rcases splice.reach_cases pre reach with old | inMiddle
  · have same : other = bucket := (pre.bucketOf_key old).symm.trans (pre.bucketOf_key wasThere)
    subst same
    obtain ⟨-, backNodup, across⟩ := List.nodup_append.mp splice.position.nodup
    obtain ⟨-, -, acrossRun⟩ := List.nodup_append.mp backNodup
    have inNew := splice.listed.reach_iff.mp reach
    rcases List.mem_append.mp inNew with inFront | inBack
    · exact across a inFront a (by simp [mem]) rfl
    · rcases List.mem_append.mp inBack with inMiddle | inPost
      · exact splice.hidden a inMiddle _ wasThere
      · exact acrossRun a mem a inPost rfl
  · exact splice.hidden a inMiddle _ wasThere

theorem evolves : Evolves t m (m.write link ptr) where
  key _ := keyOf_write
  frozen {a} marked := by
    refine read_write_of_ne ?_
    rintro rfl
    exact absurd (marked.symm.trans splice.linkUnmarked) (by simp)
  reach reach := (splice.reach_kept pre reach).imp_right (splice.runMarked _)
  sentinel _ isSentinel := by rwa [value_write]

theorem wf : MemWf t (m.write link ptr) where
  listed other := by
    by_cases same : other = bucket
    · subst same
      refine ⟨_, splice.listed, splice.nodup, fun a mem => ?_⟩
      rw [keyOf_write]
      have old := splice.position.inBucket a
      have new := splice.middleInBucket a
      simp only [List.mem_append] at mem old
      tauto
    · obtain ⟨nodes, listed, nodup, inBucket⟩ := pre.listed other
      exact ⟨nodes, splice.listed_other same listed inBucket, nodup,
        fun a mem => by rw [keyOf_write]; exact inBucket a mem⟩
  headUnmarked other := by
    by_cases same : (.head other : Link) = link
    · subst same
      have written : (m.write (.head other) ptr).read (.head other) = ptr := read_write_self
      exact (congrArg Ptr.marked written).trans splice.ptrUnmarked
    · have kept : (m.write link ptr).read (.head other) = m.read (.head other) :=
        read_write_of_ne same
      exact (congrArg Ptr.marked kept).trans (pre.headUnmarked other)
  markedNext marked linked := (splice.evolves pre).markedNext pre splice.marked_iff.mp marked linked

end Splice

end PgAqp.Hash
