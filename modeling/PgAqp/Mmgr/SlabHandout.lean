import PgAqp.Mmgr.SlabSafety

/-!
# No item is handed out twice

This holds in every run in which the offset is swapped only for the chunk that it counts in.
-/

namespace PgAqp.Mmgr

open Library Function List Option SharedSlab

def Apart (itemsz first second : Nat) : Prop :=
  first + itemsz ≤ second ∨ second + itemsz ≤ first

namespace SharedSlab

variable {s : SharedSlab}

theorem Issued.apart (isFirst : s.Issued first)
    (isSecond : s.Issued second) (diff : first ≠ second) :
    Apart s.itemsz first second := by
  obtain ⟨chunk, i, rfl, within, -⟩ := isFirst
  obtain ⟨chunk', i', rfl, within', -⟩ := isSecond
  rcases Nat.lt_trichotomy chunk chunk' with pre | rfl | after
  · left
    unfold chunkAllocSize at *
    omega
  · rcases Nat.lt_trichotomy i i' with pre | rfl | after
    · left
      have next : (i + 1) * s.itemsz ≤ i' * s.itemsz := Nat.mul_le_mul_right _ pre
      rw [Nat.succ_mul] at next
      omega
    · exact absurd rfl diff
    · right
      have next : (i' + 1) * s.itemsz ≤ i * s.itemsz := Nat.mul_le_mul_right _ after
      rw [Nat.succ_mul] at next
      omega
  · right
    unfold chunkAllocSize at *
    omega

theorem pairwise_apart {items : List ItemPtr} (nodup : items.Nodup)
    (issued : ∀ item ∈ items, s.Issued item) : items.Pairwise (Apart s.itemsz) :=
  nodup.imp_of_mem fun first second diff => (issued _ first).apart (issued _ second) diff

theorem SlabInv.apart (inv : s.SlabInv free) : (free ++ s.allocated).Pairwise (Apart s.itemsz) := by
  have isFree : ∀ {item}, item ∈ free → s.holds free .free item := id
  have isAllocated : ∀ {item}, item ∈ s.allocated → s.holds free .allocated item := id
  refine pairwise_apart (nodup_append.mpr ⟨inv.freeNodup, inv.allocatedNodup, ?_⟩) ?_
  · rintro item onFree _ allocated rfl
    exact Place.noConfusion (inv.exclusive (isFree onFree) (isAllocated allocated))
  · intro item mem
    rcases mem_append.mp mem with onFree | allocated
    · exact inv.issued (isFree onFree)
    · exact inv.issued (isAllocated allocated)

end SharedSlab

variable {itemsz : Nat} {capacity : Tid → Nat} {nowait : Tid → Bool} {maxBackends count : Nat}
  {schedule : List SlabLabel} {s : SharedSlab}

theorem sharedSlabInit_inv
    (positive : 0 < itemsz) : (sharedSlabInit itemsz capacity nowait maxBackends).SlabInv [] where
  itemsz := by
    change 0 < (itemsz + 7) / 8 * 8
    omega
  sound := ⟨Nat.zero_lt_one, nofun⟩
  chain := rfl
  freeNodup := nodup_nil
  allocatedNodup := nodup_nil
  waitingNodup _ := nodup_nil
  exclusive place _ item held := by cases place <;> exact nomatch held
  issued {place item} held := by cases place <;> exact nomatch held
  entries := ⟨nofun, nofun⟩
  backend _ := ⟨trivial, rfl, nofun, nofun, ⟨List.Pairwise.nil, nofun⟩, rfl⟩
  chunk := by
    refine ⟨⟨⟨0, rfl⟩, fun _ => ?_, fun nonzero => absurd rfl nonzero⟩, .inl rfl, nofun⟩
    change chunkAllocSize < chunkAllocSize + (itemsz + 7) / 8 * 8
    omega

section

variable (positive : 0 < itemsz)
  (meets : Run.Meets slabNext Current (sharedSlabInit itemsz capacity nowait maxBackends) schedule)
  (reached : Run.run slabNext (sharedSlabInit itemsz capacity nowait maxBackends) schedule = some s)
include positive meets reached

theorem slabRun_inv : ∃ free, s.SlabInv free ∧ s.Carved := by
  refine Run.invariant (fun s => ∃ free, s.SlabInv free ∧ s.Carved) ?_
    ⟨[], sharedSlabInit_inv positive, nodup_nil, nofun⟩ meets reached
  rintro pre after label ⟨free, inv, carved⟩ current stepped
  obtain ⟨free', inv', carves, -⟩ := slabNext_settles inv current stepped
  exact ⟨free', inv', carves carved⟩

/-- No item is allocated twice or allocated while it is on the free list, and no item is cut off
a chunk twice: the items in question do not even overlap. -/
theorem items_apart : s.carved.Pairwise (Apart s.itemsz) ∧ ∃ free, Chain s.links (.head ()) free ∧
    (free ++ s.allocated).Pairwise (Apart s.itemsz) := by
  obtain ⟨free, inv, carved⟩ := slabRun_inv positive meets reached
  exact ⟨pairwise_apart carved.1 carved.2, free, inv.chain, inv.apart⟩

end

def smallSlab : SharedSlab := sharedSlabInit 24 (fun tid => tid + 4) (fun tid => tid == 0) 2

def steps (tid : Tid) (count : Nat) : List SlabLabel := replicate count (.step tid)

/-- A backend allocates two items, frees one of them and reclaims it; another one gets it back
from the free list. -/
def recyclesItem : List SlabLabel :=
  [.acquire 0 0, .acquire 1 1, .allocate 0] ++ steps 0 11 ++ [.allocate 0] ++ steps 0 4 ++
    [.free 0 1073741824, .reclaim 0 true] ++ steps 0 2 ++ [.refresh 1, .advance 1] ++ steps 0 6 ++
    [.allocate 1] ++ steps 1 3

theorem recyclesItem_apart :
    (Run.last slabNext smallSlab recyclesItem).allocated =
        [1073741824, 1073741848] ∧
      ∃ free, Chain (Run.last slabNext smallSlab recyclesItem).links (.head ())
          free ∧
        (free ++ (Run.last slabNext smallSlab recyclesItem).allocated).Pairwise
          (Apart (Run.last slabNext smallSlab recyclesItem).itemsz) :=
  ⟨by decide +kernel,
    (items_apart (by decide) (by decide +kernel) (Run.run_last (by decide +kernel))).2⟩

def kilobyteSlab : SharedSlab := sharedSlabInit 1023 (fun _ => 4) (fun _ => true) 2

/-- The first chunk is made, and backend 0 has read the offset 0 and the chunk. -/
def delaysSwap : List SlabLabel :=
  [.acquire 0 0, .acquire 1 1, .newChunk 1] ++ steps 1 5 ++ [.allocate 0] ++ steps 0 3

structure Filling (count : Nat) (s : SharedSlab) : Prop where
  itemsz : s.itemsz = 1024
  head : s.freelistHead = none
  newChunk : s.newChunk = ⟨1073741824, false⟩
  offset : s.unallocatedOffset = count * 1024
  delayed : (s.backends 0).pc = .swapOffset 0 1073741824
  isIdle : (s.backends 1).pc = .idle
  entry : (s.backends 1).entry = some 1
  first : 0 < count → 1073741824 ∈ s.allocated

theorem Filling.next (filling : Filling count s) (fits : count * 1024 + 1024 ≤ 1073741824) :
    ∃ s', Run.run slabNext s (.allocate 1 :: steps 1 4) = some s' ∧ Filling (count + 1) s' := by
  have head : s.links (.head ()) = none := filling.head
  simp only [steps, replicate, Run.run, slabNext, SharedSlab.access, SharedSlab.enter,
    SharedSlab.setBackend, SharedSlab.goTo, SharedSlab.tryHead, SharedSlab.tryOffset,
    SharedSlab.freelistHead, SharedSlab.fits, SharedSlab.carve, SharedSlab.handOut, chunkAllocSize,
    head, filling.isIdle, filling.entry, filling.newChunk, filling.itemsz, filling.offset, fits,
    update_self, update_idem, isSome_some, and_self, if_true, decide_true,
    Bool.false_eq_true, if_false]
  refine ⟨_, rfl, rfl, head, rfl, ?_, ?_, ?_, ?_, fun _ => ?_⟩
  · exact (Nat.succ_mul count 1024).symm
  · exact filling.delayed
  · rfl
  · rfl
  · rcases Nat.eq_zero_or_pos count with rfl | positive
    · exact mem_cons_self
    · exact mem_cons_of_mem _ (filling.first positive)

theorem Filling.fill (filling : Filling count s) (more : Nat) (room : count + more ≤ 1048576) :
    ∃ schedule s', Run.run slabNext s schedule = some s' ∧ Filling (count + more) s' := by
  induction more with
  | zero => exact ⟨[], s, rfl, filling⟩
  | succ more ih =>
    obtain ⟨schedule, s', reached, filling'⟩ := ih (by omega)
    obtain ⟨s'', reached', filling''⟩ := filling'.next (by omega)
    refine ⟨schedule ++ (.allocate 1 :: steps 1 4), s'', ?_, filling''⟩
    rw [Run.run_append, reached]
    exact reached'

/-- When the chunk is full backend 1 makes the next one, and as soon as the offset is 0 again
backend 0 gets the first item of the full chunk. -/
theorem Filling.twice (filling : Filling 1048576 s) :
    ∃ s', Run.run slabNext s (.allocate 1 :: (steps 1 6 ++ [.step 0])) = some s' ∧
      s'.allocated = 1073741824 :: s.allocated := by
  have head : s.links (.head ()) = none := filling.head
  simp [steps, replicate, Run.run, slabNext, SharedSlab.access, SharedSlab.enter,
    SharedSlab.setBackend, SharedSlab.goTo, SharedSlab.tryHead, SharedSlab.tryOffset,
    SharedSlab.freelistHead, SharedSlab.fits, SharedSlab.carve, SharedSlab.handOut, chunkAllocSize,
    head, filling.isIdle, filling.entry, filling.newChunk, filling.itemsz, filling.offset,
    filling.delayed]

/-- An item that is allocated is handed out again. -/
theorem delaysSwap_handsOutTwice :
    ∃ schedule s, Run.run slabNext kilobyteSlab (delaysSwap ++ schedule) =
      some s ∧ ¬ s.allocated.Nodup := by
  have start : Run.run slabNext kilobyteSlab delaysSwap =
      some (Run.last slabNext kilobyteSlab delaysSwap) :=
    Run.run_last (by decide +kernel)
  have filling : Filling 0 (Run.last slabNext kilobyteSlab delaysSwap) := by
    refine ⟨?_, ?_, ?_, ?_, ?_, ?_, ?_, nofun⟩ <;> decide +kernel
  obtain ⟨schedule, full, reached, filled⟩ := filling.fill 1048576 (by decide)
  obtain ⟨s, last, twice⟩ := filled.twice
  refine ⟨schedule ++ (.allocate 1 :: (steps 1 6 ++ [.step 0])), s, ?_, ?_⟩
  · rw [Run.run_append, start]
    change Run.run slabNext _ (schedule ++ _) = some s
    rw [Run.run_append, reached]
    exact last
  · rw [twice]
    exact fun nodup => (nodup_cons.mp nodup).1 (filled.first (by decide))

/-! ## Items are conserved

Every item that was cut off a chunk is allocated, on the free list, on the
deallocation list of one backend, or being freed, if the lists that go to the free list
have one item each.
-/

def Conserves (s : SharedSlab) (label : SlabLabel) : Prop :=
  Current s label ∧ Single s label
  deriving Decidable

theorem sharedSlabInit_covered :
    (sharedSlabInit itemsz capacity nowait maxBackends).Covered [] := by
  rintro item ⟨chunk, i, -, -, pre | ⟨same, -⟩⟩
  · exact absurd pre (Nat.not_lt_zero _)
  · have positive : 0 < (chunk + 1) * chunkAllocSize := Nat.mul_pos (Nat.succ_pos _) (by decide)
    exact absurd same (Nat.ne_of_gt positive)

theorem slabRun_covered (positive : 0 < itemsz)
    (meets : Run.Meets slabNext Conserves (sharedSlabInit itemsz capacity nowait maxBackends)
      schedule)
    (reached : Run.run slabNext (sharedSlabInit itemsz capacity nowait maxBackends) schedule =
      some s) : ∃ free, s.SlabInv free ∧ s.Covered free := by
  refine Run.invariant (fun s => ∃ free, s.SlabInv free ∧ s.Covered free) ?_
    ⟨[], sharedSlabInit_inv positive, sharedSlabInit_covered⟩ meets reached
  rintro pre after label ⟨free, inv, covered⟩ ⟨current, single⟩ stepped
  obtain ⟨free', inv', -, covers⟩ := slabNext_settles inv current stepped
  exact ⟨free', inv', covers single covered⟩

structure Conserved (s : SharedSlab) (free : List ItemPtr) : Prop where
  chain : Chain s.links (.head ()) free
  freeOnce : free.Nodup
  allocatedOnce : s.allocated.Nodup
  waitingOnce : ∀ tid, (waiting (s.backends tid).lists).Nodup
  exclusive : Exclusive (s.holds free)
  accounted : ∀ item, s.Issued item ↔ ∃ place, s.holds free place item
  /-- The items that a backend has freed are those that it has returned and those that wait. -/
  freed : ∀ tid, (s.backends tid).freed =
    (s.backends tid).returned ++ waiting (s.backends tid).lists
  ordered : ∀ tid, ListsOk s.epochs.globalEpoch (s.backends tid).lists

/-- A swap that succeeds puts the list on the free list, in front of what was there. -/
def ReturnsList (s : SharedSlab) (free : List ItemPtr) : Prop :=
  ∀ tid safe first, (s.backends tid).pc = .pushSwap safe →
    (s.backends tid).lists.head? = some first → Conserves s (.step tid) →
    first.pointers.getLast?.bind (fun tail => s.links (.node tail)) = s.freelistHead →
    (∃ epoch, first.epoch = some epoch ∧ epoch ≤ s.epochs.safeEpoch) ∧
      ∃ s', slabNext s (.step tid) = some s' ∧
        Chain s'.links (.head ()) (first.pointers ++ free) ∧
        (s'.backends tid).returned = (s.backends tid).returned ++ first.pointers ∧
        waiting (s.backends tid).lists =
          first.pointers ++ waiting (s'.backends tid).lists

/-- The list has one item, so the last one is the first one. -/
theorem SharedSlab.SlabInv.returnsList (inv : s.SlabInv free) : ReturnsList s free := by
  intro tid safe first atSwap isFirst conserves same
  obtain ⟨ptr, isPtr⟩ : ∃ ptr, first.pointers = [ptr] := by
    have single := conserves.2
    simp only [Single, SlabLabel.accesses, all_some, atSwap, pushesSingle,
      isFirst, decide_eq_true_eq] at single
    exact length_eq_one_iff.mp single
  rw [isPtr] at same
  have swaps : s.freelistHead = s.links (.node ptr) := same.symm
  obtain ⟨rest, isLists⟩ : ∃ rest, (s.backends tid).lists = first :: rest :=
    head?_eq_some_iff.mp isFirst
  have pc := (inv.backend tid).pc
  rw [atSwap] at pc
  obtain ⟨-, list, epoch, isList, isEpoch, isSafe⟩ := pc
  cases some.inj (isFirst.symm.trans isList)
  have self : ((s.setLink (.head ()) (some ptr)).reclaimed tid safe first).backends tid =
      { s.backends tid with
        pc := .check safe
        lists := dropFirst (s.backends tid).lists
        returned := (s.backends tid).returned ++ first.pointers } :=
    backends_self ..
  refine ⟨⟨epoch, isEpoch, isSafe⟩,
    (s.setLink (.head ()) (some ptr)).reclaimed tid safe first, ?_, ?_, ?_, ?_⟩
  · simp only [slabNext, SharedSlab.access, atSwap, isFirst, isPtr, bind_some,
      getLast?_singleton, map_some, swaps, if_true]
  · rw [isPtr]
    exact chain_push inv.chain swaps
  · rw [self]
  · rw [self]
    rw [isLists, waiting_dropFirst]
    rfl

/-- Every item is somewhere, exactly once; the pending lists hold what was freed and not returned,
in the order of their epochs; and a list that is reclaimed is on the free list as a whole. -/
theorem items_conserved (positive : 0 < itemsz)
    (meets : Run.Meets slabNext Conserves (sharedSlabInit itemsz capacity nowait maxBackends)
      schedule)
    (reached : Run.run slabNext (sharedSlabInit itemsz capacity nowait maxBackends) schedule =
      some s) : ∃ free, Conserved s free ∧ ReturnsList s free := by
  obtain ⟨free, inv, covered⟩ := slabRun_covered positive meets reached
  refine ⟨free, ?_, inv.returnsList⟩
  exact
    { chain := inv.chain
      freeOnce := inv.freeNodup
      allocatedOnce := inv.allocatedNodup
      waitingOnce := inv.waitingNodup
      exclusive := inv.exclusive
      accounted := fun item => ⟨covered item, fun ⟨_, held⟩ => inv.issued held⟩
      freed := fun tid => (inv.backend tid).account
      ordered := fun tid => (inv.backend tid).ordered }

def reclaimsOne : List SlabLabel :=
  [.acquire 0 0, .allocate 0] ++ steps 0 11 ++ [.allocate 0] ++ steps 0 4 ++
    [.free 0 1073741824, .reclaim 0 true] ++ steps 0 2 ++ [.advance 1] ++ steps 0 6

theorem reclaimsOne_conserved :
    ((Run.last slabNext smallSlab reclaimsOne).backends 0).returned =
        [1073741824] ∧
      ∃ free, Conserved (Run.last slabNext smallSlab reclaimsOne) free ∧
        ReturnsList (Run.last slabNext smallSlab reclaimsOne) free :=
  ⟨by decide +kernel,
    items_conserved (by decide) (by decide +kernel) (Run.run_last (by decide +kernel))⟩

def reclaimsTwo : List SlabLabel :=
  [.acquire 0 0, .allocate 0] ++ steps 0 11 ++ [.allocate 0] ++ steps 0 4 ++
    [.free 0 1073741824, .free 0 1073741848, .reclaim 0 true] ++ steps 0 2 ++ [.advance 1] ++
    steps 0 7

/-- The list is returned, but only its last item is on the free list. -/
theorem reclaimsTwo_loses :
    ∃ s, Run.run slabNext smallSlab reclaimsTwo = some s ∧
      (s.backends 0).returned = [1073741824, 1073741848] ∧
      Chain s.links (.head ()) [1073741848] ∧ s.allocated = [] := by
  have reached : Run.run slabNext smallSlab reclaimsTwo =
      some (Run.last slabNext smallSlab reclaimsTwo) :=
    Run.run_last (by decide +kernel)
  refine ⟨_, reached, by decide +kernel, ?_, by decide +kernel⟩
  exact Segment.cons_iff.mpr ⟨by decide +kernel, Segment.nil_iff.mpr (by decide +kernel)⟩

end PgAqp.Mmgr
