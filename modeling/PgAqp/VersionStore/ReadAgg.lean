import Mathlib.Algebra.BigOperators.Group.Finset.Piecewise
import PgAqp.VersionStore.Split

/-!
# The aggregate that a snapshot reads

When no insertion and no vacuum is under way, every entry that a snapshot hides
is in exactly one node of the chain and still in the aggregate.
-/

namespace PgAqp.VersionStore

open Hash (Tid)
open Library List Option Entry Finset

/-- `_abt_read_agg`, without other steps in between. -/
def readAgg (typ : AggType) (snap : Option AbtSnapshot) (agg : Nat) (chain : List (Xid × Nat)) :
    Nat :=
  excludeAggInSnapshot typ snap (typ.read agg) chain

def Entry.visibleValue (snap : AbtSnapshot) (e : Entry) : Nat :=
  if e.present = true ∧ xidInSnapshot e.xmin (some snap) = false then e.value else 0

def Entry.hiddenValue (snap : AbtSnapshot) (e : Entry) : Nat :=
  if snap.Hides e.xmin then e.value else 0

theorem AggType.read_lt (typ : AggType) (word : Nat) : typ.read word < 18446744073709551616 := by
  cases typ <;> simp only [AggType.read, AggType.range] <;> omega

section

variable {typ : AggType} {s : Pivot} {live : LiveSnapshot} (inv : PivotInv typ s)
include inv

/-- An entry that a snapshot in use hides is still on its leaf page, unless a split moved it. -/
theorem PivotInv.present_of_hides (isLive : live ∈ s.live)
    (isEntry : i < s.count) (hides : live.snapshot.Hides (s.entries i).xmin) :
    (s.entries i).present ∨ (s.entries i).value = 0 := by
  cases isPresent : (s.entries i).present with
  | true => exact .inl rfl
  | false =>
    refine .inr ((inv.removed isEntry isPresent).resolve_right fun settled => ?_)
    exact settled.notHidden live isLive hides

theorem PivotInv.sum_split (window : Window s) (isLive : live ∈ s.live) : s.sum presentValue =
      s.sum (visibleValue live.snapshot) + s.sum (hiddenValue live.snapshot) := by
  unfold Pivot.sum
  rw [← sum_add_distrib]
  apply sum_congr rfl
  intro i mem
  have isEntry := Finset.mem_range.mp mem
  have isHidden := inv.xidInSnapshot_iff window isLive isEntry
  unfold presentValue visibleValue hiddenValue
  by_cases hides : live.snapshot.Hides (s.entries i).xmin
  · rcases inv.present_of_hides isLive isEntry hides with isPresent | isZero
    · simp [hides, isPresent, isHidden.mpr hides]
    · simp [isZero]
  · have notIn : xidInSnapshot (s.entries i).xmin (some live.snapshot) = false := by
      rw [← Bool.not_eq_true, isHidden]
      exact hides
    simp [hides, notIn]

theorem PivotInv.read_hidden (isLive : live ∈ s.live) (inChain : s.versions.store.InChain a) :
    (if live.snapshot.Hides (s.versions.store.xminOf a)
      then typ.read (s.versions.store.nodes a).deltaVal else 0) =
      s.sum fun e => if e.node = some a then e.hiddenValue live.snapshot else 0 := by
  have isXmin : ∀ i < s.count, (s.entries i).node = some a →
      (s.entries i).xmin = s.versions.store.xminOf a :=
    fun i isEntry isNode => (inv.node i isEntry a isNode).sameXmin.symm
  by_cases hides : live.snapshot.Hides (s.versions.store.xminOf a)
  · have small : (s.versions.store.nodes a).deltaVal ≤ s.agg := by
      rw [inv.delta a inChain, inv.agg]
      apply Nat.le_trans _ (Nat.le_add_right _ _)
      apply Finset.sum_le_sum
      intro i mem
      have isEntry := Finset.mem_range.mp mem
      unfold valueIn
      split
      next isNode =>
        rw [← isXmin i isEntry isNode] at hides
        rcases inv.present_of_hides isLive isEntry hides with isPresent | isZero
        · simp [presentValue, isPresent]
        · simp [isZero]
      · exact Nat.zero_le _
    rw [if_pos hides, AggType.read, Nat.mod_eq_of_lt (small.trans_lt inv.fits),
      inv.delta a inChain]
    apply sum_congr rfl
    intro i mem
    unfold valueIn
    split
    next isNode =>
      rw [← isXmin i (Finset.mem_range.mp mem) isNode] at hides
      simp [hiddenValue, hides, isNode]
    · next notNode => simp [notNode]
  · rw [if_neg hides]
    symm
    apply Finset.sum_eq_zero
    intro i mem
    dsimp only
    split
    next isNode =>
      rw [← isXmin i (Finset.mem_range.mp mem) isNode] at hides
      simp [hiddenValue, hides]
    · rfl

/-- When no insertion is under way, a hidden entry is in exactly one node of the chain. -/
theorem PivotInv.hiddenSum_eq (noInsert : s.writers = []) (isLive : live ∈ s.live)
    (listed : s.versions.store.Listed nodes) (nodup : nodes.Nodup) :
    hiddenSum typ live.snapshot (s.versions.store.versions nodes) =
      s.sum (hiddenValue live.snapshot) := by
  have overNodes : hiddenSum typ live.snapshot (s.versions.store.versions nodes) =
      ∑ a ∈ nodes.toFinset, s.sum fun e =>
        if e.node = some a then e.hiddenValue live.snapshot else 0 := by
    rw [sum_toFinset _ nodup]
    simp only [hiddenSum, Store.versions, List.map_map]
    congr 1
    apply map_congr_left
    intro a mem
    exact inv.read_hidden isLive ⟨nodes, listed, mem⟩
  rw [overNodes]
  unfold Pivot.sum
  rw [sum_comm]
  apply sum_congr rfl
  intro i mem
  have isEntry := Finset.mem_range.mp mem
  by_cases hides : live.snapshot.Hides (s.entries i).xmin
  · cases isNode : (s.entries i).node with
    | none =>
      rcases inv.uncounted i isEntry (.inr isNode) with ⟨-, tid, isWriter⟩ | isZero | settled
      · rw [noInsert] at isWriter
        cases isWriter
      · simp [hiddenValue, isZero]
      · exact absurd hides (settled.notHidden live isLive)
    | some a =>
      have recent : s.versions.collector.oldestXmin ≤ (s.entries i).xmin :=
        (inv.live live isLive).horizon.trans ((inv.live live isLive).ok.hides_ge hides)
      obtain ⟨others, listed', inChain⟩ :=
        (inv.node i isEntry a isNode).kept.resolve_right (recent.not_gt)
      cases listed.unique listed'
      simp only [isNode, some.injEq]
      rw [sum_ite_eq, if_pos (mem_toFinset.mpr inChain)]
  · simp [hiddenValue, hides]

theorem PivotInv.readAgg_eq (window : Window s)
    (noInsert : s.writers = []) (noVacuum : s.vacuum = none) (isLive : live ∈ s.live) :
    ∃ nodes, s.versions.store.Listed nodes ∧
      readAgg typ (some live.snapshot) s.agg (s.versions.store.versions nodes) =
        s.sum (visibleValue live.snapshot) ∧
      NoUnderflow typ live.snapshot live.snapshot.xip (typ.read s.agg)
        (s.versions.store.versions nodes) := by
  obtain ⟨nodes, listed, descending, -⟩ := inv.versions.store.listed
  have ok := (inv.live live isLive).ok
  have nodup : nodes.Nodup := descending.imp fun smaller same => by
    subst same
    exact Nat.lt_irrefl _ smaller
  have isAgg : typ.read s.agg = s.sum (visibleValue live.snapshot) +
      s.sum (hiddenValue live.snapshot) := by
    rw [AggType.read, Nat.mod_eq_of_lt inv.fits, inv.agg, noVacuum, inv.sum_split window isLive]
    rfl
  have isHidden := inv.hiddenSum_eq noInsert isLive listed nodup
  have near : ∀ version ∈ s.versions.store.versions nodes, live.snapshot.NearTo version.1 := by
    intro version mem
    obtain ⟨a, inNodes, rfl⟩ := mem_map.mp mem
    obtain ⟨i, isEntry, isXmin⟩ := inv.chainEntry a ⟨nodes, listed, inNodes⟩
    rw [← isXmin]
    exact window.nearTo isLive (Pivot.entry_mem_xids isEntry)
  have sorted : (s.versions.store.versions nodes).Pairwise fun first second =>
      second.1 < first.1 := pairwise_map.mpr descending
  have enough : hiddenSum typ live.snapshot (s.versions.store.versions nodes) ≤ typ.read s.agg := by
    rw [isHidden, isAgg]
    exact Nat.le_add_left _ _
  obtain ⟨isResult, safe⟩ := (excludeLoop_spec ok sorted near _
    fun version _ => Covers.whole ok version.1).2 enough (typ.read_lt _)
  refine ⟨nodes, listed, ?_, safe⟩
  rw [readAgg, excludeAggInSnapshot, isResult, isHidden, isAgg, Nat.add_sub_cancel]

end

/-- A whole insertion, with the number of shared accesses that it makes. -/
def insertion (tid : Tid) (xmin : Xid) (value accesses : Nat) : List PivotLabel :=
  .add tid xmin value :: replicate accesses (.store (.step tid)) ++ [.addDelta tid]

/-- An aborted, a committed and a running transaction insert, vacuum removes the entry of the
first, the collector drops the versions of the first two, and a split moves the last entry. -/
def vacuumedAndCollected : List PivotLabel :=
  [.start, .start, .start] ++ insertion 0 3 7 3 ++ [.finish 3 true] ++ insertion 0 4 10 4 ++
    [.finish 4 false, .snapshot none] ++ insertion 1 5 20 4 ++ insertion 1 5 6 3 ++
    [.remove 0, .decrement, .store (.pass 5), .store .visit] ++ replicate 9 (.store .gc) ++
    [.split 0 [3] 5 4]

def vacuumedAndCollectedEnd : Pivot := Run.last (pivotNext .int8) emptyPivot vacuumedAndCollected

/-- A transaction aborts after a snapshot was taken that hides it, and vacuum removes its entry. -/
def vacuumsHidden : List PivotLabel :=
  [.start, .start, .finish 4 false, .snapshot none] ++ insertion 0 3 10 3 ++
    [.finish 3 true, .remove 0, .decrement]

def vacuumsHiddenEnd : Pivot := Run.last (pivotNext .int8) emptyPivot vacuumsHidden

/-- A transaction aborts, and an insertion takes its dead entry off the leaf page. -/
def forgetsDead : List PivotLabel :=
  .start :: insertion 0 3 10 3 ++ [.finish 3 true, .removeDead 0, .snapshot none]

def forgetsDeadEnd : Pivot := Run.last (pivotNext .int8) emptyPivot forgetsDead

end PgAqp.VersionStore
