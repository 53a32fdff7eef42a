import Mathlib.Algebra.Order.BigOperators.Group.Finset
import Mathlib.Algebra.Ring.Nat
import Mathlib.Data.List.Sort
import Mathlib.Data.List.TakeWhile
import PgAqp.VersionStore.Abtvs

/-!
# Snapshots and the versions they exclude

A reader walks the version chain with one index into its running transactions, which it
has sorted in descending order, and subtracts the versions that are not in its snapshot.
-/

namespace PgAqp.VersionStore

open Library List

/-- `agg_typlen`: the types of aggregates that can be read. -/
inductive AggType where
  | int2
  | int4
  | int8
  deriving DecidableEq, Repr

/-- One more than the largest number that the type can hold: 16, 32 or 64 bits. -/
def AggType.range : AggType → Nat
  | .int2 => 65536
  | .int4 => 4294967296
  | .int8 => 18446744073709551616

/-- Read an aggregate or a `delta_val` as an unsigned number. -/
def AggType.read (typ : AggType) (word : Nat) : Nat := word % typ.range

/-- `agg -= rop` on 64 bits. -/
def sub64 (agg rop : Nat) : Nat :=
  (agg + 18446744073709551616 - rop % 18446744073709551616) % 18446744073709551616

/-- The fields of a `SnapshotData` that are read. -/
structure SnapshotData where
  isMvcc : Bool
  xmin : Xid
  xmax : Xid
  xip : List Xid
  subxip : List Xid
  takenDuringRecovery : Bool
  deriving DecidableEq, Repr

/-- The ids that are copied into an `ABTSnapshotData`. -/
def SnapshotData.running (snap : SnapshotData) : List Xid :=
  if snap.takenDuringRecovery then snap.subxip else snap.xip

/-- `ABTSnapshotData`. -/
structure AbtSnapshot where
  xmin : Xid
  xmax : Xid
  xip : List Xid
  deriving DecidableEq, Repr

/-- `_abt_compare_xid`. -/
def compareXid (first second : Xid) : Int :=
  if normalTransactionIdPrecedes first second then 1
  else if normalTransactionIdPrecedes second first then -1
  else 0

/-- `qsort` with `_abt_compare_xid`. -/
def sortXids (xids : List Xid) : List Xid :=
  xids.insertionSort fun first second => compareXid first second ≤ 0

/-- `_abt_prepare_snapshot_for_sampling`. -/
def prepareSnapshotForSampling : Option SnapshotData → Option AbtSnapshot
  | none => none
  | some snap =>
    if snap.isMvcc = false then none
    else
      let xip := sortXids (if snap.takenDuringRecovery then snap.subxip else snap.xip)
      some ⟨xip.getLastD snap.xmax, snap.xmax, xip⟩

/-- `TransactionIdIsNormal`. -/
def transactionIdIsNormal (xid : Xid) : Bool := decide (3 ≤ (xid32 xid).toNat)

/-- `TransactionIdPrecedes`. -/
def transactionIdPrecedes (first second : Xid) : Bool :=
  if transactionIdIsNormal first && transactionIdIsNormal second then
    normalTransactionIdPrecedes first second
  else decide ((xid32 first).toNat < (xid32 second).toNat)

/-- `_abt_xid_in_snapshot`: whether the id is invisible to the snapshot.  `bsearch` finds an
element that compares equal if there is one. -/
def xidInSnapshot (xid : Xid) : Option AbtSnapshot → Bool
  | none => false
  | some snap =>
    if xid32 xid = 0 then true
    else if transactionIdPrecedes xid snap.xmax = false then true
    else if transactionIdPrecedes xid snap.xmin then false
    else snap.xip.any fun other => compareXid xid other = 0

inductive Verdict where
  /-- Leave the loop. -/
  | stop
  /-- Keep the version in the aggregate and go on with the rest of `xip`. -/
  | keep (rest : List Xid)
  /-- Subtract the version and go on with the rest of `xip`. -/
  | subtract (rest : List Xid)
  deriving DecidableEq, Repr

/-- The decision of `_abtvs_exclude_agg_in_snapshot` for one node; `xip` is the array from
index `i` on. -/
def verdict (snap : AbtSnapshot) (xip : List Xid) (xmin : Xid) : Verdict :=
  if normalTransactionIdPrecedes xmin snap.xmin then .stop
  else if normalTransactionIdPrecedes xmin snap.xmax then
    match xip.dropWhile fun other => normalTransactionIdPrecedes xmin other with
    | [] => .keep []
    | other :: rest => if xid32 xmin = xid32 other then .subtract rest else .keep (other :: rest)
  else .subtract xip

/-- The loop of `_abtvs_exclude_agg_in_snapshot` over the ids and values of a chain. -/
def excludeLoop (typ : AggType) (snap : AbtSnapshot) :
    List Xid → Nat → List (Xid × Nat) → Nat
  | _, agg, [] => agg
  | xip, agg, (xmin, deltaVal) :: chain =>
    match verdict snap xip xmin with
    | .stop => agg
    | .keep rest => excludeLoop typ snap rest agg chain
    | .subtract rest => excludeLoop typ snap rest (sub64 agg (typ.read deltaVal)) chain

def NoUnderflow (typ : AggType) (snap : AbtSnapshot) :
    List Xid → Nat → List (Xid × Nat) → Prop
  | _, _, [] => True
  | xip, agg, (xmin, deltaVal) :: chain =>
    match verdict snap xip xmin with
    | .stop => True
    | .keep rest => NoUnderflow typ snap rest agg chain
    | .subtract rest =>
      typ.read deltaVal ≤ agg ∧ NoUnderflow typ snap rest (sub64 agg (typ.read deltaVal)) chain

/-- `_abtvs_exclude_agg_in_snapshot`. -/
def excludeAggInSnapshot (typ : AggType) (snap : Option AbtSnapshot) (agg : Nat)
    (chain : List (Xid × Nat)) : Nat :=
  match snap with
  | none => agg
  | some snap => excludeLoop typ snap snap.xip agg chain

def AbtSnapshot.Hides (snap : AbtSnapshot) (xid : Xid) : Prop :=
  snap.xmax ≤ xid ∨ xid ∈ snap.xip
  deriving Decidable

/-- What preparing establishes: the running ids in descending order, the last one as `xmin`. -/
structure AbtSnapshot.Ok (snap : AbtSnapshot) : Prop where
  sorted : snap.xip.Pairwise fun first second => second ≤ first
  below : ∀ xid ∈ snap.xip, xid < snap.xmax
  isXmin : snap.xmin = snap.xip.getLastD snap.xmax
  normal : transactionIdIsNormal snap.xmin = true ∧ transactionIdIsNormal snap.xmax = true

/-- An id within half the range of every id of the snapshot. -/
def AbtSnapshot.NearTo (snap : AbtSnapshot) (xid : Xid) : Prop :=
  Serial.Near xid snap.xmin ∧ Serial.Near xid snap.xmax ∧
    ∀ other ∈ snap.xip, Serial.Near xid other
  deriving Decidable

variable {first second : Xid}

theorem precedes_of_near (near : Serial.Near first second) :
    normalTransactionIdPrecedes first second = decide (first < second) :=
  Serial.precedes_ofNat near

theorem compareXid_eq_zero (near : Serial.Near first second) :
    compareXid first second = 0 ↔ first = second := by
  simp only [compareXid, precedes_of_near near, precedes_of_near near.symm, decide_eq_true_eq]
  split
  · next less => exact ⟨fun isOne => absurd isOne (by decide), fun same => absurd same (less.ne)⟩
  next notLess =>
    split
    · next greater =>
        exact ⟨fun isMinus => absurd isMinus (by decide), fun same => absurd same (greater.ne')⟩
    next notGreater =>
      exact ⟨fun _ => Nat.le_antisymm (Nat.le_of_not_lt notGreater) (Nat.le_of_not_lt notLess),
        fun _ => rfl⟩

namespace AbtSnapshot

variable {snap : AbtSnapshot}

theorem Ok.xmin_le (ok : snap.Ok) : snap.xmin ≤ snap.xmax ∧ ∀ xid ∈ snap.xip, snap.xmin ≤ xid := by
  obtain ⟨sorted, below, isXmin, -⟩ := ok
  rw [isXmin]
  rcases eq_nil_or_concat snap.xip with isNil | ⟨init, last, isConcat⟩
  · simp [isNil]
  · rw [concat_eq_append] at isConcat
    rw [isConcat] at sorted below ⊢
    rw [getLastD_concat]
    refine ⟨(below last (by simp)).le, fun xid mem => ?_⟩
    rcases mem_append.mp mem with inInit | isLast
    · exact (pairwise_append.mp sorted).2.2 xid inInit last (by simp)
    · exact (mem_singleton.mp isLast).symm.le

theorem Ok.hides_ge (ok : snap.Ok) (hides : snap.Hides xid) : snap.xmin ≤ xid := by
  rcases hides with above | running
  · exact ok.xmin_le.1.trans above
  · exact ok.xmin_le.2 xid running

theorem Ok.xidInSnapshot_iff (ok : snap.Ok) (near : snap.NearTo xid)
    (normal : transactionIdIsNormal xid) :
    xidInSnapshot xid (some snap) ↔ snap.Hides xid := by
  obtain ⟨nearMin, nearMax, nearXip⟩ := near
  have valid : xid32 xid ≠ 0 := by
    intro isZero
    simp [transactionIdIsNormal, isZero] at normal
  have isMax : transactionIdPrecedes xid snap.xmax = decide (xid < snap.xmax) := by
    simp [transactionIdPrecedes, normal, ok.normal.2, precedes_of_near nearMax]
  have isMin : transactionIdPrecedes xid snap.xmin = decide (xid < snap.xmin) := by
    simp [transactionIdPrecedes, normal, ok.normal.1, precedes_of_near nearMin]
  simp only [xidInSnapshot, valid, if_false, isMax, isMin, decide_eq_true_eq, decide_eq_false_iff_not]
  split
  · next above => exact ⟨fun _ => .inl (Nat.le_of_not_lt above), fun _ => rfl⟩
  next notAbove =>
    split
    next old =>
      constructor
      · intro isFalse
        cases isFalse
      · intro hides
        exact absurd old ((ok.hides_ge hides).not_gt)
    · simp only [any_eq_true, decide_eq_true_eq]
      constructor
      · rintro ⟨other, mem, same⟩
        rw [(compareXid_eq_zero (nearXip other mem)).mp same]
        exact .inr mem
      · rintro (above | mem)
        · exact absurd (above.not_gt) notAbove
        · exact ⟨xid, mem, (compareXid_eq_zero (nearXip xid mem)).mpr rfl⟩

end AbtSnapshot

section

variable {xids : List Xid}

/-- On ids of one half window the order of `_abt_compare_xid` is the descending order. -/
theorem orderedInsert_descending (near : ∀ other ∈ xids, Serial.Near xid other) :
    xids.orderedInsert (fun first second => compareXid first second ≤ 0) xid =
      xids.orderedInsert (fun first second => second ≤ first) xid := by
  induction xids with
  | nil => rfl
  | cons other rest ih =>
    have close := near other (by simp)
    have sameOrder : compareXid xid other ≤ 0 ↔ other ≤ xid := by
      simp only [compareXid, precedes_of_near close, precedes_of_near close.symm, decide_eq_true_eq]
      split
      · next less => exact ⟨fun isOne => absurd isOne (by decide), fun le => absurd less (le.not_gt)⟩
      next notLess =>
        refine ⟨fun _ => Nat.le_of_not_lt notLess, fun _ => ?_⟩
        split <;> decide
    simp only [orderedInsert, sameOrder, ih fun later mem => near later (by simp [mem])]

theorem sortXids_eq (near : ∀ first ∈ xids, ∀ second ∈ xids, Serial.Near first second) :
    sortXids xids = xids.insertionSort fun first second => second ≤ first := by
  unfold sortXids
  induction xids with
  | nil => rfl
  | cons xid rest ih =>
    have sorted := ih fun first isFirst second isSecond =>
      near first (by simp [isFirst]) second (by simp [isSecond])
    simp only [insertionSort_cons, sorted]
    apply orderedInsert_descending
    intro other mem
    rw [mem_insertionSort] at mem
    exact near xid (by simp) other (by simp [mem])

theorem prepare_ok (prepared : prepareSnapshotForSampling (some snap) = some res)
    (near : ∀ first ∈ snap.running, ∀ second ∈ snap.running, Serial.Near first second)
    (below : ∀ xid ∈ snap.running, xid < snap.xmax)
    (normal : transactionIdIsNormal snap.xmax ∧ ∀ xid ∈ snap.running, transactionIdIsNormal xid) :
    res.Ok ∧ res.xmax = snap.xmax ∧ ∀ xid, xid ∈ res.xip ↔ xid ∈ snap.running := by
  obtain ⟨-, ⟨⟩⟩ := Option.ite_none_left_eq_some.mp prepared
  have members : ∀ xid, xid ∈ sortXids snap.running ↔ xid ∈ snap.running := by
    intro xid
    exact mem_insertionSort _
  have normalMin : transactionIdIsNormal ((sortXids snap.running).getLastD snap.xmax) := by
    rcases eq_nil_or_concat (sortXids snap.running) with isNil | ⟨init, last, isConcat⟩
    · rw [isNil]
      exact normal.1
    · rw [concat_eq_append] at isConcat
      rw [isConcat, getLastD_concat]
      apply normal.2 last ((members last).mp _)
      rw [isConcat]
      simp
  refine ⟨⟨?_, ?_, rfl, normalMin, normal.1⟩, rfl, members⟩
  · change List.Pairwise _ (sortXids snap.running)
    rw [sortXids_eq near]
    exact pairwise_insertionSort _ _
  · intro xid mem
    exact below xid ((members xid).mp mem)

end

section

variable {typ : AggType} {snap : AbtSnapshot} {chain : List (Xid × Nat)}

theorem excludeLoop_append_old (xip : List Xid) (agg : Nat)
    (pre : ∀ version ∈ old, normalTransactionIdPrecedes version.1 snap.xmin) :
    excludeLoop typ snap xip agg (chain ++ old) = excludeLoop typ snap xip agg chain := by
  induction chain generalizing xip agg with
  | nil =>
    cases old with
    | nil => rfl
    | cons version rest => simp [excludeLoop, verdict, pre version (by simp)]
  | cons version rest ih =>
    simp only [cons_append, excludeLoop]
    split
    · rfl
    · exact ih _ _
    · exact ih _ _

theorem sub64_eq (enough : rop ≤ agg) (fits : agg < 18446744073709551616) :
    sub64 agg rop = agg - rop := by
  unfold sub64
  omega

/-- The part of `xip` that the walk still has to look at when it comes to an id. -/
structure Covers (snap : AbtSnapshot) (rest : List Xid) (xid : Xid) : Prop where
  sorted : rest.Pairwise fun first second => second ≤ first
  running : ∀ other ∈ rest, other ∈ snap.xip
  covered : ∀ other ∈ snap.xip, other ≤ xid → other ∈ rest

theorem Covers.mono (pre : later < xid) (covers : Covers snap rest xid) : Covers snap rest later :=
  ⟨covers.sorted, covers.running, fun other mem le =>
    covers.covered other mem ((Nat.lt_of_le_of_lt le pre).le)⟩

theorem Covers.whole (ok : snap.Ok) (xid : Xid) : Covers snap snap.xip xid :=
  ⟨ok.sorted, fun _ => id, fun _ mem _ => mem⟩

theorem Covers.dropWhile
    (near : ∀ other ∈ snap.xip, Serial.Near xid other) (covers : Covers snap xip xid) :
    Covers snap (xip.dropWhile fun other => normalTransactionIdPrecedes xid other) xid where
  sorted := covers.sorted.sublist (dropWhile_sublist _)
  running other mem := covers.running other ((dropWhile_sublist _).mem mem)
  covered other mem le := by
    have inXip := covers.covered other mem le
    rw [← takeWhile_append_dropWhile (p := fun other => normalTransactionIdPrecedes xid other)
      (l := xip)] at inXip
    rcases mem_append.mp inXip with skipped | left
    · have larger := mem_takeWhile_imp skipped
      rw [precedes_of_near (near other mem), decide_eq_true_eq] at larger
      exact absurd larger (le.not_gt)
    · exact left

/-- What the walk does with an id: it stops before `xmin`, and subtracts what is hidden. -/
theorem verdict_spec (near : snap.NearTo xid) (covers : Covers snap xip xid) :
    (xid < snap.xmin ∧ verdict snap xip xid = .stop) ∨
    (snap.Hides xid ∧ ∃ rest, verdict snap xip xid = .subtract rest ∧
      ∀ later < xid, Covers snap rest later) ∨
    (¬ snap.Hides xid ∧ snap.xmin ≤ xid ∧ ∃ rest, verdict snap xip xid = .keep rest ∧
      ∀ later < xid, Covers snap rest later) := by
  obtain ⟨nearMin, nearMax, nearXip⟩ := near
  unfold verdict
  simp only [precedes_of_near nearMin, precedes_of_near nearMax, decide_eq_true_eq]
  split
  · next old => exact .inl ⟨old, rfl⟩
  · next notOld =>
    have recent := Nat.le_of_not_lt notOld
    split
    next belowMax =>
      have onlyRunning : snap.Hides xid ↔ xid ∈ snap.xip :=
        ⟨fun hides => hides.resolve_left (belowMax.not_ge), .inr⟩
      have advanced := covers.dropWhile nearXip
      have stops := head?_dropWhile_not (fun other => normalTransactionIdPrecedes xid other) xip
      rw [onlyRunning]
      split
      next isEmpty =>
        rw [isEmpty] at advanced
        refine .inr (.inr ⟨fun mem => ?_, recent, [], rfl, fun later pre => ?_⟩)
        · exact absurd (advanced.covered xid mem le_rfl) (by simp)
        · exact advanced.mono pre
      next other rest isCons =>
        rw [isCons] at advanced stops
        simp only [head?_cons] at stops
        have near := nearXip other (advanced.running other (by simp))
        rw [precedes_of_near near, decide_eq_false_iff_not] at stops
        have sameId : xid32 xid = xid32 other ↔ xid = other := Serial.ofNat_eq_iff near
        obtain ⟨largest, restSorted⟩ := pairwise_cons.mp advanced.sorted
        simp only [sameId]
        split
        next isOther =>
          subst isOther
          refine .inr (.inl ⟨advanced.running xid (by simp), rest, rfl, ?_⟩)
          intro later pre
          refine ⟨restSorted, fun other mem => advanced.running other (by simp [mem]), ?_⟩
          intro other mem le
          have below := le.trans_lt pre
          have inRest := advanced.covered other mem (below.le)
          exact (mem_cons.mp inRest).resolve_left (below.ne)
        next notOther =>
          refine .inr (.inr ⟨fun mem => ?_, recent, _, rfl, fun later pre => advanced.mono pre⟩)
          have inRest := (mem_cons.mp (advanced.covered xid mem le_rfl)).resolve_left notOther
          exact notOther (Nat.le_antisymm (largest xid inRest) (Nat.le_of_not_lt stops))
    next aboveMax =>
      exact .inr (.inl ⟨.inl (Nat.le_of_not_lt aboveMax), xip, rfl,
        fun later pre => covers.mono pre⟩)

def subtractAll (typ : AggType) (agg : Nat) (versions : List (Xid × Nat)) : Nat :=
  versions.foldl (fun agg version => sub64 agg (typ.read version.2)) agg

def hiddenSum (typ : AggType) (snap : AbtSnapshot) (chain : List (Xid × Nat)) : Nat :=
  (chain.map fun version => if snap.Hides version.1 then typ.read version.2 else 0).sum

theorem hiddenSum_eq_zero (seen : ∀ version ∈ chain, ¬ snap.Hides version.1) :
    hiddenSum typ snap chain = 0 := by
  induction chain with
  | nil => rfl
  | cons version rest ih =>
    have restSeen := ih fun other mem => seen other (by simp [mem])
    simpa [hiddenSum, seen version (by simp)] using restSeen

/-- The walk subtracts the hidden versions in the order of the chain, without an underflow if
their sum is not more than the aggregate. -/
theorem excludeLoop_spec (ok : snap.Ok)
    (descending : chain.Pairwise fun first second => second.1 < first.1)
    (near : ∀ version ∈ chain, snap.NearTo version.1) (agg : Nat)
    (covers : ∀ version ∈ chain, Covers snap xip version.1) :
    excludeLoop typ snap xip agg chain =
        subtractAll typ agg (chain.filter fun version => snap.Hides version.1) ∧
      (hiddenSum typ snap chain ≤ agg → agg < 18446744073709551616 →
        excludeLoop typ snap xip agg chain = agg - hiddenSum typ snap chain ∧
          NoUnderflow typ snap xip agg chain) := by
  induction chain generalizing xip agg with
  | nil => exact ⟨rfl, fun _ _ => ⟨rfl, trivial⟩⟩
  | cons version rest ih =>
    obtain ⟨xid, deltaVal⟩ := version
    obtain ⟨larger, restDescending⟩ := pairwise_cons.mp descending
    have behind {xip : List Xid} (agg : Nat) (ahead : ∀ later < xid, Covers snap xip later) :=
      ih restDescending (fun version mem => near version (by simp [mem])) agg
        fun version mem => ahead version.1 (larger version mem)
    have spec := verdict_spec (near (xid, deltaVal) (by simp)) (covers (xid, deltaVal) (by simp))
    rcases spec with ⟨old, isStop⟩ | ⟨hides, next, isSubtract, ahead⟩ |
      ⟨seen, -, next, isKeep, ahead⟩
    · have noneHidden : ∀ version ∈ (xid, deltaVal) :: rest, ¬ snap.Hides version.1 := by
        intro version mem hides
        have recent := ok.hides_ge hides
        rcases mem_cons.mp mem with rfl | later
        · exact absurd old (recent.not_gt)
        · exact absurd ((larger version later).trans old) (recent.not_gt)
      simp only [excludeLoop, NoUnderflow, isStop, hiddenSum_eq_zero noneHidden, Nat.sub_zero]
      rw [filter_eq_nil_iff.mpr (by simpa using noneHidden)]
      exact ⟨rfl, fun _ _ => ⟨trivial, trivial⟩⟩
    · have isSum : hiddenSum typ snap ((xid, deltaVal) :: rest) =
          typ.read deltaVal + hiddenSum typ snap rest := by
        simp [hiddenSum, hides]
      simp only [excludeLoop, NoUnderflow, isSubtract, hides, decide_true,
        filter_cons_of_pos, isSum]
      refine ⟨(behind _ ahead).1, fun enough fits => ?_⟩
      have here : typ.read deltaVal ≤ agg := by omega
      rw [sub64_eq here fits]
      obtain ⟨isResult, safe⟩ := (behind (agg - typ.read deltaVal) ahead).2 (by omega)
        ((Nat.sub_le _ _).trans_lt fits)
      exact ⟨by rw [isResult]; omega, here, safe⟩
    · have isSum : hiddenSum typ snap ((xid, deltaVal) :: rest) = hiddenSum typ snap rest := by
        simp [hiddenSum, seen]
      simp only [excludeLoop, NoUnderflow, isKeep, seen, decide_false, Bool.false_eq_true,
        not_false_eq_true, filter_cons_of_neg, isSum]
      exact behind agg ahead

end

/-! ## The walk and the test of single ids -/

/-- The ids of a snapshot and of a chain are normal and lie in one half of the circle, and what
is running is before `xmax`. -/
structure HalfWindow (snap : SnapshotData) (ids : List Xid) : Prop where
  normal : ∀ xid ∈ snap.xmax :: snap.running ++ ids, transactionIdIsNormal xid = true
  near : ∀ first ∈ snap.xmax :: snap.running ++ ids,
    ∀ second ∈ snap.xmax :: snap.running ++ ids, Serial.Near first second
  below : ∀ xid ∈ snap.running, xid < snap.xmax

theorem HalfWindow.prepared (window : HalfWindow snap ids) (mvcc : snap.isMvcc) :
    ∃ res, prepareSnapshotForSampling (some snap) = some res ∧ res.Ok ∧
      ∀ xid ∈ ids, res.NearTo xid := by
  have isPrepared : ∃ res, prepareSnapshotForSampling (some snap) = some res := by
    simp [prepareSnapshotForSampling, mvcc]
  obtain ⟨res, prepared⟩ := isPrepared
  obtain ⟨ok, sameMax, members⟩ := prepare_ok prepared
    (fun first isFirst second isSecond => window.near first (by simp [isFirst]) second
      (by simp [isSecond]))
    window.below ⟨window.normal _ (by simp), fun xid mem => window.normal xid (by simp [mem])⟩
  refine ⟨res, prepared, ok, fun xid mem => ?_⟩
  have nearTo (other : Xid) (used : other ∈ snap.xmax :: snap.running) : Serial.Near xid other :=
    window.near xid (mem_append_right _ mem) other (mem_append_left _ used)
  refine ⟨nearTo _ ?_, nearTo _ (by simp [sameMax]), fun other running =>
    nearTo _ (mem_cons_of_mem _ ((members other).mp running))⟩
  rw [ok.isXmin, sameMax, getLastD_eq_getLast?]
  cases last : res.xip.getLast? with
  | none => exact mem_cons_self
  | some xid => exact mem_cons_of_mem _ ((members xid).mp (mem_of_getLast? last))

/-- The walk along a chain subtracts the versions that `_abt_xid_in_snapshot` reports, each
once and in their order. -/
theorem exclude_agrees_with_test (typ : AggType) {snap : SnapshotData} {chain : List (Xid × Nat)}
    (mvcc : snap.isMvcc = true) (window : HalfWindow snap (chain.map Prod.fst))
    (descending : chain.Pairwise fun first second => second.1 < first.1) (agg : Nat) :
    excludeAggInSnapshot typ (prepareSnapshotForSampling (some snap)) agg chain =
      subtractAll typ agg (chain.filter fun version =>
        xidInSnapshot version.1 (prepareSnapshotForSampling (some snap))) := by
  obtain ⟨res, prepared, ok, near⟩ := window.prepared mvcc
  have nearTo : ∀ version ∈ chain, res.NearTo version.1 :=
    fun version mem => near version.1 (mem_map_of_mem mem)
  rw [prepared, excludeAggInSnapshot, (excludeLoop_spec ok descending nearTo agg
    fun version _ => Covers.whole ok version.1).1]
  refine congrArg _ (filter_congr fun version mem => ?_)
  have normal := window.normal version.1 (mem_append_right _ (mem_map_of_mem mem))
  rw [Bool.eq_iff_iff, decide_eq_true_eq, ok.xidInSnapshot_iff (nearTo version mem) normal]

/-- Of four versions one is running and one is after the snapshot. -/
theorem exclude_two_of_four : subtractAll .int4 100 [(21, 5), (15, 2)] = 93 ∧
      excludeAggInSnapshot .int4
        (prepareSnapshotForSampling (some ⟨true, 12, 20, [12, 15], [], false⟩)) 100
        [(21, 5), (17, 7), (15, 2), (11, 4)] = 93 :=
  ⟨by decide, (exclude_agrees_with_test .int4 rfl
    ⟨by decide, by decide, by decide⟩ (by decide) 100).trans (by decide)⟩

end PgAqp.VersionStore
