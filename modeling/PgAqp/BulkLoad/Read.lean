import PgAqp.BulkLoad.Keys
import PgAqp.BulkLoad.Space

/-!
# What is read from the sorts

The tuples that are passed to `_abt_buildadd` have the rows of the sorts in their order, also
when they are merged into posting lists or when dead tuples are merged in.  A posting list is
never too large for the index.
-/

namespace PgAqp.BulkLoad

open Abtree Sampling List LeafTuple Bool

variable {ι α : Type}

/-! ## Posting lists -/

def Pending.rows (pending : Pending ι) : List (Row ι) :=
  pending.finish.rows

variable (ix : Index ι α)

theorem startPending_rows (row : Row ι) : (startPending ix row).rows = [row] := by
  unfold Pending.rows startPending
  split <;> rfl

theorem save_rows [DecidableEq ι] {ix : Index ι α} (save : canSave ix pending row) :
    ({ pending with htids := pending.htids ++ [row.heapTid] } : Pending ι).rows =
      pending.rows ++ [row] := by
  simp only [canSave, and_eq_true, decide_eq_true_eq, not_eq_true', isEmpty_eq_false_iff] at save
  obtain ⟨⟨nonempty, image⟩, -⟩ := save
  unfold Pending.rows Pending.finish
  cases htids : pending.htids with
  | nil => exact absurd htids nonempty
  | cons first more => simp [rows, tids, image]

theorem dedupFrom_rows [DecidableEq ι] (pending : Pending ι) (rows : List (Row ι)) :
    (dedupFrom ix pending rows).flatMap LeafTuple.rows = pending.rows ++ rows := by
  induction rows generalizing pending with
  | nil => rfl
  | cons row rest ih =>
    rw [dedupFrom]
    split
    next save =>
      rw [ih, save_rows save, append_assoc]
      rfl
    · rw [flatMap_cons, ih, startPending_rows]
      rfl

structure Pending.Small (ix : Index ι α) (pending : Pending ι) : Prop where
  base : pending.htids ≠ [] → (ix.plainSize pending.base.image : Int) ≤ maxPostingSize
  merged : 2 ≤ pending.htids.length →
    (ix.formSize pending.base.image : Int) + maxalign (pending.htids.length * 6) +
      (if ix.leafHasAgg then maxalign (ix.info.aggStride.toInt * pending.htids.length)
        else 0) +
      maxalign (4 * pending.htids.length) ≤ maxPostingSize

theorem startPending_small (row : Row ι) : (startPending ix row).Small ix := by
  unfold startPending
  refine ⟨fun nonempty => ?_, fun two => ?_⟩
  · by_contra large
    exact nonempty (if_neg large)
  · split at two <;> simp at two

theorem save_small [DecidableEq ι] {ix : Index ι α}
    (small : pending.Small ix) (save : canSave ix pending row) :
    ({ pending with htids := pending.htids ++ [row.heapTid] } : Pending ι).Small ix := by
  simp only [canSave, and_eq_true, decide_eq_true_eq, not_eq_true', isEmpty_eq_false_iff] at save
  obtain ⟨⟨nonempty, -⟩, merged⟩ := save
  refine ⟨fun _ => small.base nonempty, fun _ => ?_⟩
  simp only [length_append, length_singleton]
  exact_mod_cast merged

theorem maxalign_add (aligned : 8 ∣ base) (length : Int) :
    maxalign (base + length) = base + maxalign length := by
  unfold maxalign typealign
  omega

theorem Pending.Small.finish {ix : Index ι α} {pending : Pending ι}
    (small : pending.Small ix) (posting : pending.finish.isPosting) :
    ¬ pending.finish.TooLarge ix := by
  obtain ⟨-, limit, -, extra, -⟩ := ix.sizes
  have maximum : maxPostingSize = 812 := by decide
  obtain ⟨first, second, more, htids⟩ : ∃ first second more,
      pending.htids = first :: second :: more := by
    unfold Pending.finish at posting
    match htids : pending.htids with
    | [] => rw [htids] at posting; cases posting
    | [first] => rw [htids] at posting; cases posting
    | first :: second :: more => exact ⟨first, second, more, rfl⟩
  have finish : pending.finish = ⟨pending.base.image, first, second :: more⟩ := by
    rw [Pending.finish, htids]
  have merged := small.merged (by rw [htids]; exact Nat.le_add_left 2 _)
  have plain := ix.plainSize_eq pending.base.image
  have length : pending.htids.length = (second :: more).length + 1 := by rw [htids]; rfl
  have size : pending.finish.size ix = ix.plainSize pending.base.image +
      maxalign (pending.htids.length * 6) +
      (if ix.leafHasAgg then maxalign (ix.info.aggStride.toInt * pending.htids.length)
        else 0) +
      maxalign (4 * pending.htids.length) := by
    have many : pending.finish.tids.length = pending.htids.length := by rw [finish, length]; rfl
    have image : pending.finish.image = pending.base.image := by rw [finish]
    rw [size, if_pos posting, postingSize, many, image,
      if_pos (by rw [length]; exact Nat.succ_lt_succ (Nat.succ_pos _)),
      maxalign_add (ix.dvd_plainSize _), Int.mul_comm 6]
    rfl
  have rounded := maxalign_mono (show pending.finish.size ix ≤ 832 by omega)
  have bound : maxalign 832 = 832 := by decide
  unfold LeafTuple.TooLarge
  omega

theorem dedupFrom_small [DecidableEq ι] {ix : Index ι α} {rows : List (Row ι)}
    (small : pending.Small ix) (mem : tup ∈ dedupFrom ix pending rows) (large : tup.TooLarge ix) :
    tup.isPosting = false := by
  induction rows generalizing pending with
  | nil =>
    rw [mem_singleton.mp mem] at large ⊢
    exact eq_false_iff.mpr fun posting => small.finish posting large
  | cons row rest ih =>
    rw [dedupFrom] at mem
    split at mem
    · next save => exact ih (save_small small save) mem
    · cases mem_cons.mp mem with
      | inl same =>
        rw [same] at large ⊢
        exact eq_false_iff.mpr fun posting => small.finish posting large
      | inr later => exact ih (startPending_small ix row) later

theorem dedup_rows [DecidableEq ι] (rows : List (Row ι)) :
    (dedup ix rows).flatMap LeafTuple.rows = rows := by
  cases rows with
  | nil => rfl
  | cons row rest =>
    rw [dedup, dedupFrom_rows, startPending_rows]
    rfl

theorem dedup_small [DecidableEq ι] {ix : Index ι α} {rows : List (Row ι)}
    (mem : tup ∈ dedup ix rows) (large : tup.TooLarge ix) :
    tup.isPosting = false := by
  cases rows with
  | nil => exact absurd mem not_mem_nil
  | cons row rest => exact dedupFrom_small (startPending_small ix row) mem large

def TooLargeRow (row : Row ι) : Prop :=
  maxItemSize ix.info < ix.formSize row.image

theorem tooLargeRow_of_plain {ix : Index ι α} {tup : LeafTuple ι}
    (plain : tup.isPosting = false) (large : tup.TooLarge ix) :
    TooLargeRow ix ⟨tup.image, tup.heapTid⟩ := by
  have size := tup.size_of_plain ix (by rw [plain]; decide)
  have whole := ix.plainSize_eq tup.image
  unfold LeafTuple.TooLarge at large
  rw [size, maxalign_eq (ix.dvd_plainSize tup.image), whole, Int.add_sub_cancel] at large
  exact large

/-! ## The spools -/

section

variable [LinearOrder α]

def Spools.input : Spools ι → List (Row ι)
  | .one tuples _ => tuples
  | .two tuples dead => tuples ++ dead

def Spools.Sorted (ix : Index ι α) : Spools ι → Prop
  | .one tuples _ => BulkLoad.Sorted ix tuples
  | .two tuples dead => BulkLoad.Sorted ix tuples ∧ BulkLoad.Sorted ix dead ∧
      ∀ row ∈ tuples, ∀ other ∈ dead, ix.key row ≠ ix.key other

theorem Spools.rows_perm (ix : Index ι α) (spools : Spools ι) :
    (spools.rows ix).Perm spools.input := by
  cases spools with
  | one tuples _ => exact List.Perm.refl tuples
  | two tuples dead => exact merge_perm_append _

theorem Spools.rows_sorted {ix : Index ι α} {spools : Spools ι}
    (sorted : spools.Sorted ix) : BulkLoad.Sorted ix (spools.rows ix) := by
  cases spools with
  | one tuples _ => exact sorted
  | two tuples dead =>
    obtain ⟨first, second, diff⟩ := sorted
    have weak : ∀ {rows : List (Row ι)}, BulkLoad.Sorted ix rows →
        rows.Pairwise fun row other => decide (ix.key row ≤ ix.key other) :=
      fun sorted => sorted.imp fun pre => decide_eq_true (key_le_of_lt pre)
    have merged : (Spools.rows ix (.two tuples dead)).Pairwise
        fun row other => decide (ix.key row ≤ ix.key other) := by
      refine pairwise_merge ?_ ?_ tuples dead (weak first) (weak second)
      · intro row other third one two
        exact decide_eq_true (le_trans (a := (ix.key row).rank) (of_decide_eq_true one)
          (of_decide_eq_true two))
      · intro row other
        rw [or_eq_true]
        cases le_total (ix.key row).rank (ix.key other).rank with
        | inl le => exact .inl (decide_eq_true le)
        | inr ge => exact .inr (decide_eq_true ge)
    have apart : ∀ {rows : List (Row ι)}, BulkLoad.Sorted ix rows →
        rows.Pairwise fun row other => ix.key row ≠ ix.key other :=
      fun sorted => sorted.imp fun pre => Key.ne_of_lt pre
    have keys : (Spools.rows ix (.two tuples dead)).Pairwise
        fun row other => ix.key row ≠ ix.key other := by
      refine (Spools.rows_perm ix (.two tuples dead)).symm.pairwise ?_ fun ne => ne.symm
      exact pairwise_append.mpr ⟨apart first, apart second, diff⟩
    exact (merged.and keys).imp fun both => key_lt_of_le_of_ne (of_decide_eq_true both.1) both.2

theorem Spools.leafTuples_rows [DecidableEq ι] (ix : Index ι α) (spools : Spools ι) :
    (spools.leafTuples ix).flatMap LeafTuple.rows = spools.rows ix := by
  have plain : ∀ rows : List (Row ι), (rows.map Row.leaf).flatMap LeafTuple.rows = rows := by
    intro rows
    rw [flatMap_map]
    exact flatMap_singleton' rows
  match spools with
  | .one tuples true => exact dedup_rows ix tuples
  | .one tuples false => exact plain tuples
  | .two tuples dead => exact plain _

theorem Spools.tooLarge [DecidableEq ι] {ix : Index ι α} {spools : Spools ι}
    (mem : tup ∈ spools.leafTuples ix)
    (large : tup.TooLarge ix) : ∃ row ∈ spools.rows ix, TooLargeRow ix row := by
  have plain : tup.isPosting = false := by
    match spools with
    | .one tuples true => exact dedup_small mem large
    | .one tuples false =>
      obtain ⟨row, -, rfl⟩ := mem_map.mp mem
      rfl
    | .two tuples dead =>
      obtain ⟨row, -, rfl⟩ := mem_map.mp mem
      rfl
  refine ⟨tup.firstRow, ?_, tooLargeRow_of_plain plain large⟩
  rw [← spools.leafTuples_rows ix]
  exact mem_flatMap.mpr ⟨tup, mem, tup.firstRow_mem⟩

end

end PgAqp.BulkLoad
