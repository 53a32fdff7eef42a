import Mathlib.Data.List.Sort
import PgAqp.BulkLoad.Sort

/-!
# Keys between the pages

The rows of a level come in pieces: what one item of the level leads to.  A piece has a low
key, which is at least every row before it and less than its own rows.
-/

namespace PgAqp.BulkLoad

open Abtree Sampling List LeafTuple

variable {ι α : Type} [LinearOrder α]

/-! ## The order of the keys -/

section

variable {second : Key α}

theorem key_le_of_lt (pre : first < second) : first ≤ second := le_of_lt (a := first.rank) pre

theorem key_lt_of_lt_of_le (pre : first < second) (after : second ≤ third) : first < third :=
  lt_of_lt_of_le (a := first.rank) pre after

theorem key_lt_trans (pre : first < second) (after : second < third) : first < third :=
  lt_trans (a := first.rank) pre after

omit [LinearOrder α] in
theorem key_rank_injective (same : first.rank = second.rank) : first = second := by
  obtain ⟨firstAttrs, firstTid⟩ := first
  obtain ⟨secondAttrs, secondTid⟩ := second
  obtain ⟨attrs, tids⟩ := Prod.mk.inj (congrArg ofLex same)
  cases firstTid <;> cases secondTid <;> simp_all

theorem key_lt_of_le_of_ne (pre : first ≤ second) (ne : first ≠ second) : first < second :=
  lt_of_le_of_ne (a := first.rank) pre fun same => ne (key_rank_injective same)

theorem minusInfinity_lt (attrs : List α) (tid : Nat) :
    (minusInfinity : Key α) < ⟨attrs, some tid⟩ := by
  refine Prod.Lex.lt_iff.mpr ?_
  cases attrs with
  | nil => exact .inr ⟨rfl, Nat.succ_pos tid⟩
  | cons attr rest => exact .inl (nil_lt_cons attr rest)

end

/-! ## Truncated keys -/

theorem keepNatts_self (attrs : List α) : keepNatts attrs attrs = attrs.length + 1 := by
  induction attrs with
  | nil => rfl
  | cons attr rest ih => rw [keepNatts, if_pos rfl, ih, length_cons]

theorem keepNatts_of_lt {left right : List α} (length : left.length = right.length)
    (pre : left < right) :
    keepNatts left right ≤ right.length ∧ left < right.take (keepNatts left right) := by
  induction left generalizing right with
  | nil =>
    cases right with
    | nil => exact absurd pre (lt_irrefl _)
    | cons attr rest => simp at length
  | cons leftAttr leftRest ih =>
    cases right with
    | nil => simp at length
    | cons rightAttr rightRest =>
      rw [keepNatts]
      cases cons_lt_cons_iff.mp pre with
      | inl differs =>
        rw [if_neg (ne_of_lt differs)]
        exact ⟨Nat.le_add_left 1 _, cons_lt_cons_iff.mpr (.inl differs)⟩
      | inr same =>
        obtain ⟨rfl, rest⟩ := same
        obtain ⟨kept, less⟩ := ih (by simpa using length) rest
        rw [if_pos rfl, take_succ_cons]
        exact ⟨Nat.succ_le_succ kept, cons_lt_cons_iff.mpr (.inr ⟨rfl, less⟩)⟩

theorem take_lt_or_eq (attrs : List α) (count : Nat) :
    attrs.take count < attrs ∨ attrs.take count = attrs := by
  induction attrs generalizing count with
  | nil => exact .inr take_nil
  | cons attr rest ih =>
    cases count with
    | zero => exact .inl (nil_lt_cons attr rest)
    | succ count =>
      cases ih count with
      | inl shorter => exact .inl (cons_lt_cons_iff.mpr (.inr ⟨rfl, shorter⟩))
      | inr whole => exact .inr (congrArg (attr :: ·) whole)

variable (ix : Index ι α)

def Sorted (rows : List (Row ι)) : Prop :=
  rows.Pairwise fun first second => ix.key first < ix.key second

namespace LeafTuple

def firstRow (tup : LeafTuple ι) : Row ι :=
  ⟨tup.image, tup.heapTid⟩

def lastRow (tup : LeafTuple ι) : Row ι :=
  ⟨tup.image, tup.maxHeapTid⟩

theorem firstRow_mem (tup : LeafTuple ι) : tup.firstRow ∈ tup.rows := mem_cons_self ..

theorem lastRow_mem (tup : LeafTuple ι) : tup.lastRow ∈ tup.rows :=
  mem_map.mpr ⟨tup.maxHeapTid, getLastD_mem_cons, rfl⟩

variable {tup : LeafTuple ι}

theorem firstRow_le {ix : Index ι α} (sorted : Sorted ix tup.rows)
    (mem : row ∈ tup.rows) : ix.key tup.firstRow ≤ ix.key row := by
  cases mem_cons.mp mem with
  | inl first =>
    rw [first]
    exact le_refl (ix.key tup.firstRow).rank
  | inr later => exact key_le_of_lt (rel_of_pairwise_cons sorted later)

theorem le_lastRow {ix : Index ι α} (sorted : Sorted ix tup.rows)
    (mem : row ∈ tup.rows) : ix.key row ≤ ix.key tup.lastRow := by
  have nonempty : tup.tids ≠ [] := cons_ne_nil _ _
  have rows : tup.rows = (tup.tids.dropLast.map fun tid => ⟨tup.image, tid⟩) ++ [tup.lastRow] := by
    unfold rows
    conv_lhs => rw [← dropLast_append_getLast nonempty]
    rw [map_append, map_singleton, lastRow, maxHeapTid, ← getLast_eq_getLastD nonempty]
    rfl
  rw [rows] at sorted mem
  cases mem_append.mp mem with
  | inl earlier =>
    exact key_le_of_lt ((pairwise_append.mp sorted).2.2 row earlier _ (mem_singleton_self _))
  | inr last =>
    rw [mem_singleton.mp last]
    exact le_refl (ix.key tup.lastRow).rank

end LeafTuple

/-- A truncated key is at least the last row on the left and less than the first one on the
right. -/
theorem truncate_separates (pre : ix.key lastleft.lastRow < ix.key firstright.firstRow) :
    ix.key lastleft.lastRow ≤ (truncate ix lastleft firstright).key ∧
      (truncate ix lastleft firstright).key < ix.key firstright.firstRow := by
  have leftLength := ix.attrs_length lastleft.image
  have rightLength := ix.attrs_length firstright.image
  cases Prod.Lex.lt_iff.mp pre with
  | inl differs =>
    obtain ⟨kept, less⟩ := keepNatts_of_lt (leftLength.trans rightLength.symm) differs
    have key : (truncate ix lastleft firstright).key = ⟨(ix.attrs firstright.image).take
          (keepNatts (ix.attrs lastleft.image) (ix.attrs firstright.image)), none⟩ := by
      unfold truncate
      simp only [if_pos (rightLength ▸ kept :
        keepNatts (ix.attrs lastleft.image) (ix.attrs firstright.image) ≤ ix.nkeyatts)]
      split <;> rfl
    rw [key]
    refine ⟨Prod.Lex.le_iff.mpr (.inl less), Prod.Lex.lt_iff.mpr ?_⟩
    cases take_lt_or_eq (ix.attrs firstright.image)
        (keepNatts (ix.attrs lastleft.image) (ix.attrs firstright.image)) with
    | inl shorter => exact .inl shorter
    | inr whole => exact .inr ⟨whole, Nat.succ_pos _⟩
  | inr same =>
    obtain ⟨attrs, tids⟩ := same
    have attrs : ix.attrs lastleft.image = ix.attrs firstright.image := attrs
    have key : (truncate ix lastleft firstright).key = ix.key lastleft.lastRow := by
      unfold truncate
      rw [attrs, keepNatts_self]
      simp only [if_neg (show ¬ (ix.attrs firstright.image).length + 1 < ix.nkeyatts by
          omega), if_neg (show ¬ (ix.attrs firstright.image).length + 1 ≤ ix.nkeyatts by
          omega), take_of_length_le (Nat.le_succ _)]
      unfold Index.key lastRow
      rw [attrs]
    rw [key]
    exact ⟨le_refl (ix.key lastleft.lastRow).rank, pre⟩

/-! ## What a truncated key takes from a leaf tuple

The pivot between two leaf tuples is a copy of the tuple on the right up to its posting
list, or up to the aggregate behind a plain tuple, unless some attributes are dropped.
What stands before the posting list is more than the key if the list was made with a
plain base tuple, and so is what a plain tuple keeps of such a list when its other rows are gone.
-/

section

variable (ix : Index ι α) (stored : Nat) (lastleft firstright : LeafTuple ι)

/-- What is copied of the tuple on the right if no attribute is dropped.  `stored` is its posting
offset, or its size if it is plain. -/
def copiedSize : Int :=
  if firstright.isPosting then stored else stored - ix.info.extraSpaceForNonpivotTuple

/-- `_abt_truncate`, for any posting offset or size of `firstright`. -/
def truncateAt : SizedKey α :=
  let keepnatts := keepNatts (ix.attrs lastleft.image) (ix.attrs firstright.image)
  let kept := (ix.attrs firstright.image).take keepnatts
  if keepnatts < ix.nkeyatts then
    ⟨⟨kept, none⟩, ix.truncateSize firstright.image keepnatts⟩
  else
    let newSize := copiedSize ix stored firstright
    if keepnatts ≤ ix.nkeyatts then ⟨⟨kept, none⟩, newSize⟩
    else ⟨⟨kept, some lastleft.maxHeapTid⟩, newSize + maxalign 6⟩

/-- A pivot between the rows of two tuples with no bytes but those of the key and a heap TID. -/
structure IsPivot (pivot : SizedKey α) : Prop where
  left : ∀ row ∈ lastleft.rows, ix.key row ≤ pivot.key
  right : ∀ row ∈ firstright.rows, pivot.key < ix.key row
  bytes : pivot.size ≤ ix.formSize firstright.image +
    if pivot.key.heapTid.isSome then maxalign 6 else 0

/-- On the right the posting list, or the extra space of a plain tuple, starts at the end of the
key, or attributes that are not the last one differ. -/
def CopiesKeyOnly : Prop :=
  ix.formSize firstright.image < copiedSize ix stored firstright →
    (ix.attrs lastleft.image).dropLast ≠ (ix.attrs firstright.image).dropLast

theorem truncateAt_key : (truncateAt ix stored lastleft firstright).key =
    (truncate ix lastleft firstright).key := by
  unfold truncateAt truncate
  dsimp only
  split
  · rfl
  · split <;> rfl

theorem keepNatts_lt_iff {left right : List α} (length : left.length = right.length) :
    keepNatts left right < left.length ↔ left.dropLast ≠ right.dropLast := by
  induction left generalizing right with
  | nil => cases right <;> simp_all
  | cons first firsts ih =>
    cases right with
    | nil => simp at length
    | cons second seconds =>
      have same : firsts.length = seconds.length := by simpa using length
      rw [keepNatts]
      cases firsts with
      | nil =>
        cases seconds with
        | nil => split <;> simp
        | cons _ _ => simp at same
      | cons _ _ =>
        cases seconds with
        | nil => simp at same
        | cons _ _ =>
          have later := ih same
          split
          · simp_all
          · simp_all

variable {ix stored lastleft firstright}

theorem truncateAt_bytes_iff :
    (truncateAt ix stored lastleft firstright).size ≤ ix.formSize firstright.image +
        (if (truncateAt ix stored lastleft firstright).key.heapTid.isSome
          then maxalign 6 else 0) ↔
      CopiesKeyOnly ix stored lastleft firstright := by
  have leftLength := ix.attrs_length lastleft.image
  have rightLength := ix.attrs_length firstright.image
  rw [CopiesKeyOnly, ← keepNatts_lt_iff (leftLength.trans rightLength.symm), leftLength]
  have shorter := ix.truncateSize_le firstright.image
    (keepNatts (ix.attrs lastleft.image) (ix.attrs firstright.image))
  unfold truncateAt
  generalize keepNatts (ix.attrs lastleft.image) (ix.attrs firstright.image) = keepnatts
    at shorter ⊢
  by_cases drops : keepnatts < ix.nkeyatts
  · simp [drops, shorter]
  · by_cases tid : keepnatts ≤ ix.nkeyatts
    · simp [drops, tid]
    · simp [drops, tid]

theorem truncateAt_isPivot_iff (sorted : Sorted ix (lastleft.rows ++ firstright.rows)) :
    IsPivot ix lastleft firstright (truncateAt ix stored lastleft firstright) ↔
      CopiesKeyOnly ix stored lastleft firstright := by
  obtain ⟨left, right, across⟩ := pairwise_append.mp sorted
  obtain ⟨above, below⟩ := truncate_separates ix
    (across _ lastleft.lastRow_mem _ firstright.firstRow_mem)
  rw [← truncateAt_key ix stored] at above below
  rw [← truncateAt_bytes_iff]
  refine ⟨fun pivot => pivot.bytes, fun bytes => ⟨fun row mem => ?_, fun row mem => ?_, bytes⟩⟩
  · exact le_trans (a := (ix.key row).rank) (le_lastRow left mem) above
  · exact key_lt_of_lt_of_le below (firstRow_le right mem)

/-- A plain tuple as the sort makes it. -/
theorem truncateAt_isPivot_of_plain : Sorted countIndex [⟨1, 1⟩, ⟨1, 2⟩, ⟨2, 3⟩] ∧
    IsPivot countIndex ⟨1, 1, [2]⟩ ⟨2, 3, []⟩
      (truncateAt countIndex (countIndex.plainSize 2) ⟨1, 1, [2]⟩ ⟨2, 3, []⟩) := by
  have sorted : Sorted countIndex [⟨1, 1⟩, ⟨1, 2⟩, ⟨2, 3⟩] := by unfold Sorted; decide
  exact ⟨sorted, (truncateAt_isPivot_iff sorted).mpr fun more => absurd more (by decide)⟩

/-- The tuple with the key 2 is a list that was made with a plain base, or what is left of it. -/
theorem posting_pivot_has_xmin :
    truncateAt countIndex (countIndex.plainSize 2) ⟨1, 1, []⟩ ⟨2, 2, [3]⟩ = ⟨⟨[2], none⟩, 24⟩ ∧
      truncateAt countIndex (countIndex.plainSize 2 + 8) ⟨1, 1, []⟩ ⟨2, 2, []⟩ =
        ⟨⟨[2], none⟩, 24⟩ ∧
      countIndex.formSize 2 = 16 ∧
      ¬ IsPivot countIndex ⟨1, 1, []⟩ ⟨2, 2, [3]⟩ ⟨⟨[2], none⟩, 24⟩ ∧
      ¬ IsPivot countIndex ⟨1, 1, []⟩ ⟨2, 2, []⟩ ⟨⟨[2], none⟩, 24⟩ :=
  ⟨by decide, by decide, rfl, fun pivot => absurd pivot.bytes (by decide),
    fun pivot => absurd pivot.bytes (by decide)⟩

end

/-! ## Pieces -/

/-- What an item of a level leads to, and its low key. -/
structure Piece (ι α : Type) where
  low : Key α
  rows : List (Row ι)

def rowsOf (pieces : List (Piece ι α)) : List (Row ι) :=
  pieces.flatMap Piece.rows

omit [LinearOrder α] in
@[simp] theorem rowsOf_append (first second : List (Piece ι α)) :
    rowsOf (first ++ second) = rowsOf first ++ rowsOf second :=
  flatMap_append

def Piece.Before (first second : Piece ι α) : Prop :=
  (∀ row ∈ first.rows, ix.key row ≤ second.low) ∧
    ∀ row ∈ second.rows, first.low < ix.key row

structure Separated (ix : Index ι α) (pieces : List (Piece ι α)) : Prop where
  pairs : pieces.Pairwise (Piece.Before ix)
  own : ∀ piece ∈ pieces, ∀ row ∈ piece.rows, piece.low < ix.key row

namespace Separated

variable {ix : Index ι α}

theorem left (separated : Separated ix (first ++ second)) : Separated ix first :=
  ⟨(pairwise_append.mp separated.pairs).1, fun piece mem =>
    separated.own piece (mem_append_left second mem)⟩

variable {after : List (Piece ι α)}

theorem le_low (separated : Separated ix (pre ++ piece :: after))
    (mem : row ∈ rowsOf pre) : ix.key row ≤ piece.low := by
  obtain ⟨earlier, inside, rowMem⟩ := mem_flatMap.mp mem
  exact ((pairwise_append.mp separated.pairs).2.2 earlier inside piece
    (mem_cons_self ..)).1 row rowMem

theorem low_lt (separated : Separated ix (pre ++ piece :: after))
    (mem : row ∈ rowsOf (piece :: after)) : piece.low < ix.key row := by
  obtain ⟨later, inside, rowMem⟩ := mem_flatMap.mp mem
  cases mem_cons.mp inside with
  | inl same =>
    rw [same] at rowMem
    exact separated.own piece (mem_append_right pre (mem_cons_self ..)) row rowMem
  | inr behind =>
    exact (rel_of_pairwise_cons (pairwise_append.mp separated.pairs).2.1 behind).2 row rowMem

end Separated

def gather : List (Piece ι α) → Piece ι α
  | [] => ⟨minusInfinity, []⟩
  | first :: rest => ⟨first.low, rowsOf (first :: rest)⟩

omit [LinearOrder α] in
@[simp] theorem gather_rows (pieces : List (Piece ι α)) : (gather pieces).rows = rowsOf pieces := by
  cases pieces <;> rfl

theorem Separated.gathered {ix : Index ι α} {groups : List (List (Piece ι α))}
    (nonempty : ∀ group ∈ groups, group ≠ []) (separated : Separated ix groups.flatten) :
    Separated ix (groups.map gather) := by
  obtain ⟨within, across⟩ := pairwise_flatten.mp separated.pairs
  constructor
  · refine pairwise_map.mpr (across.imp_of_mem ?_)
    intro first second firstMem secondMem pre
    cases first with
    | nil => exact absurd rfl (nonempty [] firstMem)
    | cons firstHead firstRest =>
      cases second with
      | nil => exact absurd rfl (nonempty [] secondMem)
      | cons secondHead secondRest =>
        constructor
        · intro row mem
          obtain ⟨piece, inside, rowMem⟩ := mem_flatMap.mp mem
          exact (pre piece inside secondHead (mem_cons_self ..)).1 row rowMem
        · intro row mem
          obtain ⟨piece, inside, rowMem⟩ := mem_flatMap.mp mem
          exact (pre firstHead (mem_cons_self ..) piece inside).2 row rowMem
  · intro piece mem row rowMem
    obtain ⟨group, inside, rfl⟩ := mem_map.mp mem
    cases group with
    | nil => exact absurd rfl (nonempty [] inside)
    | cons head rest =>
      have part : Separated ix ([] ++ head :: rest) :=
        ⟨within _ inside, fun piece pieceMem =>
          separated.own piece (mem_flatten.mpr ⟨_, inside, pieceMem⟩)⟩
      exact part.low_lt rowMem

/-! ## The leaf level -/

def lowAfter (prev : Option (LeafTuple ι)) (tup : LeafTuple ι) : Key α :=
  prev.elim minusInfinity fun lastleft => (truncate ix lastleft tup).key

def leafPieces (ix : Index ι α) : Option (LeafTuple ι) → List (LeafTuple ι) → List (Piece ι α)
  | _, [] => []
  | prev, tup :: rest => ⟨lowAfter ix prev tup, tup.rows⟩ :: leafPieces ix (some tup) rest

theorem rowsOf_leafPieces (prev : Option (LeafTuple ι)) (tuples : List (LeafTuple ι)) :
    rowsOf (leafPieces ix prev tuples) = tuples.flatMap rows := by
  induction tuples generalizing prev with
  | nil => rfl
  | cons tup rest ih => exact congrArg (tup.rows ++ ·) (ih (some tup))

theorem leafPieces_concat (prev : Option (LeafTuple ι))
    (tuples : List (LeafTuple ι)) (tup : LeafTuple ι) :
    leafPieces ix prev (tuples ++ [tup]) = leafPieces ix prev tuples ++
      [⟨lowAfter ix (tuples.getLast?.or prev) tup, tup.rows⟩] := by
  induction tuples generalizing prev with
  | nil => rfl
  | cons head rest ih =>
    rw [cons_append, leafPieces, ih, leafPieces, cons_append, getLast?_cons]
    cases rest.getLast? <;> rfl

theorem lastRow_le_low {prev} {ix : Index ι α} (sorted : Sorted ix ((prev :: tuples).flatMap rows))
    (mem : piece ∈ leafPieces ix (some prev) tuples) :
    ix.key prev.lastRow ≤ piece.low := by
  induction tuples generalizing prev with
  | nil => exact absurd mem not_mem_nil
  | cons tup rest ih =>
    obtain ⟨-, sortedRest, across⟩ := pairwise_append.mp sorted
    cases mem_cons.mp mem with
    | inl first =>
      rw [first]
      exact (truncate_separates ix (across _ prev.lastRow_mem tup.firstRow
        (mem_append_left _ tup.firstRow_mem))).1
    | inr later =>
      have pre : ix.key prev.lastRow < ix.key tup.lastRow :=
        across _ prev.lastRow_mem tup.lastRow (mem_append_left _ tup.lastRow_mem)
      exact le_trans (a := (ix.key prev.lastRow).rank) (key_le_of_lt pre) (ih sortedRest later)

theorem leafPieces_separated {prev} {ix : Index ι α} (sorted : Sorted ix (tuples.flatMap rows))
    (below : ∀ tup ∈ tuples.head?, lowAfter ix prev tup < ix.key tup.firstRow) :
    Separated ix (leafPieces ix prev tuples) := by
  induction tuples generalizing prev with
  | nil => exact ⟨List.Pairwise.nil, nofun⟩
  | cons tup rest ih =>
    obtain ⟨sortedTuple, sortedRest, across⟩ := pairwise_append.mp sorted
    have low := below tup rfl
    have tail : Separated ix (leafPieces ix (some tup) rest) := by
      refine ih sortedRest fun next mem => ?_
      refine (truncate_separates ix (across _ tup.lastRow_mem _ ?_)).2
      exact mem_flatMap.mpr ⟨next, mem_of_mem_head? mem, next.firstRow_mem⟩
    constructor
    · refine pairwise_cons.mpr ⟨fun piece mem => ⟨fun row rowMem => ?_, fun row rowMem => ?_⟩,
        tail.pairs⟩
      · exact le_trans (a := (ix.key row).rank) (le_lastRow sortedTuple rowMem)
          (lastRow_le_low sorted mem)
      · have inside : row ∈ rest.flatMap rows := by
          rw [← rowsOf_leafPieces ix (some tup) rest]
          exact mem_flatMap.mpr ⟨piece, mem, rowMem⟩
        exact key_lt_trans low (across _ tup.firstRow_mem row inside)
    · intro piece mem row rowMem
      cases mem_cons.mp mem with
      | inl first =>
        rw [first] at rowMem ⊢
        exact key_lt_of_lt_of_le low (firstRow_le sortedTuple rowMem)
      | inr later => exact tail.own piece later row rowMem

end PgAqp.BulkLoad
