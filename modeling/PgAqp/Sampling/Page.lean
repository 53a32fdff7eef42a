import Mathlib.Data.List.TakeWhile
import PgAqp.Library.Bisect
import PgAqp.Sampling.Key
import PgAqp.VersionStore.Abtvs

/-!
# Pages as the sampler reads them

A page is what the accessor macros return: the tuples of a leaf page with the rows
that they stand for, or the pivots of an internal page.
-/

namespace PgAqp.Sampling

open VersionStore (Xid)
open Library List Bisect

variable {α : Type}

/-- One heap TID of a leaf tuple, with its `xmin` and, if the leaf level stores aggregates, its
aggregate. -/
structure Row where
  heapTid : Nat
  xmin : Xid
  agg : Nat
  deriving DecidableEq, Repr

/-- `ABTreeTupleIsPosting`: a plain tuple stands for one row, a posting list for several. -/
inductive LeafData where
  | plain (row : Row)
  | posting (rows : List Row)
  deriving DecidableEq, Repr

structure LeafTuple (α : Type) where
  attrs : List α
  data : LeafData
  /-- `ItemIdIsDead`. -/
  dead : Bool
  /-- A posting list has a first TID. -/
  filled : data ≠ .posting []
  deriving DecidableEq, Repr

structure PivotTuple (α : Type) where
  key : Key α
  downlink : Nat
  agg : Nat
  deriving DecidableEq, Repr

inductive Items (α : Type) where
  | leaf (tuples : List (LeafTuple α))
  | internal (pivots : List (PivotTuple α))
  deriving DecidableEq, Repr

def Items.length : Items α → Nat
  | .leaf tuples => tuples.length
  | .internal pivots => pivots.length

structure Page (α : Type) where
  items : Items α
  /-- The high key and `abtpo_next`; the rightmost page has neither. -/
  right : Option (Key α × Nat)
  /-- `abtpo.level`. -/
  level : Nat
  /-- `ABT_P_IGNORE`: the page is half-dead or deleted. -/
  ignore : Bool
  /-- `MaxOffsetNumber`. -/
  fits : items.length < 2048
  deriving DecidableEq

namespace LeafTuple

def rows (tup : LeafTuple α) : List Row :=
  match tup.data with
  | .plain row => [row]
  | .posting rows => rows

def rowAt (tup : LeafTuple α) (postingOff : Nat) : Option Row :=
  match tup.data with
  | .plain row => some row
  | .posting rows => rows[postingOff]?

def key (tup : LeafTuple α) : Key α := ⟨tup.attrs, tup.rows.head?.map Row.heapTid⟩

theorem key_eq (tup : LeafTuple α) : ∃ heapTid, tup.key = ⟨tup.attrs, some heapTid⟩ := by
  obtain ⟨attrs, data, dead, filled⟩ := tup
  cases data with
  | plain row => exact ⟨row.heapTid, rfl⟩
  | posting rows =>
    cases rows with
    | nil => exact absurd rfl filled
    | cons row rows => exact ⟨row.heapTid, rfl⟩

end LeafTuple

namespace Page

variable (page : Page α) (off : Nat)

/-- `ABT_P_ISLEAF`. -/
def isLeaf : Bool :=
  match page.items with
  | .leaf _ => true
  | .internal _ => false

/-- `ABT_P_RIGHTMOST`. -/
def rightmost : Bool := page.right.isNone

/-- The tuple at `ABTP_HIKEY`. -/
def hikey : Option (Key α) := page.right.map Prod.fst

/-- `ABT_P_FIRSTDATAKEY`. -/
def firstDataKey : Nat := if page.rightmost then 1 else 2

/-- `PageGetMaxOffsetNumber`. -/
def maxOffset : Nat := page.firstDataKey + page.items.length - 1

def keys : List (Key α) :=
  match page.items with
  | .leaf tuples => tuples.map LeafTuple.key
  | .internal pivots => pivots.map PivotTuple.key

def keyAt : Option (Key α) :=
  page.keys[off - page.firstDataKey]?

def leafAt : Option (LeafTuple α) :=
  match page.items with
  | .leaf tuples => tuples[off - page.firstDataKey]?
  | .internal _ => none

def pivotAt : Option (PivotTuple α) :=
  match page.items with
  | .leaf _ => none
  | .internal pivots => pivots[off - page.firstDataKey]?

/-- The high key that the child below the pivot should have: the key of the next pivot, or the
high key of the page. -/
def expectedHikey : Option (Key α) :=
  if off = page.maxOffset then page.hikey else page.keyAt (off + 1)

theorem firstDataKey_pos : 0 < page.firstDataKey := by
  unfold firstDataKey
  split <;> decide

theorem length_keys : page.keys.length = page.items.length := by
  unfold keys Items.length
  cases page.items <;> exact length_map _

theorem maxOffset_succ : page.maxOffset + 1 = page.firstDataKey + page.keys.length := by
  have pos := page.firstDataKey_pos
  rw [length_keys, maxOffset]
  omega

theorem keyAt_add (i : Nat) : page.keyAt (page.firstDataKey + i) = page.keys[i]? := by
  rw [keyAt, Nat.add_sub_cancel_left]

variable [LinearOrder α]

/-- `_abt_compare` with the data item at an offset; the first one of an internal page is minus
infinity. -/
def compareAt (key : ScanInsert α) (off : Nat) : Ordering :=
  if page.isLeaf = false ∧ off = page.firstDataKey then .gt
  else (page.keyAt off).elim .lt key.compareKey

/-- The test of the binary search: `result < cmpval`. -/
def fails (key : ScanInsert α) (off : Nat) : Bool :=
  !key.passes (page.compareAt key off)

/-- `_abt_binsrch`. -/
def binsrch (key : ScanInsert α) : Nat :=
  if page.maxOffset < page.firstDataKey then page.firstDataKey
  else if page.isLeaf then first (page.fails key) page.firstDataKey (page.maxOffset + 1)
  else first (page.fails key) page.firstDataKey (page.maxOffset + 1) - 1

def Sorted : Prop :=
  ∀ i later first second, page.isLeaf = true ∨ 0 < i → i < later →
    page.keys[i]? = some first → page.keys[later]? = some second → first ≤ second

section

variable {page : Page α} {key : ScanInsert α}

theorem fails_add (key : ScanInsert α) (compared : page.isLeaf ∨ 0 < i)
    (present : page.keys[i]? = some tup) :
    page.fails key (page.firstDataKey + i) = !key.passes (key.compareKey tup) := by
  have notFirst : ¬ (page.isLeaf = false ∧ page.firstDataKey + i = page.firstDataKey) := by
    rintro ⟨internal, same⟩
    cases compared with
    | inl leaf => rw [leaf] at internal; cases internal
    | inr later => omega
  rw [fails, compareAt, if_neg notFirst, keyAt_add, present]
  rfl

theorem fails_first (internal : page.isLeaf = false) :
    page.fails key page.firstDataKey = false := by
  rw [fails, compareAt, if_pos ⟨internal, rfl⟩, ScanInsert.passes_gt]
  rfl

theorem Sorted.rising (sorted : page.Sorted) (bound : key.IsBound) :
    Bisect.Rising (page.fails key) page.firstDataKey (page.maxOffset + 1) := by
  intro off later above upTo below failed
  rw [maxOffset_succ] at below
  obtain ⟨i, rfl⟩ := Nat.exists_eq_add_of_le above
  obtain ⟨distance, rfl⟩ := Nat.exists_eq_add_of_le upTo
  by_cases here : distance = 0
  · rw [here, Nat.add_zero]
    exact failed
  by_cases first : page.isLeaf = false ∧ i = 0
  · rw [first.2, Nat.add_zero, fails_first first.1] at failed
    cases failed
  · have compared : page.isLeaf ∨ 0 < i := by
      cases leaf : page.isLeaf with
      | true => exact .inl rfl
      | false => exact .inr (Nat.pos_of_ne_zero fun none => first ⟨leaf, none⟩)
    have inside : i + distance < page.keys.length := by omega
    have pre : i < page.keys.length := by omega
    have atIndex := getElem?_eq_getElem pre
    have atLater := getElem?_eq_getElem inside
    have ordered := sorted i (i + distance) _ _ compared (by omega) atIndex atLater
    rw [fails_add key compared atIndex] at failed
    rw [Nat.add_assoc, fails_add key (compared.imp_right fun pos => by omega) atLater]
    refine Bool.not_eq_true' _ ▸ Bool.eq_false_iff.mpr fun passed => ?_
    rw [ScanInsert.passes_of_le bound ordered passed] at failed
    cases failed

/-- The search of a page splits its keys: before the result all pass, from it on none does. -/
theorem Sorted.search (sorted : page.Sorted) (bound : key.IsBound) :
    ∃ i, first (page.fails key) page.firstDataKey (page.maxOffset + 1) =
        page.firstDataKey + i ∧ i ≤ page.keys.length ∧
      (page.isLeaf = false → 0 < page.keys.length → 0 < i) ∧
      ∀ place tup, page.isLeaf ∨ 0 < place → page.keys[place]? = some tup →
        (key.passes (key.compareKey tup) ↔ place < i) := by
  have size := page.maxOffset_succ
  have found := first_isFirst (by omega) (sorted.rising bound)
  generalize first (page.fails key) page.firstDataKey (page.maxOffset + 1) = low at found ⊢
  obtain ⟨i, rfl⟩ := Nat.exists_eq_add_of_le found.lower
  have upper := found.upper
  refine ⟨i, rfl, by omega, fun internal nonempty => ?_, fun place tup compared present => ?_⟩
  · -- the first key always passes
    refine Nat.pos_of_ne_zero fun none => ?_
    have failed := found.passes page.firstDataKey (by omega) (by omega)
    rw [fails_first internal] at failed
    cases failed
  · have inside := (List.getElem?_eq_some_iff.mp present).1
    have test := fails_add key compared present
    constructor
    · intro passed
      refine Nat.lt_of_not_le fun after => ?_
      have failed := found.passes (page.firstDataKey + place) (by omega) (by omega)
      rw [test, passed] at failed
      cases failed
    · intro pre
      have passed := found.fails (page.firstDataKey + place) (by omega) (by omega)
      rw [test] at passed
      exact (Bool.not_eq_false' _).mp passed

theorem Sorted.binsrch_leaf (sorted : page.Sorted) (bound : key.IsBound) (leaf : page.isLeaf) :
    ∃ i, page.binsrch key = page.firstDataKey + i ∧ i ≤ page.keys.length ∧
      ∀ place tup, page.keys[place]? = some tup →
        (key.passes (key.compareKey tup) ↔ place < i) := by
  obtain ⟨i, res, upper, _, splits⟩ := sorted.search bound
  have size := page.maxOffset_succ
  refine ⟨i, ?_, upper, fun place tup present => splits place tup (.inl leaf) present⟩
  rw [binsrch, if_pos leaf, res]
  split <;> omega

theorem Sorted.binsrch_internal (sorted : page.Sorted) (bound : key.IsBound)
    (internal : page.isLeaf = false) (nonempty : 0 < page.keys.length) :
    ∃ i, page.binsrch key = page.firstDataKey + i ∧ i < page.keys.length ∧
      ∀ place tup, 0 < place → page.keys[place]? = some tup →
        (key.passes (key.compareKey tup) ↔ place ≤ i) := by
  obtain ⟨i, res, upper, pos, splits⟩ := sorted.search bound
  have size := page.maxOffset_succ
  have notFirst := pos internal nonempty
  refine ⟨i - 1, ?_, by omega, fun place tup later present => ?_⟩
  · rw [binsrch, if_neg (by omega), if_neg (by simp [internal]), res]
    omega
  · rw [splits place tup (.inr later) present]
    omega

end

end Page

namespace Page

/-! ## The next live page -/

/-- `_abt_moveright_to_next_live_page`, which locks at most `fuel` pages; `some none` is
`InvalidBuffer`. -/
def moverightToNextLivePage (pages : Nat → Option (Page α)) :
    Nat → Page α → Option (Option (Page α))
  | 0, _ => none
  | fuel + 1, page =>
    if page.ignore then
      match page.right with
      -- block 0 is the metapage, which has no right sibling either
      | none => some none
      | some (_, blkno) =>
        (pages blkno).bind fun next =>
          if next.rightmost then some none else moverightToNextLivePage pages fuel next
    else some (some page)

/-- `rest` are the pages to the right, up to the rightmost one. -/
def Siblings (pages : Nat → Option (Page α)) : Page α → List (Page α) → Prop
  | page, [] => page.right = none
  | page, next :: rest =>
    (∃ key blkno, page.right = some (key, blkno) ∧ pages blkno = some next) ∧ Siblings pages next rest

theorem Siblings.rightmost_iff {pages} {page : Page α} (siblings : Siblings pages page rest) :
    page.rightmost ↔ rest = [] := by
  cases rest with
  | nil =>
    have right : page.right = none := siblings
    simp [rightmost, right]
  | cons next rest =>
    obtain ⟨⟨key, blkno, isRight, -⟩, -⟩ := siblings
    simp [rightmost, isRight]

theorem Siblings.moveright_inner {pages} {page : Page α} (siblings : Siblings pages page rest)
    (more : rest ≠ []) (enough : rest.length < fuel) : moverightToNextLivePage pages fuel page =
      some ((page :: rest).dropLast.find? (!·.ignore)) := by
  induction rest generalizing page fuel with
  | nil => exact absurd rfl more
  | cons next rest ih =>
    obtain ⟨fuel, rfl⟩ := Nat.exists_eq_add_of_le' (Nat.zero_lt_of_lt enough)
    obtain ⟨⟨key, blkno, isRight, isNext⟩, siblings⟩ := siblings
    rw [moverightToNextLivePage, dropLast_cons_cons, find?_cons]
    cases page.ignore with
    | false => rfl
    | true =>
      simp only [isRight, isNext, Option.bind_some, siblings.rightmost_iff]
      by_cases last : rest = []
      · simp [last]
      · simpa [last] using ih siblings last (by simpa using enough)

/-- The first live page is found unless it is the rightmost one and not the given one. -/
theorem Siblings.moveright_iff {pages} {page : Page α} (siblings : Siblings pages page rest)
    (enough : rest.length < fuel) :
    moverightToNextLivePage pages fuel page = some ((page :: rest).find? (!·.ignore)) ↔
      (∃ sib ∈ (page :: rest).dropLast, sib.ignore = false) ∨
        ∀ last ∈ rest.getLast?, last.ignore = true := by
  rcases eq_nil_or_concat' rest with rfl | ⟨inner, last, rfl⟩
  · obtain ⟨fuel, rfl⟩ := Nat.exists_eq_add_of_le' enough
    have right : page.right = none := siblings
    cases live : page.ignore <;> simp [moverightToNextLivePage, live, right]
  · rw [siblings.moveright_inner (by simp) enough, ← cons_append, dropLast_concat, find?_append]
    cases found : (page :: inner).find? (!·.ignore) with
    | some sib =>
      have live := find?_some found
      exact iff_of_true rfl (.inl ⟨sib, mem_of_find?_eq_some found, by simpa using live⟩)
    | none =>
      have dead := find?_eq_none.mp found
      cases live : last.ignore <;> simp_all

def emptyLeaf (right : Option Nat) (ignore : Bool) : Page Nat :=
  ⟨.leaf [], right.map (⟨[], none⟩, ·), 0, ignore, by decide⟩

/-- A dead page, a live page and the rightmost page. -/
theorem inner_page_found : ∃ pages rest, Siblings pages (emptyLeaf (some 2) true) rest ∧
    moverightToNextLivePage pages 3 (emptyLeaf (some 2) true) = some (emptyLeaf (some 3) false) := by
  have siblings : Siblings (fun blkno => some (emptyLeaf (if blkno = 2 then some 3 else none) false))
      (emptyLeaf (some 2) true) [emptyLeaf (some 3) false, emptyLeaf none false] :=
    ⟨⟨_, 2, rfl, rfl⟩, ⟨_, 3, rfl, rfl⟩, rfl⟩
  refine ⟨_, _, siblings, ?_⟩
  exact (siblings.moveright_iff (by decide)).mpr (.inl ⟨_, mem_cons_of_mem _ mem_cons_self, rfl⟩)

/-- A dead page and a live page that is the rightmost one. -/
theorem rightmost_page_missed :
    moverightToNextLivePage (fun _ => some (emptyLeaf none false)) 2 (emptyLeaf (some 3) true) =
        some none ∧
      [emptyLeaf (some 3) true, emptyLeaf none false].find? (!·.ignore) =
        some (emptyLeaf none false) := by
  decide

end Page

end PgAqp.Sampling
