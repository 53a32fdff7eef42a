import PgAqp.BulkLoad.Keys
import PgAqp.BulkLoad.Space
import PgAqp.Library.Outcome

/-!
# The levels of a tree that is built

A level is a stream of pieces.  Its closed pages hold groups of them, and the open page holds
the rest.  The stream of the level above has one piece for each closed page.
-/

namespace PgAqp.BulkLoad

open Abtree Library Sampling List Int

variable {ι α : Type} [LinearOrder α]

/-! ## Sums -/

section

variable {α : Type}

def total (ix : Index ι α) : List (Row ι) → Int
  | [] => 0
  | row :: rest => ix.value row.image + total ix rest

@[simp] theorem total_append (ix : Index ι α) (first second : List (Row ι)) :
    total ix (first ++ second) = total ix first + total ix second := by
  induction first with
  | nil => exact (zero_add _).symm
  | cons row rest ih => rw [cons_append, total, total, ih, add_assoc]

theorem total_map (ix : Index ι α) (image : ι) (tids : List Nat) :
    total ix (tids.map fun tid => ⟨image, tid⟩) = ix.value image * tids.length := by
  induction tids with
  | nil => exact (mul_zero _).symm
  | cons tid rest ih =>
    rw [map_cons, total, ih, length_cons, Nat.cast_succ, mul_add, mul_one, add_comm]

/-- Some consecutive rows have a sum that is out of range. -/
def Overflows (ix : Index ι α) (rows : List (Row ι)) : Prop :=
  ∃ run, run <:+: rows ∧ ¬ ix.aggType.Fits (total ix run)

variable {ix : Index ι α} {rows pre : List (Row ι)} {acc : Int}

theorem Overflows.mono (within : rows <:+: more)
    (overflows : Overflows ix rows) : Overflows ix more := by
  obtain ⟨run, inside, range⟩ := overflows
  exact ⟨run, inside.trans within, range⟩

def SumError (ix : Index ι α) (rows : List (Row ι)) (error : BuildError) : Prop :=
  error = .outOfRange ∧ Overflows ix rows

theorem checked_outcome (within : run <:+: rows) (sum : res = total ix run) :
    Outcome (· = total ix run) (SumError ix rows) (ix.aggType.checked res) := by
  unfold AggType.checked
  split
  · exact sum
  · next range => exact ⟨rfl, run, within, sum ▸ range⟩

structure Accumulated (ix : Index ι α) (acc : Int) (isFirst : Bool) (pre : List (Row ι)) :
    Prop where
  first : isFirst = true → pre = []
  later : isFirst = false → acc = total ix pre

theorem accumValue_outcome (start : Accumulated ix acc isFirst pre)
    (within : pre ++ added <:+: rows) (sum : value = total ix added) :
    Outcome (· = total ix (pre ++ added)) (SumError ix rows) (accumValue ix acc value isFirst) := by
  cases isFirst with
  | false =>
    refine checked_outcome within ?_
    rw [start.later rfl, sum, total_append]
  | true =>
    rw [start.first rfl]
    exact sum

theorem accumTimes_outcome {tids : List Nat}
    (within : pre ++ tids.map (fun tid => ⟨image, tid⟩) <:+: rows) (start : acc = total ix pre) :
    Outcome (· = total ix (pre ++ tids.map (fun tid => ⟨image, tid⟩)))
      (SumError ix rows) (accumTimes ix (ix.value image) tids.length acc) := by
  induction tids generalizing pre acc with
  | nil =>
    rw [map_nil, append_nil]
    exact start
  | cons tid rest ih =>
    have regroup : pre ++ (tid :: rest).map (fun tid => (⟨image, tid⟩ : Row ι)) =
        (pre ++ [⟨image, tid⟩]) ++ rest.map (fun tid => ⟨image, tid⟩) := by simp
    rw [regroup] at within ⊢
    refine Outcome.bind (checked_outcome ((prefix_append _ _).isInfix.trans within) ?_)
      fun next sum => ih within sum
    rw [start, total_append]
    exact congrArg (_ + ·) (add_zero _).symm

def Item.Sums (ix : Index ι α) (rows : List (Row ι)) : Item ι α → Prop
  | .leaf tup => rows = tup.rows
  | .pivot tup => tup.agg = total ix rows

theorem accumItem_outcome (start : Accumulated ix acc isFirst pre)
    (within : pre ++ added <:+: rows) (sums : item.Sums ix added) :
    Outcome (· = total ix (pre ++ added)) (SumError ix rows) (accumItem ix acc isFirst item) := by
  cases item with
  | pivot tup => exact accumValue_outcome start within sums
  | leaf tup =>
    subst sums
    simp only [accumItem]
    by_cases agg : ix.leafHasAgg
    · have value : ix.map tup.image = ix.value tup.image := by rw [Index.value, if_pos agg]
      have split : pre ++ tup.rows = (pre ++ [⟨tup.image, tup.heapTid⟩]) ++
          tup.moreTids.map (fun tid => ⟨tup.image, tid⟩) := by
        rw [append_assoc]
        rfl
      rw [if_pos agg, value, split]
      rw [split] at within
      refine Outcome.bind (accumValue_outcome start
        ((prefix_append _ _).isInfix.trans within) (add_zero _).symm) ?_
      exact fun first sum => accumTimes_outcome within sum
    · have value : ix.aggMapVal = ix.value tup.image := by rw [Index.value, if_neg agg]
      have all := total_map ix tup.image tup.tids
      rw [if_neg agg]
      split
      · refine Outcome.bind (checked_outcome ((suffix_append _ _).isInfix.trans within)
          (by rw [value, ← all]; rfl)) ?_
        exact fun product sum => accumValue_outcome start within sum
      next plain =>
        refine accumValue_outcome start within ?_
        have single : tup.moreTids = [] := by simpa [LeafTuple.isPosting] using plain
        rw [LeafTuple.rows, all, LeafTuple.tids, single, value]
        exact (mul_one _).symm

end

/-! ## What an item has -/

def Item.Has (ix : Index ι α) (pages : List (Nat × Page ι α)) :
    Nat → Item ι α → List (Row ι) → Prop
  | 0, .leaf tup, rows => rows = tup.rows
  | lvl + 1, .pivot tup, rows =>
    tup.agg = total ix rows ∧ ∃ page parts, (tup.downlink, page) ∈ pages ∧
      page.level = lvl ∧ List.Forall₂ (Item.Has ix pages lvl) page.items parts ∧
      rows = parts.flatten
  | _, _, _ => False

namespace Item.Has

variable {ix : Index ι α} {item : Item ι α} {rows : List (Row ι)}

omit [LinearOrder α] in
theorem sums (has : item.Has ix pages lvl rows) : item.Sums ix rows := by
  cases lvl with
  | zero =>
    cases item with
    | leaf tup => exact has
    | pivot tup => exact has.elim
  | succ lvl =>
    cases item with
    | leaf tup => exact has.elim
    | pivot tup => exact has.1

omit [LinearOrder α] in
theorem mono (subset : pages ⊆ more) (has : item.Has ix pages lvl rows) :
    item.Has ix more lvl rows := by
  induction lvl generalizing item rows with
  | zero =>
    cases item with
    | leaf tup => exact has
    | pivot tup => exact has.elim
  | succ lvl ih =>
    cases item with
    | leaf tup => exact has.elim
    | pivot tup =>
      obtain ⟨agg, page, parts, mem, pageLevel, items, whole⟩ := has
      exact ⟨agg, page, parts, subset mem, pageLevel, items.imp fun item part => ih, whole⟩

omit [LinearOrder α] in
theorem truncateFirst (has : item.Has ix pages lvl rows) :
    (item.truncateFirst ix).Has ix pages lvl rows := by
  cases item with
  | leaf tup => exact has
  | pivot tup =>
    cases lvl with
    | zero => exact has.elim
    | succ lvl => exact has

theorem separator {prev} (prevHas : prev.Has ix pages lvl pre)
    (has : item.Has ix pages lvl rows) (sized : item.Sized ix) :
    ∃ between, separator ix prev item = .ok between ∧ between.Fits ix item := by
  cases lvl with
  | zero =>
    cases prev with
    | pivot tup => exact prevHas.elim
    | leaf prevTuple =>
      cases item with
      | pivot tup => exact has.elim
      | leaf tup => exact ⟨_, rfl, separator_leaf_fits sized⟩
  | succ lvl =>
    cases prev with
    | leaf tup => exact prevHas.elim
    | pivot prevTuple =>
      cases item with
      | leaf tup => exact has.elim
      | pivot tup => exact ⟨_, rfl, separator_pivot_fits sized⟩

end Item.Has

def LowKeys (ix : Index ι α) : List (Item ι α) → List (Piece ι α) → Prop
  | item :: prev :: rest, piece :: pieces =>
    (∀ between, separator ix prev item = .ok between → between.low.key = piece.low) ∧
      LowKeys ix (prev :: rest) pieces
  | _, _ => True

structure OnPage (ix : Index ι α) (pages : List (Nat × Page ι α)) (lvl : Nat)
    (items : List (Item ι α)) (pieces : List (Piece ι α)) : Prop where
  has : List.Forall₂ (fun item piece => item.Has ix pages lvl piece.rows) items pieces
  lows : LowKeys ix items pieces
  first : ∀ tup, items.getLast? = some (.pivot tup) → tup.key = minusInfinity

variable {ix : Index ι α} {pages : List (Nat × Page ι α)} {number lvl : Nat}

theorem OnPage.mono (subset : pages ⊆ more)
    (onPage : OnPage ix pages lvl items pieces) : OnPage ix more lvl items pieces :=
  ⟨onPage.has.imp fun _ _ has => has.mono subset, onPage.lows, onPage.first⟩

/-! ## Levels -/

structure Closed (ι α : Type) where
  blkno : Nat
  page : Page ι α
  pieces : List (Piece ι α)

def Closed.piece (closed : Closed ι α) : Piece ι α :=
  gather closed.pieces

structure Level (ι α : Type) where
  state : PageState ι α
  closed : List (Closed ι α)
  pieces : List (Piece ι α)

def Level.stream (lvl : Level ι α) : List (Piece ι α) :=
  lvl.closed.flatMap Closed.pieces ++ lvl.pieces.reverse

def Links (prev : Option Nat) : List (Closed ι α) → Option Nat → Option Nat → Option (Key α) → Prop
  | [], last, _, _ => last = prev
  | closed :: rest, last, next, low =>
    closed.page.prev = prev ∧ closed.page.next = (rest.head?.map Closed.blkno).or next ∧
      closed.page.hikey = (rest.head?.map fun closed => closed.piece.low).or low ∧
      Links (some closed.blkno) rest last next low

omit [LinearOrder α] in
theorem Links.concat {next prev} {pages : List (Closed ι α)}
    (links : Links prev pages last (some page.blkno) (some page.piece.low))
    (pagePrev : page.page.prev = last) (pageNext : page.page.next = next)
    (pageHikey : page.page.hikey = low) :
    Links prev (pages ++ [page]) (some page.blkno) next low := by
  induction pages generalizing prev with
  | nil =>
    refine ⟨?_, pageNext, pageHikey, rfl⟩
    rw [pagePrev]
    exact links
  | cons first rest ih =>
    obtain ⟨firstPrev, firstNext, firstHikey, behind⟩ := links
    refine ⟨firstPrev, ?_, ?_, ih behind⟩
    · rw [firstNext]
      cases rest <;> rfl
    · rw [firstHikey]
      cases rest <;> rfl

structure ClosedOk (ix : Index ι α) (pages : List (Nat × Page ι α)) (lvl : Nat)
    (closed : Closed ι α) : Prop where
  height : closed.page.level = lvl
  nonempty : closed.pieces ≠ []
  onPage : OnPage ix pages lvl closed.page.items.reverse closed.pieces.reverse
  mem : (closed.blkno, closed.page) ∈ pages

theorem ClosedOk.mono (subset : pages ⊆ more) (ok : ClosedOk ix pages lvl closed) :
    ClosedOk ix more lvl closed :=
  ⟨ok.height, ok.nonempty, ok.onPage.mono subset, subset ok.mem⟩

structure LevelOk (ix : Index ι α) (pages : List (Nat × Page ι α)) (number : Nat)
    (lvl : Level ι α) : Prop where
  height : lvl.state.level = number
  sized : lvl.state.Sized ix
  onPage : OnPage ix pages number lvl.state.items lvl.pieces
  lowkey : lvl.state.lowkey.map SizedKey.key = lvl.pieces.getLast?.map Piece.low
  agg : ∀ last pre, lvl.pieces = last :: pre → pre ≠ [] →
    lvl.state.agg = total ix (rowsOf pre.reverse)
  links : Links none lvl.closed lvl.state.prev (some lvl.state.blkno)
    (lvl.pieces.getLast?.map Piece.low)
  closed : ∀ closed ∈ lvl.closed, ClosedOk ix pages number closed
  separated : Separated ix lvl.stream
  leftmost : ∀ piece ∈ lvl.stream.head?, piece.low = minusInfinity
  started : lvl.pieces = [] → lvl.closed = []

theorem LevelOk.mono {lvl : Level ι α} (subset : pages ⊆ more) (ok : LevelOk ix pages number lvl) :
    LevelOk ix more number lvl :=
  { ok with
    onPage := ok.onPage.mono subset
    closed := fun closed mem => (ok.closed closed mem).mono subset }

def Item.downlinks : Item ι α → List Nat
  | .leaf _ => []
  | .pivot tup => [tup.downlink]

def Closed.downlinks (closed : Closed ι α) : List Nat :=
  closed.page.items.flatMap Item.downlinks

def Level.downlinks (lvl : Level ι α) : List Nat :=
  lvl.closed.flatMap Closed.downlinks ++ lvl.state.items.reverse.flatMap Item.downlinks

def streamOf : List (Level ι α) → List (Piece ι α)
  | [] => []
  | lvl :: _ => lvl.stream

def linksOf : List (Level ι α) → List Nat
  | [] => []
  | lvl :: _ => lvl.downlinks

/-- The levels above have one item for each finished page, with a downlink to it. -/
structure Covered (lvl : Level ι α) (above : List (Level ι α)) : Prop where
  stream : streamOf above = lvl.closed.map Closed.piece
  links : linksOf above = lvl.closed.map Closed.blkno

/-- The invariant of all levels: each has the closed pages of the one below it. -/
def LevelsOk (ix : Index ι α) (pages : List (Nat × Page ι α)) : Nat → List (Level ι α) → Prop
  | _, [] => True
  | number, lvl :: above =>
    LevelOk ix pages number lvl ∧ Covered lvl above ∧
      LevelsOk ix pages (number + 1) above

theorem LevelsOk.mono (subset : pages ⊆ more)
    (ok : LevelsOk ix pages number levels) : LevelsOk ix more number levels := by
  induction levels generalizing number with
  | nil => trivial
  | cons lvl above ih => exact ⟨ok.1.mono subset, ok.2.1, ih ok.2.2⟩

theorem accumLast_outcome {lvl : Level ι α} (ok : LevelOk ix pages number lvl) :
    Outcome (fun agg => lvl.pieces ≠ [] → agg = total ix (rowsOf lvl.pieces.reverse))
      (SumError ix (rowsOf lvl.stream)) (accumLast ix lvl.state) := by
  have items := ok.onPage.has
  have within : rowsOf lvl.pieces.reverse <:+: rowsOf lvl.stream := by
    rw [Level.stream, rowsOf_append]
    exact (suffix_append _ _).isInfix
  unfold accumLast
  cases stateItems : lvl.state.items with
  | nil =>
    rw [stateItems] at items
    cases pieces : lvl.pieces with
    | nil => exact fun nonempty => absurd rfl nonempty
    | cons piece rest => rw [pieces] at items; cases items
  | cons item rest =>
    rw [stateItems] at items
    cases pieces : lvl.pieces with
    | nil => rw [pieces] at items; cases items
    | cons piece pre =>
      rw [pieces] at items within
      obtain ⟨has, others⟩ := forall₂_cons.mp items
      have rows : rowsOf (piece :: pre).reverse = rowsOf pre.reverse ++ piece.rows := by
        rw [reverse_cons, rowsOf_append]
        exact congrArg (_ ++ ·) (append_nil _)
      rw [rows] at within ⊢
      refine (accumItem_outcome ⟨?_, ?_⟩ within has.sums).mono (fun agg sum _ => sum)
        fun error bad => bad
      · intro first
        cases others with
        | nil => rfl
        | cons _ _ => cases first
      · intro later
        refine ok.agg piece pre pieces ?_
        rintro rfl
        cases others
        cases later

end PgAqp.BulkLoad
