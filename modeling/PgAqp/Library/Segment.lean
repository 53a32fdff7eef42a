import Mathlib.Data.List.Nodup
import Mathlib.Logic.Function.Basic

/-!
# Linked lists in a store

A store of cells holds one link per list head and one per node.  `Segment`
says that the links followed from a given point visit a given list of nodes
and stop at a given point.
-/

namespace PgAqp.Library

open Function List Option

/-- A place that holds a link: a list head or the successor field of a node. -/
inductive Cell (ι α : Type) where
  | head : ι → Cell ι α
  | node : α → Cell ι α
  deriving DecidableEq, Repr

variable {ι α : Type}

/-- Following links from `start` visits exactly the listed nodes and stops at `finish`. -/
def Segment (link : Cell ι α → Option α) : Option α → List α → Option α → Prop
  | start, [], finish => start = finish
  | start, node :: rest, finish =>
    start = some node ∧ Segment link (link (.node node)) rest finish

def Chain (link : Cell ι α → Option α) (cell : Cell ι α) (nodes : List α) : Prop :=
  Segment link (link cell) nodes none

/-- The cell reached after walking over some nodes that lie behind a cell. -/
def endCell : Cell ι α → List α → Cell ι α
  | cell, [] => cell
  | _, node :: rest => endCell (.node node) rest

namespace Segment

variable {link : Cell ι α → Option α} {start finish : Option α} {nodes front back : List α}

@[simp]
theorem nil_iff : Segment link start [] finish ↔ start = finish := Iff.rfl

@[simp]
theorem cons_iff : Segment link start (node :: nodes) finish ↔
      start = some node ∧ Segment link (link (.node node)) nodes finish := Iff.rfl

theorem append_iff : Segment link start (front ++ back) finish ↔
      ∃ point, Segment link start front point ∧ Segment link point back finish := by
  induction front generalizing start with
  | nil => simp
  | cons node rest ih => simp [ih, and_assoc]

theorem append (first : Segment link start front middle)
    (second : Segment link middle back finish) : Segment link start (front ++ back) finish :=
  append_iff.mpr ⟨middle, first, second⟩

/-- The links decide which nodes are visited before the end of the list. -/
theorem unique (first : Segment link start nodes none)
    (second : Segment link start other none) : nodes = other := by
  induction nodes generalizing start other with
  | nil =>
    cases other with
    | nil => rfl
    | cons node rest =>
      simp only [nil_iff] at first
      simp [first] at second
  | cons node rest ih =>
    obtain ⟨startEq, tail⟩ := cons_iff.mp first
    subst startEq
    cases other with
    | nil => simp at second
    | cons node' rest' =>
      obtain ⟨nodeEq, tail'⟩ := cons_iff.mp second
      cases some.inj nodeEq
      rw [ih tail tail']

theorem congr {link' : Cell ι α → Option α}
    (agree : ∀ node ∈ nodes, link' (.node node) = link (.node node))
    (segment : Segment link start nodes finish) : Segment link' start nodes finish := by
  induction nodes generalizing start with
  | nil => exact segment
  | cons node rest ih =>
    obtain ⟨startEq, tail⟩ := cons_iff.mp segment
    refine cons_iff.mpr ⟨startEq, ?_⟩
    rw [agree node (by simp)]
    exact ih (fun other mem => agree other (by simp [mem])) tail

theorem split_mem (segment : Segment link start nodes finish) (mem : node ∈ nodes) :
    ∃ front back, nodes = front ++ node :: back ∧ Segment link start front (some node) ∧
      Segment link (link (.node node)) back finish := by
  obtain ⟨front, back, rfl⟩ := append_of_mem mem
  obtain ⟨point, first, second⟩ := append_iff.mp segment
  obtain ⟨pointEq, tail⟩ := cons_iff.mp second
  exact ⟨front, back, rfl, pointEq ▸ first, tail⟩

/-- A shorter walk from the same point is a front part of the whole list. -/
theorem cancel (part : Segment link start nodes middle) (all : Segment link start whole none) :
    ∃ rest, whole = nodes ++ rest ∧ Segment link middle rest none := by
  induction nodes generalizing start whole with
  | nil => exact ⟨whole, rfl, nil_iff.mp part ▸ all⟩
  | cons node nodes ih =>
    obtain ⟨startEq, tail⟩ := cons_iff.mp part
    subst startEq
    cases whole with
    | nil => simp at all
    | cons node' whole' =>
      obtain ⟨nodeEq, tail'⟩ := cons_iff.mp all
      cases some.inj nodeEq
      obtain ⟨rest, rfl, behind⟩ := ih tail tail'
      exact ⟨rest, rfl, behind⟩

end Segment

namespace Chain

variable {link : Cell ι α → Option α} {cell : Cell ι α} {nodes front back : List α}

theorem unique (first : Chain link cell nodes) (second : Chain link cell other) : nodes = other :=
  Segment.unique first second

/-- The nodes behind a cell end with the nodes behind any cell that is passed. -/
theorem append_iff : Chain link cell (front ++ back) ↔
      Segment link (link cell) front (link (endCell cell front)) ∧
        Chain link (endCell cell front) back := by
  induction front generalizing cell with
  | nil => simp [endCell]
  | cons node rest ih =>
    have step : Chain link (.node node) (rest ++ back) ↔ _ := ih
    simp only [Chain] at step ⊢
    simp [endCell, step, and_assoc]

theorem endCell_cases (cell : Cell ι α) (front : List α) :
    (front = [] ∧ endCell cell front = cell) ∨
      ∃ init last, front = init ++ [last] ∧ endCell cell front = .node last := by
  induction front generalizing cell with
  | nil => exact .inl ⟨rfl, rfl⟩
  | cons node rest ih =>
    right
    rcases ih (.node node) with ⟨rfl, hend⟩ | ⟨init, last, rfl, hend⟩
    · exact ⟨[], node, rfl, hend⟩
    · exact ⟨node :: init, last, rfl, hend⟩

theorem endCell_snoc (cell : Cell ι α) (front : List α) (last : α) :
    endCell cell (front ++ [last]) = .node last := by
  induction front generalizing cell with
  | nil => rfl
  | cons node rest ih => exact ih _

variable [DecidableEq ι] [DecidableEq α]

theorem update_off (chain : Chain link cell nodes)
    (cellOff : cell ≠ other) (off : ∀ node ∈ nodes, other ≠ .node node) :
    Chain (update link other value) cell nodes := by
  unfold Chain
  rw [update_of_ne cellOff]
  refine Segment.congr (fun node mem => ?_) chain
  rw [update_of_ne (fun same => off node mem same.symm)]

/-- A write to a passed cell keeps the front and replaces everything behind it. -/
theorem update_endCell {tail : List α}
    (chain : Chain link (.head i) (front ++ back)) (frontNodup : front.Nodup)
    (tailChain : Segment link value tail none) (disjoint : ∀ node ∈ tail, node ∉ front) :
    Chain (update link (endCell (.head i) front) value) (.head i) (front ++ tail) := by
  have tailOff : ∀ node ∈ tail, (Cell.node node : Cell ι α) ≠ endCell (.head i) front := by
    intro node mem same
    rcases endCell_cases (Cell.head i : Cell ι α) front with ⟨-, hend⟩ | ⟨init, last, hfront, hend⟩
    · rw [hend] at same
      cases same
    · rw [hend] at same
      cases same
      exact disjoint node mem (by simp [hfront])
  have newTail : Segment (update link (endCell (.head i) front) value) value tail none :=
    Segment.congr (fun node mem => update_of_ne (tailOff node mem) _ _) tailChain
  rw [append_iff]
  refine ⟨?_, by unfold Chain; rw [update_self]; exact newTail⟩
  obtain ⟨first, -⟩ := append_iff.mp chain
  rcases endCell_cases (Cell.head i : Cell ι α) front with ⟨hnil, hend⟩ | ⟨init, last, hfront, hend⟩
  · subst hnil
    simp [endCell]
  · rw [hend] at first ⊢
    subst hfront
    have lastOff : last ∉ init := by
      rw [nodup_append] at frontNodup
      exact fun mem => frontNodup.2.2 last mem last (by simp) rfl
    obtain ⟨point, toLast, atLast⟩ := Segment.append_iff.mp first
    obtain ⟨pointEq, -⟩ := Segment.cons_iff.mp atLast
    refine Segment.append_iff.mpr ⟨point, Segment.congr (fun node mem => ?_) toLast, ?_⟩
    · refine update_of_ne (fun same => lastOff ?_) _ _
      cases same
      exact mem
    · exact Segment.cons_iff.mpr ⟨pointEq, by simp⟩

end Chain

end PgAqp.Library
