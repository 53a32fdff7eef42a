import Mathlib.Data.List.Nodup

/-!
# Ledgers of numbered resources

Resources are handed out in order.  Each one that was handed out is held at
exactly one place or has been given back once.  A ledger in this condition
stays so when a resource moves between places, is given back, or a new one is
handed out.
-/

namespace PgAqp.Library

open List

/-- Every resource below `bound` is held at exactly one place or was given back once. -/
structure Balanced {κ : Type} (holds : κ → Nat → Prop) (spent : List Nat) (bound : Nat) :
    Prop where
  unique : ∀ {place place' item}, holds place item → holds place' item → place = place'
  live : ∀ {place item}, holds place item → item ∉ spent
  once : spent.Nodup
  accounted : ∀ item, item < bound ↔ (∃ place, holds place item) ∨ item ∈ spent

namespace Balanced

variable {κ : Type} {holds holds' : κ → Nat → Prop} {spent : List Nat} {bound item : Nat}

theorem empty (nothing : ∀ place item, ¬ holds place item) : Balanced holds [] 0 where
  unique held := absurd held (nothing _ _)
  live held := absurd held (nothing _ _)
  once := nodup_nil
  accounted item := by simp [nothing]

variable (balanced : Balanced holds spent bound)
include balanced

theorem congr
    (same : ∀ place item, holds' place item ↔ holds place item) : Balanced holds' spent bound where
  unique first second := balanced.unique ((same _ _).mp first) ((same _ _).mp second)
  live held := balanced.live ((same _ _).mp held)
  once := balanced.once
  accounted item := by
    rw [balanced.accounted]
    simp only [same]

theorem move (place dest : κ) (held : holds place item)
    (moved : ∀ k a, holds' k a ↔ holds k a ∧ a ≠ item ∨ k = dest ∧ a = item) :
    Balanced holds' spent bound where
  unique {first second other} firstHolds secondHolds := by
    rcases (moved _ _).mp firstHolds with ⟨pre, diff⟩ | ⟨rfl, rfl⟩
    · rcases (moved _ _).mp secondHolds with ⟨pre', -⟩ | ⟨-, same⟩
      · exact balanced.unique pre pre'
      · exact absurd same diff
    · rcases (moved _ _).mp secondHolds with ⟨-, diff⟩ | ⟨rfl, -⟩
      · exact absurd rfl diff
      · rfl
  live {other item'} holdsNow := by
    rcases (moved _ _).mp holdsNow with ⟨pre, -⟩ | ⟨-, rfl⟩
    · exact balanced.live pre
    · exact balanced.live held
  once := balanced.once
  accounted other := by
    rw [balanced.accounted]
    refine or_congr_left ?_
    constructor
    · rintro ⟨k, pre⟩
      by_cases same : other = item
      · exact ⟨dest, (moved _ _).mpr (.inr ⟨rfl, same⟩)⟩
      · exact ⟨k, (moved _ _).mpr (.inl ⟨pre, same⟩)⟩
    · rintro ⟨k, now⟩
      rcases (moved _ _).mp now with ⟨pre, -⟩ | ⟨-, rfl⟩
      · exact ⟨k, pre⟩
      · exact ⟨place, held⟩

theorem spend (place : κ) (held : holds place item)
    (moved : ∀ k a, holds' k a ↔ holds k a ∧ a ≠ item) : Balanced holds' (item :: spent) bound where
  unique first second := balanced.unique ((moved _ _).mp first).1 ((moved _ _).mp second).1
  live holdsNow mem := by
    obtain ⟨pre, diff⟩ := (moved _ _).mp holdsNow
    rcases mem_cons.mp mem with same | inSpent
    · exact diff same
    · exact balanced.live pre inSpent
  once := nodup_cons.mpr ⟨balanced.live held, balanced.once⟩
  accounted other := by
    rw [balanced.accounted]
    by_cases same : other = item
    · subst same
      exact iff_of_true (.inl ⟨place, held⟩) (.inr (by simp))
    · simp [moved, same]

theorem allocate (dest : κ) (moved : ∀ k a, holds' k a ↔ holds k a ∨ k = dest ∧ a = bound) :
    Balanced holds' spent (bound + 1) := by
  have below : ∀ {k a}, holds k a → a < bound := fun pre =>
    (balanced.accounted _).mpr (.inl ⟨_, pre⟩)
  constructor
  · intro first second other firstHolds secondHolds
    rcases (moved _ _).mp firstHolds with pre | ⟨rfl, rfl⟩
    · rcases (moved _ _).mp secondHolds with pre' | ⟨-, rfl⟩
      · exact balanced.unique pre pre'
      · exact absurd (below pre) (Nat.lt_irrefl _)
    · rcases (moved _ _).mp secondHolds with pre' | ⟨rfl, -⟩
      · exact absurd (below pre') (Nat.lt_irrefl _)
      · rfl
  · intro k other holdsNow inSpent
    rcases (moved _ _).mp holdsNow with pre | ⟨-, rfl⟩
    · exact balanced.live pre inSpent
    · exact absurd ((balanced.accounted _).mpr (.inr inSpent)) (Nat.lt_irrefl _)
  · exact balanced.once
  · intro other
    rw [Nat.lt_succ_iff_lt_or_eq, balanced.accounted]
    constructor
    · rintro ((⟨k, pre⟩ | inSpent) | rfl)
      · exact .inl ⟨k, (moved _ _).mpr (.inl pre)⟩
      · exact .inr inSpent
      · exact .inl ⟨dest, (moved _ _).mpr (.inr ⟨rfl, rfl⟩)⟩
    · rintro (⟨k, now⟩ | inSpent)
      · rcases (moved _ _).mp now with pre | ⟨-, same⟩
        · exact .inl (.inl ⟨k, pre⟩)
        · exact .inr same
      · exact .inl (.inr inSpent)

end Balanced

def Exclusive {κ α : Type} (holds : κ → α → Prop) : Prop :=
  ∀ ⦃place place' item⦄, holds place item → holds place' item → place = place'

structure Relocates {κ α : Type} (holds holds' : κ → α → Prop) (moved kept : α → Prop)
    (dest : κ) : Prop where
  among : ∀ {item}, kept item → moved item
  after : ∀ place item, holds' place item ↔ holds place item ∧ ¬ moved item ∨ place = dest ∧ kept item

namespace Relocates

variable {κ α : Type} {holds holds' : κ → α → Prop} {dest : κ}

theorem exclusive (relocates : Relocates holds holds' moved kept dest)
    (pre : Exclusive holds) : Exclusive holds' := by
  intro place place' item first second
  rcases (relocates.after _ _).mp first with ⟨held, stays⟩ | ⟨rfl, isKept⟩
  · rcases (relocates.after _ _).mp second with ⟨held', -⟩ | ⟨-, isKept⟩
    · exact pre held held'
    · exact absurd (relocates.among isKept) stays
  · rcases (relocates.after _ _).mp second with ⟨-, stays⟩ | ⟨rfl, -⟩
    · exact absurd (relocates.among isKept) stays
    · rfl

theorem single (pre : Exclusive holds) (held : holds place item)
    (leaves : ∀ other, holds' place other → holds place other ∧ other ≠ item)
    (stays : ∀ other, holds place other → other ≠ item → holds' place other)
    (arrives : ∀ other, holds' dest other ↔ holds dest other ∨ other = item)
    (others : ∀ k, k ≠ place → k ≠ dest → ∀ other, holds' k other ↔ holds k other) :
    Relocates holds holds' (· = item) (· = item) dest where
  among := id
  after k other := by
    by_cases isDest : k = dest
    · subst isDest
      by_cases same : other = item
      · simp [arrives, same]
      · simp [arrives, same]
    · by_cases isPlace : k = place
      · subst isPlace
        simp only [isDest, false_and, or_false]
        exact ⟨leaves other, fun both => stays other both.1 both.2⟩
      · simp only [others k isPlace isDest, isDest, false_and, or_false]
        refine ⟨fun isHeld => ⟨isHeld, ?_⟩, And.left⟩
        rintro rfl
        exact isPlace (pre isHeld held)

theorem fresh (unheld : ∀ place, ¬ holds place item)
    (arrives : ∀ other, holds' dest other ↔ holds dest other ∨ other = item)
    (others : ∀ k, k ≠ dest → ∀ other, holds' k other ↔ holds k other) :
    Relocates holds holds' (· = item) (· = item) dest where
  among := id
  after k other := by
    have diff : ∀ {k other}, holds k other → other ≠ item := by
      rintro k other isHeld rfl
      exact unheld k isHeld
    by_cases isDest : k = dest
    · subst isDest
      rw [arrives]
      exact ⟨Or.imp (fun isHeld => ⟨isHeld, diff isHeld⟩) fun same => ⟨rfl, same⟩,
        Or.imp And.left And.right⟩
    · simp only [others k isDest, isDest, false_and, or_false]
      exact ⟨fun isHeld => ⟨isHeld, diff isHeld⟩, And.left⟩

theorem held (relocates : Relocates holds holds' moved kept dest)
    (pre : ∃ place, holds place item) (notLost : moved item → kept item) :
    ∃ place, holds' place item := by
  obtain ⟨place, isHeld⟩ := pre
  by_cases leaves : moved item
  · exact ⟨dest, (relocates.after _ _).mpr (.inr ⟨rfl, notLost leaves⟩)⟩
  · exact ⟨place, (relocates.after _ _).mpr (.inl ⟨isHeld, leaves⟩)⟩

end Relocates

end PgAqp.Library
