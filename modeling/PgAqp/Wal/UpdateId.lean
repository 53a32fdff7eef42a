import PgAqp.Library.Run
import PgAqp.Wal.HalfDead
import PgAqp.Wal.SplitReplay

/-!
# The update ids of an internal page

An inserter trusts the offset of a pivot in its stack as long as the page has the update id
that it has seen there.
-/

namespace PgAqp.Wal

open Library Abtree List Option

/-- An internal page, and what inserters have seen of it. -/
structure Watched where
  page : Page
  seen : List Page

inductive PageEvent where
  /-- An inserter caches the id, with the offset of a pivot. -/
  | look
  | insert (itup : IndexTuple) (newitemoff : Nat) (newagg : Bytes)
  | split (args : SplitArgs)
  /-- The downlink of a child is taken out. -/
  | delete (args : HalfDeadArgs)

def Watched.id (s : Watched) : UInt16 := s.page.special.lastUpdateId

/-- The left page of a split is made anew, and a deletion does not set the id. -/
def watch (info : AggInfo) (s : Watched) (event : PageEvent) : Option Watched :=
  if s.page.isLeaf then none
  else
    match event with
    | .look => some { s with seen := s.page :: s.seen }
    | .insert itup newitemoff newagg =>
      (insertonpg info s.page none itup newitemoff 0 newagg).map fun res =>
        { s with page := res.page }
    | .split args => (split { args with page := s.page }).map fun res =>
        { s with page := res.1.left }
    | .delete args => { args with parent := s.page : HalfDeadArgs }.newParent.map fun page =>
        { s with page := page }

/-- The id after a change. -/
def PageEvent.stored (id : UInt16) : PageEvent → Option UInt16
  | .look => none
  | .insert .. => some (advanceLastUpdateId id)
  | .split _ => some 1
  | .delete _ => some id

def PageEvent.renews (id : UInt16) : PageEvent → Bool
  | .look => true
  | .insert .. => id != 65535
  | .split _ => id != 1
  | .delete _ => false

/-- A change gives the page an id that no inserter has in its stack. -/
def Renews (s : Watched) (event : PageEvent) : Prop :=
  event.renews s.id = true ∧
    ∀ old ∈ s.seen, event.stored s.id ≠ some old.special.lastUpdateId
  deriving Decidable

/-- A page with an id that was seen has the pivots that were seen. -/
def Watched.Trusted (s : Watched) : Prop :=
  ∀ old ∈ s.seen, old.special.lastUpdateId = s.id → s.page.items = old.items
  deriving Decidable

theorem insertonpg_id {info : AggInfo} {page : Page} (inner : page.isLeaf = false)
    (done : insertonpg info page child itup newitemoff 0 newagg = some inserted) :
    inserted.page.special.lastUpdateId = advanceLastUpdateId page.special.lastUpdateId := by
  obtain ⟨-, done⟩ := ite_none_left_eq_some.mp done
  simp only [Option.pure_def, bind_eq_bind, bind_eq_some_iff, some.injEq] at done
  obtain ⟨prepared, prepare, updated, update, added, add, rfl⟩ := done
  cases prepare
  have special : added.special = page.special := by
    rw [Page.addItem_special add]
    simp only [updateLeftPivot, replacePosting, inner, Bool.false_eq_true, if_false,
      Option.pure_def, bind_eq_bind, bind_eq_some_iff, some.injEq] at update
    obtain ⟨_, -, _, -, _, -, _, -, rfl⟩ := update
    rfl
  rw [← special, advancePage, if_neg]
  rw [Page.isLeaf, special]
  exact Bool.eq_false_iff.mp inner

theorem watch_stored {next} (done : watch info s event = some next) :
    (event.stored s.id = none ∧ next = ⟨s.page, s.page :: s.seen⟩) ∨
      (event.stored s.id = some next.id ∧ next.seen = s.seen) := by
  obtain ⟨inner, done⟩ := ite_none_left_eq_some.mp done
  have inner := Bool.eq_false_iff.mpr inner
  cases event with
  | look => exact .inl ⟨rfl, (some.inj done).symm⟩
  | insert itup newitemoff newagg =>
    obtain ⟨inserted, isInserted, rfl⟩ := map_eq_some_iff.mp done
    exact .inr ⟨congrArg some (insertonpg_id inner isInserted).symm, rfl⟩
  | split args =>
    obtain ⟨res, isSplit, rfl⟩ := map_eq_some_iff.mp done
    obtain ⟨_, _, _, _, -, -, -, -, left, -⟩ := SplitArgs.split_inv isSplit
    refine .inr ⟨congrArg some ?_, rfl⟩
    rw [Watched.id, left, SplitArgs.leftSpecial, if_neg (by simp [inner])]
    rfl
  | delete args =>
    obtain ⟨page, isDeleted, rfl⟩ := map_eq_some_iff.mp done
    obtain ⟨_, _, _, _, -, -, -, -, -, -, deleted⟩ := HalfDeadArgs.newParent_inv isDeleted
    obtain ⟨old, -, rfl⟩ := map_eq_some_iff.mp deleted
    exact .inr ⟨rfl, rfl⟩

theorem toNat_advanceLastUpdateId (id : UInt16) :
    (advanceLastUpdateId id).toNat = (id.toNat + 1) % 65536 := by
  rw [advanceLastUpdateId, if_neg (Nat.succ_ne_zero _), UInt16.toNat_ofNat']

theorem advanceLastUpdateId_eq_zero {id : UInt16} : advanceLastUpdateId id = 0 ↔ id = 65535 := by
  have below := id.toNat_lt
  rw [← UInt16.toNat_inj, ← UInt16.toNat_inj, toNat_advanceLastUpdateId]
  change (id.toNat + 1) % 65536 = 0 ↔ id.toNat = 65535
  omega

theorem Watched.Trusted.next (trusted : s.Trusted) (renews : Renews s event)
    (stepped : watch info s event = some final) : final.Trusted := by
  rcases watch_stored stepped with ⟨-, rfl⟩ | ⟨stored, same⟩
  · exact forall_mem_cons.mpr ⟨fun _ => rfl, trusted⟩
  · intro old mem seen
    exact absurd (stored.trans (congrArg some seen.symm)) (renews.2 old (same ▸ mem))

/-- While every change renews the id, inserters may trust it, and a change stores an id that is
valid and not the one before exactly if it renews it. -/
theorem ids_trusted {info : AggInfo} {s final : Watched} {schedule : List PageEvent}
    (start : s.seen = []) (meets : Run.Meets (watch info) Renews s schedule)
    (reached : Run.run (watch info) s schedule = some final) :
    final.Trusted ∧ ∀ event next, (event.stored final.id).isSome →
      watch info final event = some next →
        ((next.id ≠ 0 ∧ next.id ≠ final.id) ↔ event.renews final.id = true) := by
  constructor
  · exact Run.invariant Watched.Trusted (fun trusted renews stepped => trusted.next renews stepped)
      (by simp [Watched.Trusted, start]) meets reached
  · intro event next changes stepped
    rcases watch_stored stepped with ⟨none, -⟩ | ⟨stored, -⟩
    · rw [none] at changes
      cases changes
    · cases event with
      | look => cases stored
      | insert itup newitemoff newagg =>
        rw [← Option.some.inj stored, PageEvent.renews, bne_iff_ne, Ne, advanceLastUpdateId_eq_zero]
        exact and_iff_left (advanceLastUpdateId_ne final.id)
      | split args =>
        rw [← Option.some.inj stored, PageEvent.renews, bne_iff_ne, ne_comm (a := final.id)]
        exact and_iff_right (by decide)
      | delete args => simp [← Option.some.inj stored, PageEvent.renews]

def PageEvent.isInsertion : PageEvent → Bool
  | .look => true
  | .insert .. => true
  | _ => false

/-- Ids that only count insertions grow until they wrap around. -/
theorem meets_renews {info : AggInfo} {s : Watched} {schedule : List PageEvent}
    (insertions : ∀ event ∈ schedule, event.isInsertion)
    (few : s.id.toNat + schedule.length ≤ 65535)
    (older : ∀ old ∈ s.seen, old.special.lastUpdateId.toNat ≤ s.id.toNat) :
    Run.Meets (watch info) Renews s schedule := by
  induction schedule generalizing s with
  | nil => trivial
  | cons event rest ih =>
    obtain ⟨isInsertion, others⟩ := forall_mem_cons.mp insertions
    rw [length_cons] at few
    cases event with
    | look =>
      refine ⟨⟨rfl, nofun⟩, ?_⟩
      split
      · trivial
      next stepped =>
        obtain ⟨-, rfl⟩ | ⟨stored, -⟩ := watch_stored stepped
        · exact ih others (by exact Nat.le_of_succ_le few)
            (forall_mem_cons.mpr ⟨Nat.le_refl _, older⟩)
        · cases stored
    | insert itup newitemoff newagg =>
      have grows : (advanceLastUpdateId s.id).toNat = s.id.toNat + 1 := by
        rw [toNat_advanceLastUpdateId, Nat.mod_eq_of_lt (by omega)]
      refine ⟨⟨bne_iff_ne.mpr fun isLast => ?_, fun old mem same => ?_⟩, ?_⟩
      · rw [isLast] at few
        exact absurd few (by simp)
      · have seen := older old mem
        rw [← some.inj same, grows] at seen
        omega
      · split
        · trivial
        next stepped =>
          obtain ⟨none, -⟩ | ⟨stored, same⟩ := watch_stored stepped
          · cases none
          · rw [some.inj stored] at grows
            refine ih others (by omega) fun old mem => ?_
            have seen := older old (same ▸ mem)
            omega
    | split args => cases isInsertion
    | delete args => cases isInsertion

/-- Inserters may trust the ids of a page that is only inserted into, up to the wraparound. -/
theorem insertions_trusted {info : AggInfo} {s final : Watched} {schedule : List PageEvent}
    (start : s.seen = []) (insertions : ∀ event ∈ schedule, event.isInsertion)
    (few : s.id.toNat + schedule.length ≤ 65535)
    (reached : Run.run (watch info) s schedule = some final) : final.Trusted :=
  Run.invariant Watched.Trusted (fun trusted renews stepped => trusted.next renews stepped)
    (by simp [Watched.Trusted, start]) (meets_renews insertions few (by simp [start])) reached

def cachedInsert : List PageEvent :=
  [.look, .insert (pivot 2 (Bytes.ofNat 8 9) 2) 2 (Bytes.ofNat 8 3)]

theorem cachedInsert_trusted :
    (Run.last (watch (bigintAgg false)) ⟨parentPage, []⟩ cachedInsert).id = 2 ∧
      (Run.last (watch (bigintAgg false)) ⟨parentPage, []⟩ cachedInsert).Trusted :=
  ⟨by decide +kernel, (ids_trusted rfl (by decide +kernel) (Run.run_last (by decide +kernel))).1⟩

/-- The split of a page with id 1 leaves id 1, and the downlink that was seen at offset 2 is not
there any more. -/
theorem split_reuses_id :
    ((Run.run (watch (bigintAgg false)) ⟨rightmostSplit.page.withUpdateId 1, []⟩
      [.look, .split rightmostSplit]).map fun s => (s.id, (s.page.item 2).map IndexTuple.downLink,
        s.seen.map fun old => (old.special.lastUpdateId, (old.item 2).map IndexTuple.downLink))) =
      some (1, some 1, [(1, some 2)]) := by
  decide +kernel

end PgAqp.Wal
