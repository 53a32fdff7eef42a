import PgAqp.Library.Run
import PgAqp.Abtree.Dedup

/-!
# The key part of a leaf tuple

Deduplication makes plain tuples a posting list, and vacuum takes rows out again until one
is left.  A posting list takes all of a plain base tuple for its key, with the aggregate and
the transaction id, so the key part gets larger each time.
-/

namespace PgAqp.Abtree

open Library List Option IndexTuple

/-- The size of the key with the header, as `_abt_dedup_start_pending` takes it. -/
def IndexTuple.keyPart (info : AggInfo) (tup : IndexTuple) : Int :=
  if tup.isPosting then tup.postingOffset
  else tup.size - info.extraSpaceForNonpivotTuple

inductive ListStep
  /-- Deduplication makes a list of several rows with the tuple as its base. -/
  | merge (saveExtra : Bool) (parts : LeafParts)
  /-- Vacuum takes some rows out of the list, but not all. -/
  | vacuum (deletetids : List Nat)
  deriving DecidableEq, Repr

def listStep (info : AggInfo) (tup : IndexTuple) : ListStep → Option IndexTuple
  | .merge saveExtra parts =>
    if 1 < parts.nhtids ∧ parts.nhtids < 4096 then
      Pending.final info saveExtra ⟨tup, 0, 0, parts, 2⟩
    else none
  | .vacuum deletetids =>
    if tup.isPosting ∧ deletetids.length < tup.nPosting then
      updatePosting info tup deletetids
    else none

/-- The key part stays as large, and a plain tuple is again as large as the first one, with the
same key. -/
def KeepsKey (info : AggInfo) (tup final : IndexTuple) : Prop :=
  final.keyPart info = tup.keyPart info ∧
    (final.isPosting = false → final.size = tup.size ∧
      final.data.take (final.keyPart info - 8).toNat = tup.data.take (tup.keyPart info - 8).toNat)

variable {info : AggInfo} {tup next final : IndexTuple}

theorem keyPart_of_setPosting (few : nhtids < 4096) (small : keysize < 8192)
    (tid : next.tTid = (tup.setPosting nhtids keysize).tTid)
    (alt : next.altTid = (tup.setPosting nhtids keysize).altTid) :
    next.keyPart info = keysize := by
  have posting : next.isPosting := by
    rw [isPosting, tid, alt]
    exact (setPosting_count tup few keysize).1
  rw [keyPart, if_pos posting, postingOffset, tid]
  exact congrArg _ (UInt32.toNat_ofNat_of_lt' (small.trans (by decide)))

theorem plain_keyPart (plain : tup.altTid = false) :
    tup.keyPart info = tup.size - info.extraSpaceForNonpivotTuple := by
  rw [keyPart, isPosting, plain]
  rfl

theorem copyRow_header (copied : copyRow info orig nhtids i ui tup = some next) :
    next.data.length = tup.data.length ∧ next.altTid = tup.altTid ∧
      (1 < nhtids → next.tTid = tup.tTid) := by
  simp only [copyRow, bind_eq_bind, bind_eq_some_iff] at copied
  obtain ⟨tid, -, placed, place, withAgg, copyAggs, xmin, -, st⟩ := copied
  have stored := write_sameLayout st
  have agg : withAgg.SameLayout placed := by
    unfold copyAgg at copyAggs
    split at copyAggs
    · cases copyAggs
      exact ⟨rfl, rfl, rfl, rfl, rfl⟩
    · obtain ⟨value, -, written⟩ := bind_eq_some_iff.mp copyAggs
      exact write_sameLayout written
  have both := stored.trans agg
  rw [both.length, both.altTid, both.tTid]
  unfold putHeapTid at place
  split at place
  · have layout := write_sameLayout place
    exact ⟨layout.length, layout.altTid, fun _ => layout.tTid⟩
  next single =>
    split at place
    · cases place
      exact ⟨rfl, rfl, fun many => absurd many single⟩
    · cases place

theorem copyRows_header {count : Nat}
    (copied : copyRows info orig nhtids count i ui deletetids tup = some final) :
    final.data.length = tup.data.length ∧ final.altTid = tup.altTid ∧
      (1 < nhtids → final.tTid = tup.tTid) := by
  induction count generalizing i ui deletetids tup with
  | zero =>
    cases copied
    exact ⟨rfl, rfl, fun _ => rfl⟩
  | succ count ih =>
    unfold copyRows at copied
    split at copied
    · exact ih copied
    · obtain ⟨next, row, rest⟩ := bind_eq_some_iff.mp copied
      have first := copyRow_header row
      have later := ih rest
      exact ⟨later.1.trans first.1, later.2.1.trans first.2.1,
        fun many => (later.2.2 many).trans (first.2.2 many)⟩

theorem updatePosting_keyPart (updated : updatePosting info orig deletetids = some final) :
    final.keyPart info = orig.postingOffset := by
  have few := orig.nPosting_lt
  obtain ⟨⟨header, key, small⟩, copied⟩ := ite_none_right_eq_some.mp updated
  obtain ⟨length, alt, tid⟩ := copyRows_header copied
  by_cases many : 1 < orig.nPosting - deletetids.length
  · rw [if_pos many] at alt tid
    exact keyPart_of_setPosting (by omega) (by omega) (tid many) alt
  · rw [if_neg many] at length alt
    rw [plain_keyPart alt, size, length]
    simp only [length_append, length_take, length_replicate]
    rw [postingSize, if_neg many] at small key ⊢
    omega

theorem final_keyPart {pending : Pending} (many : 1 < pending.parts.nhtids)
    (few : pending.parts.nhtids < 4096) (made : pending.final info saveExtra = some final) :
    final.keyPart info =
      (if pending.base.isPosting then pending.base.postingOffset else pending.base.size : Nat) := by
  simp only [Pending.final, bind_eq_bind, bind_eq_some_iff] at made
  obtain ⟨formed, form, withAggs, aggs, xmins⟩ := made
  have first := writeIf_sameHeader aggs
  have second := writeIf_sameHeader xmins
  unfold formPosting at form
  simp only [many, if_true] at form
  obtain ⟨sizes, written⟩ := ite_none_right_eq_some.mp form
  have layout := write_sameLayout written
  exact keyPart_of_setPosting few (by omega) ((second.1.trans first.1).trans layout.tTid)
    ((second.2.trans first.2).trans layout.altTid)

/-- The key part grows by the space behind a plain tuple if that is the base of a list. -/
theorem listStep_keyPart (stepped : listStep info tup step = some next) :
    next.keyPart info = tup.keyPart info +
      if tup.isPosting then 0 else info.extraSpaceForNonpivotTuple := by
  cases step with
  | merge saveExtra parts =>
    obtain ⟨⟨many, few⟩, made⟩ := ite_none_right_eq_some.mp stepped
    rw [final_keyPart many few made, keyPart]
    dsimp only
    split <;> omega
  | vacuum deletetids =>
    obtain ⟨⟨posting, -⟩, updated⟩ := ite_none_right_eq_some.mp stepped
    rw [updatePosting_keyPart updated, keyPart, if_pos posting, if_pos posting]
    omega

/-- A plain tuple is first merged, and what is larger then stays larger. -/
theorem keepsKey_iff_unmerged {steps : List ListStep} (supported : info.Supported)
    (plain : tup.isPosting = false) (reached : Run.run (listStep info) tup steps = some final) :
    KeepsKey info tup final ↔ steps = [] := by
  have positive : 0 < info.extraSpaceForNonpivotTuple := by
    have room := supported.extraSpace
    have stride := supported.stride_bounds
    split at room <;> omega
  cases steps with
  | nil =>
    cases reached
    exact ⟨fun _ => rfl, fun _ => ⟨rfl, fun _ => ⟨rfl, rfl⟩⟩⟩
  | cons step rest =>
    obtain ⟨first, stepped, later⟩ := Run.run_cons_eq_some.mp reached
    have grown : tup.keyPart info < final.keyPart info := by
      refine Run.invariant (tup.keyPart info < ·.keyPart info) ?_ ?_
        (Run.meets_unguarded _ first rest) later
      · intro s next label larger _ stepped
        rw [listStep_keyPart stepped]
        split <;> omega
      · rw [listStep_keyPart stepped, if_neg (by simp [plain])]
        omega
    exact ⟨fun kept => absurd kept.1 (Int.ne_of_gt grown), nofun⟩

/-- A tuple with a key of eight bytes and an aggregate of type `int8`. -/
def shortTuple : IndexTuple := ⟨⟨0, 1⟩, false, false, false, replicate 24 7⟩

/-- It is merged with another row, which vacuum then removes. -/
def mergedAndVacuumed : List ListStep :=
  [.merge true ⟨replicate 12 1, replicate 16 2, replicate 8 3, 2⟩, .vacuum [1]]

theorem shortTuple_grows :
    ∃ final, Run.run (listStep ⟨true, 8, 8⟩) shortTuple mergedAndVacuumed = some final ∧
      final.isPosting = false ∧ shortTuple.size = 32 ∧ final.size = 48 ∧
      ¬ KeepsKey ⟨true, 8, 8⟩ shortTuple final := by
  refine ⟨_, rfl, by decide +kernel, by decide, by decide +kernel, fun kept => ?_⟩
  exact absurd kept.1 (by decide +kernel)

theorem shortTuple_kept_iff :
    ∃ final, Run.run (listStep ⟨true, 8, 8⟩) shortTuple mergedAndVacuumed = some final ∧
      (KeepsKey ⟨true, 8, 8⟩ shortTuple final ↔ mergedAndVacuumed = []) :=
  have reached : ∃ final,
      Run.run (listStep ⟨true, 8, 8⟩) shortTuple mergedAndVacuumed = some final := ⟨_, rfl⟩
  reached.imp fun _ reached => ⟨reached, keepsKey_iff_unmerged (by decide) (by decide) reached⟩

end PgAqp.Abtree
