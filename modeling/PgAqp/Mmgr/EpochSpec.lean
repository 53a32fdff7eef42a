import Mathlib.Logic.Relation
import PgAqp.Mmgr.EpochSafety

/-!
# What the epoch manager provides

Its users see an entry published, released, an epoch ended, and the safe epoch
moved on, each in one step.
-/

namespace PgAqp.Mmgr

open Library Function List Option Relation

structure Epochs where
  entries : Nat
  globalEpoch : Epoch
  safeEpoch : Epoch
  /-- The epoch in which an entry was published, or nothing if it is not in use. -/
  published : Nat → Option Epoch

namespace Epochs

variable (epochs : Epochs)

def publish (e : Nat) : Epochs :=
  { epochs with published := update epochs.published e (some epochs.globalEpoch) }

def release (e : Nat) : Epochs :=
  { epochs with published := update epochs.published e none }

def bump : Epochs := { epochs with globalEpoch := epochs.globalEpoch + 1 }

def advance (epoch : Epoch) : Epochs := { epochs with safeEpoch := epoch }

/-- The epoch has ended, and before every entry in use was published. -/
def ended (epoch : Epoch) : Bool :=
  decide (epoch < epochs.globalEpoch) &&
    (range epochs.entries).all fun e =>
      (epochs.published e).all fun published => decide (epoch < published)

structure Sound : Prop where
  safe : epochs.safeEpoch < epochs.globalEpoch
  published : ∀ {e epoch}, epochs.published e = some epoch →
    e < epochs.entries ∧ epochs.safeEpoch < epoch ∧ epoch ≤ epochs.globalEpoch

inductive Move : Epochs → Epochs → Prop
  | publish {epochs : Epochs} {e : Nat} (below : e < epochs.entries) :
      Move epochs (epochs.publish e)
  | release {epochs : Epochs} (e : Nat) : Move epochs (epochs.release e)
  | bump (epochs : Epochs) : Move epochs epochs.bump
  | advance {epochs : Epochs} {epoch : Epoch} (forward : epochs.safeEpoch ≤ epoch)
      (ended : epochs.ended epoch = true) : Move epochs (epochs.advance epoch)

variable {epochs : Epochs}

theorem Sound.publish (sound : epochs.Sound) (below : e < epochs.entries) :
    (epochs.publish e).Sound where
  safe := sound.safe
  published {other epoch} published := by
    by_cases same : other = e
    · subst same
      have now : epochs.globalEpoch = epoch := by simpa [Epochs.publish] using published
      exact ⟨below, now ▸ sound.safe, Nat.le_of_eq now.symm⟩
    · exact sound.published (by simpa [Epochs.publish, update_of_ne same] using published)

theorem Sound.release (sound : epochs.Sound) (e : Nat) : (epochs.release e).Sound where
  safe := sound.safe
  published {other epoch} published := by
    by_cases same : other = e
    · simp [Epochs.release, same] at published
    · exact sound.published (by simpa [Epochs.release, update_of_ne same] using published)

theorem Sound.bump (sound : epochs.Sound) : epochs.bump.Sound where
  safe := Nat.lt_succ_of_lt sound.safe
  published published :=
    have pre := sound.published published
    ⟨pre.1, pre.2.1, Nat.le_succ_of_le pre.2.2⟩

theorem Sound.advance (sound : epochs.Sound)
    (ended : epochs.ended epoch) : (epochs.advance epoch).Sound := by
  simp only [Epochs.ended, Bool.and_eq_true, decide_eq_true_eq, List.all_eq_true, mem_range]
    at ended
  refine ⟨ended.1, fun {e other} published => ?_⟩
  obtain ⟨below, -, reached⟩ := sound.published published
  have later := ended.2 e below
  have isPublished : epochs.published e = some other := published
  rw [isPublished] at later
  exact ⟨below, of_decide_eq_true later, reached⟩

theorem Move.sound (move : Move epochs epochs') (sound : epochs.Sound) : epochs'.Sound := by
  cases move with
  | publish below => exact sound.publish below
  | release e => exact sound.release e
  | bump => exact sound.bump
  | advance forward ended => exact sound.advance ended

theorem Sound.moves (sound : epochs.Sound) (moves : ReflTransGen Move epochs epochs') :
    epochs'.Sound := by
  induction moves with
  | refl => exact sound
  | tail _ move sound => exact move.sound sound

end Epochs

namespace EpochManager

def epochs (s : EpochManager) : Epochs where
  entries := s.numEpochEntries
  globalEpoch := s.globalEpoch
  safeEpoch := s.safeEpoch
  published e := (s.localEpochs e).map fun _ => s.published e

@[simp]
theorem epochs_setBackend (s : EpochManager) (tid : Tid) (be : EpochBackend) :
    (s.setBackend tid be).epochs = s.epochs := rfl

theorem epochs_publish (s : EpochManager) (e : Nat) (epoch : Epoch) :
    (s.publish e epoch).epochs = s.epochs.publish e := by
  simp only [epochs, publish, Epochs.publish, Epochs.mk.injEq, true_and]
  funext other
  by_cases same : other = e
  · subst same
    simp
  · simp [update_of_ne same]

theorem epochs_free (s : EpochManager) (e : Nat) :
    { s with localEpochs := update s.localEpochs e none }.epochs = s.epochs.release e := by
  simp only [epochs, Epochs.release, Epochs.mk.injEq, true_and]
  exact funext (apply_update (fun e entry => entry.map fun _ => s.published e) s.localEpochs e none)

theorem PcOk.ended {s : EpochManager} (ok : s.PcOk (.scanSwap cur new)) : s.epochs.ended new := by
  simp only [Epochs.ended, Bool.and_eq_true, decide_eq_true_eq, List.all_eq_true, mem_range]
  refine ⟨ok.2.1, fun e below => ?_⟩
  cases inUse : s.localEpochs e with
  | none => simp [epochs, inUse]
  | some epoch =>
    have later : new < s.published e := ok.2.2 e below (by simp [inUse])
    simpa [epochs, inUse] using later

theorem Inv.access_move {s s' : EpochManager} (inv : s.Inv) (tid : Tid)
    (allowed : s.inOrder (s.backends tid).pc) (stepped : s.access tid = some s') :
    s'.epochs = s.epochs ∨ Epochs.Move s.epochs s'.epochs := by
  have ok := inv.pc tid
  unfold EpochManager.access at stepped
  generalize isPc : (s.backends tid).pc = pc at ok allowed stepped
  cases pc
  case acquireSwap e epoch =>
    simp only at stepped
    split at stepped <;> cases stepped
    · left
      unfold EpochManager.tryNext
      split <;> rfl
    · right
      rw [epochs_setBackend, epochs_publish]
      exact .publish ok.1
  case releaseWrite =>
    obtain ⟨e, -, rfl⟩ := map_eq_some_iff.mp stepped
    right
    rw [epochs_setBackend, epochs_free]
    exact .release e
  case refreshWrite epoch =>
    obtain ⟨e, holds, rfl⟩ := map_eq_some_iff.mp stepped
    right
    rw [EpochManager.startScan, EpochManager.goTo, epochs_setBackend, epochs_publish]
    exact .publish (inv.entry holds)
  case bumpSwap epoch =>
    simp only at stepped
    split at stepped <;> cases stepped
    · exact .inr (.bump s.epochs)
    · exact .inl rfl
  case bumpWrite epoch =>
    cases holds : (s.backends tid).entry with
    | none =>
      simp only [holds] at stepped
      cases stepped
      exact .inl rfl
    | some e =>
      simp only [holds] at stepped
      cases stepped
      right
      rw [EpochManager.goTo, epochs_setBackend, epochs_publish]
      exact .publish (inv.entry holds)
  case scanSwap cur new =>
    cases stepped
    split
    next same =>
      have forward : s.safeEpoch ≤ new := by
        rw [raw_inj allowed same]
        exact Nat.le_of_lt ok.1
      exact .inr (.advance forward (PcOk.ended ok))
    · exact .inl rfl
  -- the other accesses leave the epochs alone
  all_goals
    left
    simp only [EpochManager.tryNext] at stepped
    repeat' split at stepped
    all_goals
      first
      | cases stepped
      | obtain ⟨e, -, rfl⟩ := map_eq_some_iff.mp stepped
      try split
    all_goals rfl

end EpochManager

/-- Every step that keeps to the order leaves the epochs alone or is one of their moves. -/
theorem epochNext_refines (inv : s.Inv)
    (allowed : ScansInOrder s label) (stepped : epochNext s label = some s') :
    s'.epochs = s.epochs ∨ Epochs.Move s.epochs s'.epochs := by
  rcases epochNext_cases stepped with rfl | ⟨pc, -, rfl⟩ | ⟨tid, rfl, accessed⟩
  · exact .inl rfl
  · exact .inl rfl
  · exact inv.access_move tid allowed accessed

theorem epochRun_refines (inv : s.Inv) (meets : Run.Meets epochNext ScansInOrder s schedule)
    (reached : Run.run epochNext s schedule = some s') :
    ReflTransGen Epochs.Move s.epochs s'.epochs := by
  refine (Run.invariant (fun s' => s'.Inv ∧ ReflTransGen Epochs.Move s.epochs s'.epochs) ?_
    ⟨inv, .refl⟩ meets reached).2
  intro pre after label ⟨inv, moves⟩ allowed stepped
  refine ⟨epochNext_inv inv allowed stepped, ?_⟩
  rcases epochNext_refines inv allowed stepped with same | move
  · exact same ▸ moves
  · exact moves.tail move

/-- From any moment of a run to any later one the users see only these moves.  Once the epoch of
the earlier moment is safe, no entry is as it was published then. -/
theorem epochs_refined {maxBackends : Nat} {schedule later : List EpochLabel}
    {s s' : EpochManager} (present : 0 < maxBackends)
    (meets : Run.Meets epochNext ScansInOrder (epochShmemInit maxBackends) schedule)
    (reached : Run.run epochNext (epochShmemInit maxBackends) schedule = some s)
    (meetsLater : Run.Meets epochNext ScansInOrder s later)
    (continued : Run.run epochNext s later = some s') :
    ReflTransGen Epochs.Move s.epochs s'.epochs ∧
      (s.globalEpoch ≤ s'.safeEpoch → ∀ {e epoch}, s.epochs.published e = some epoch →
        s'.epochs.published e ≠ some epoch) := by
  have started : (epochShmemInit maxBackends).epochs.Sound := ⟨Nat.zero_lt_one, nofun⟩
  have sound := started.moves (epochRun_refines (epochShmemInit_inv present) meets reached)
  have moves := epochRun_refines (epochRun_inv present meets reached) meetsLater continued
  refine ⟨moves, fun safe e epoch before after => ?_⟩
  have reached : epoch ≤ s.globalEpoch := (sound.published before).2.2
  have ahead : s'.safeEpoch < epoch := ((sound.moves moves).published after).2.1
  exact Nat.not_lt_of_le (Nat.le_trans reached safe) ahead

/-- The epoch in which two backends acquired is safe when one has ended it and the other left. -/
theorem acquired_refined :
    let s := Run.last epochNext (epochShmemInit 2) (acquires 0 ++ acquires 1)
    let s' := Run.last epochNext s (bumps 1 ++ .release 0 :: replicate 5 (.step 0))
    s.globalEpoch ≤ s'.safeEpoch ∧ s.epochs.published 1 = some 1 ∧
      s'.epochs.published 1 ≠ some 1 :=
  ⟨by decide, by decide, (epochs_refined (by decide) (by decide) (Run.run_last (by decide))
    (by decide) (Run.run_last (by decide))).2 (by decide) (by decide)⟩

end PgAqp.Mmgr
