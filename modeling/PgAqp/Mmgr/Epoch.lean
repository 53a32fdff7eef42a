import PgAqp.Hash.LockfreeHtab

/-!
# The epoch manager

Each backend publishes the epoch in which it last had no references to shared
memory.  Objects that were retired in an epoch may be reused once the safe epoch, which is
before every published epoch, has reached it.  Epochs are kept as the numbers they would
be without wraparound; the code compares their last 63 bits.
-/

namespace PgAqp.Mmgr

export Hash (Tid)
open Function Option

/-- An epoch, before it is cut to 63 bits. -/
abbrev Epoch := Nat

def raw (epoch : Nat) : Nat := epoch % 9223372036854775808

/-- `EpochPreceedsOrEqualsTo`. -/
def epochPreceedsOrEqualsTo (first second : Nat) : Bool :=
  decide ((raw second + 9223372036854775808 - raw first) % 9223372036854775808 <
    4611686018427387904)

/-- `EpochPreceeds`. -/
def epochPreceeds (first second : Nat) : Bool := !epochPreceedsOrEqualsTo second first

inductive EpochPc where
  | idle
  /-- `epoch_acquire` reads the global epoch. -/
  | acquireGlobal
  /-- `epoch_acquire` reads an entry. -/
  | acquireRead (e : Nat) (globalEpoch : Epoch)
  /-- `epoch_acquire` swaps its epoch into an entry that was not in use. -/
  | acquireSwap (e : Nat) (globalEpoch : Epoch)
  /-- `epoch_release` marks the entry as not in use. -/
  | releaseWrite
  /-- `epoch_refresh` reads the global epoch. -/
  | refreshGlobal
  /-- `epoch_refresh` writes its entry. -/
  | refreshWrite (globalEpoch : Epoch)
  /-- `epoch_bump` reads the global epoch. -/
  | bumpGlobal
  /-- `epoch_bump` swaps the next epoch in. -/
  | bumpSwap (globalEpoch : Epoch)
  /-- `epoch_bump` writes its entry. -/
  | bumpWrite (newGlobalEpoch : Epoch)
  /-- `epoch_refresh_safe_epoch` reads an entry, with the smallest epoch so far. -/
  | scanRead (e : Nat) (smallest : Option Epoch)
  /-- `epoch_refresh_safe_epoch` reads the safe epoch. -/
  | scanCurrent (smallest : Option Epoch)
  /-- `epoch_refresh_safe_epoch` swaps the new safe epoch in. -/
  | scanSwap (curSafeEpoch newSafeEpoch : Epoch)
  deriving DecidableEq, Repr

structure EpochBackend where
  /-- `MyEpochEntryId`. -/
  entry : Option Nat
  pc : EpochPc
  /-- The safe epoch that the last `epoch_refresh_safe_epoch` returned. -/
  safe : Option Epoch
  deriving DecidableEq, Repr

/-- `EpochManager` with the backends. -/
structure EpochManager where
  numEpochEntries : Nat
  globalEpoch : Epoch
  safeEpoch : Epoch
  /-- The epoch of an entry, or nothing if it is not in use. -/
  localEpochs : Nat → Option Epoch
  backends : Tid → EpochBackend
  /-- The global epoch at the time an entry was last written; the code does not have it. -/
  published : Nat → Epoch

inductive EpochLabel where
  | acquire (tid : Tid)
  | release (tid : Tid)
  | refresh (tid : Tid)
  | bump (tid : Tid)
  | refreshSafeEpoch (tid : Tid)
  /-- A backend makes its next access. -/
  | step (tid : Tid)
  deriving DecidableEq, Repr

def EpochLabel.tid : EpochLabel → Tid
  | .acquire tid => tid
  | .release tid => tid
  | .refresh tid => tid
  | .bump tid => tid
  | .refreshSafeEpoch tid => tid
  | .step tid => tid

namespace EpochManager

variable (s : EpochManager) (tid : Tid) (smallest : Option Epoch) (e : Nat)

def setBackend (be : EpochBackend) : EpochManager :=
  { s with backends := update s.backends tid be }

def goTo (pc : EpochPc) : EpochManager :=
  s.setBackend tid { s.backends tid with pc := pc }

def publish (epoch : Epoch) : EpochManager :=
  { s with
    localEpochs := update s.localEpochs e (some epoch)
    published := update s.published e s.globalEpoch }

/-- `epoch_acquire` comes to an entry in use: the next entry, or no entry at all. -/
def tryNext (globalEpoch : Epoch) : EpochManager :=
  if (e + 1) % s.numEpochEntries = tid % s.numEpochEntries then s.goTo tid .idle
  else s.goTo tid (.acquireRead ((e + 1) % s.numEpochEntries) globalEpoch)

/-- The first access of `epoch_refresh_safe_epoch`. -/
def startScan : EpochManager := s.goTo tid (.scanRead 0 none)

def newSafeEpoch : Epoch :=
  match smallest with
  | some epoch => epoch - 1
  | none => s.safeEpoch - raw s.safeEpoch + 9223372036854775807

def smaller (epoch : Epoch) : Epoch :=
  match smallest with
  | none => epoch
  | some other => if epochPreceeds epoch other then epoch else other

def seen : Option Epoch :=
  match s.localEpochs e with
  | none => smallest
  | some epoch => some (smaller smallest epoch)

/-- `epoch_refresh_safe_epoch` returns. -/
def endScan (safe : Epoch) : EpochManager :=
  s.setBackend tid { s.backends tid with pc := .idle, safe := some safe }

def access : Option EpochManager :=
  match (s.backends tid).pc with
  | .idle => none
  | .acquireGlobal =>
    some (s.goTo tid (.acquireRead (tid % s.numEpochEntries) s.globalEpoch))
  | .acquireRead e globalEpoch =>
    if (s.localEpochs e).isSome then some (s.tryNext tid e globalEpoch)
    else some (s.goTo tid (.acquireSwap e globalEpoch))
  | .acquireSwap e globalEpoch =>
    if (s.localEpochs e).isSome then some (s.tryNext tid e globalEpoch)
    else
      some ((s.publish e globalEpoch).setBackend tid
        { s.backends tid with entry := some e, pc := .idle })
  | .releaseWrite =>
    (s.backends tid).entry.map fun e =>
      { s with localEpochs := update s.localEpochs e none }.setBackend tid
        { s.backends tid with entry := none, pc := .scanRead 0 none }
  | .refreshGlobal =>
    (s.backends tid).entry.map fun e =>
      if (s.localEpochs e).map raw = some (raw s.globalEpoch) then
        s.goTo tid .idle
      else s.goTo tid (.refreshWrite s.globalEpoch)
  | .refreshWrite globalEpoch =>
    (s.backends tid).entry.map fun e =>
      (s.publish e globalEpoch).startScan tid
  | .bumpGlobal => some (s.goTo tid (.bumpSwap s.globalEpoch))
  | .bumpSwap globalEpoch =>
    if raw s.globalEpoch = raw globalEpoch then
      some ({ s with globalEpoch := s.globalEpoch + 1 }.goTo tid
        (.bumpWrite (s.globalEpoch + 1)))
    else some (s.goTo tid (.bumpSwap s.globalEpoch))
  | .bumpWrite newGlobalEpoch =>
    -- Without an entry the write goes in front of the array.
    match (s.backends tid).entry with
    | none => some (s.goTo tid .idle)
    | some e => some ((s.publish e newGlobalEpoch).goTo tid .idle)
  | .scanRead e smallest =>
    some (if e + 1 < s.numEpochEntries then
      s.goTo tid (.scanRead (e + 1) (s.seen smallest e))
    else s.goTo tid (.scanCurrent (s.seen smallest e)))
  | .scanCurrent smallest =>
    some (if epochPreceeds s.safeEpoch (s.newSafeEpoch smallest) then
      s.goTo tid (.scanSwap s.safeEpoch (s.newSafeEpoch smallest))
    else s.endScan tid s.safeEpoch)
  | .scanSwap curSafeEpoch newSafeEpoch =>
    some (if raw s.safeEpoch = raw curSafeEpoch then
      { s with safeEpoch := newSafeEpoch }.endScan tid newSafeEpoch
    else s.endScan tid s.safeEpoch)

end EpochManager

def epochNext (s : EpochManager) : EpochLabel → Option EpochManager
  | .acquire tid =>
    if (s.backends tid).pc = .idle then
      if (s.backends tid).entry.isSome then some s
      else some (s.goTo tid .acquireGlobal)
    else none
  | .release tid =>
    if (s.backends tid).pc = .idle then
      if (s.backends tid).entry.isSome then some (s.goTo tid .releaseWrite)
      else some s
    else none
  | .refresh tid =>
    if (s.backends tid).pc = .idle ∧ (s.backends tid).entry.isSome then
      some (s.goTo tid .refreshGlobal)
    else none
  | .bump tid =>
    if (s.backends tid).pc = .idle then some (s.goTo tid .bumpGlobal) else none
  | .refreshSafeEpoch tid =>
    if (s.backends tid).pc = .idle then some (s.startScan tid) else none
  | .step tid => s.access tid

/-- The first access of a call, and what was tested of the entry of the backend. -/
inductive Starts (be : EpochBackend) : EpochLabel → EpochPc → Prop
  | acquire {tid : Tid} (none : be.entry = none) : Starts be (.acquire tid) .acquireGlobal
  | release {tid : Tid} (some : be.entry.isSome = true) :
      Starts be (.release tid) .releaseWrite
  | refresh {tid : Tid} (some : be.entry.isSome = true) :
      Starts be (.refresh tid) .refreshGlobal
  | bump {tid : Tid} : Starts be (.bump tid) .bumpGlobal
  | refreshSafeEpoch {tid : Tid} : Starts be (.refreshSafeEpoch tid) (.scanRead 0 none)

theorem epochNext_cases (done : epochNext s label = some next) :
    next = s ∨ (∃ pc, Starts (s.backends label.tid) label pc ∧ next = s.goTo label.tid pc) ∨
      ∃ tid, label = .step tid ∧ s.access tid = some next := by
  cases label with
  | step tid => exact .inr (.inr ⟨tid, rfl, done⟩)
  | acquire tid =>
    obtain ⟨-, done⟩ := ite_none_right_eq_some.mp done
    split at done <;> cases done
    · exact .inl rfl
    · next none => exact .inr (.inl ⟨_, .acquire (not_isSome_iff_eq_none.mp none), rfl⟩)
  | release tid =>
    obtain ⟨-, done⟩ := ite_none_right_eq_some.mp done
    split at done <;> cases done
    · next some => exact .inr (.inl ⟨_, .release some, rfl⟩)
    · exact .inl rfl
  | refresh tid =>
    obtain ⟨enabled, done⟩ := ite_none_right_eq_some.mp done
    cases done
    exact .inr (.inl ⟨_, .refresh enabled.2, rfl⟩)
  | bump tid =>
    obtain ⟨-, done⟩ := ite_none_right_eq_some.mp done
    cases done
    exact .inr (.inl ⟨_, .bump, rfl⟩)
  | refreshSafeEpoch tid =>
    obtain ⟨-, done⟩ := ite_none_right_eq_some.mp done
    cases done
    exact .inr (.inl ⟨_, .refreshSafeEpoch, rfl⟩)

/-- `EpochShmemInit`. -/
def epochShmemInit (maxBackends : Nat) : EpochManager where
  numEpochEntries := maxBackends
  globalEpoch := 1
  safeEpoch := 0
  localEpochs _ := none
  backends _ := ⟨none, .idle, none⟩
  published _ := 0

end PgAqp.Mmgr
