import PgAqp.Mmgr.EpochEntries
import PgAqp.Mmgr.SharedSlab

/-!
# The epoch manager and the slab allocator of a backend

`epoch_bump` is called by the slab allocator.  Here the accesses of a backend to
the epoch manager are those of the calls that it makes, directly or inside
`shared_slab_free` and `shared_slab_reclaim`, on any number of slabs.
-/

namespace PgAqp.Mmgr

open Library Function List Option

inductive DeallocCall where
  | free (slab : Nat) (ptr : ItemPtr)
  | reclaim (slab : Nat) (wait : Bool)
  deriving DecidableEq, Repr

def DeallocCall.slab : DeallocCall → Nat
  | free slab _ => slab
  | reclaim slab _ => slab

inductive ClientPc where
  /-- Not in the slab allocator. -/
  | idle
  /-- `epoch_bump` ends the epoch of the last list. -/
  | bumping (call : DeallocCall)
  /-- `epoch_refresh_safe_epoch` runs in `shared_slab_reclaim_internal`. -/
  | scanning (call : DeallocCall)
  /-- `shared_slab_reclaim_internal` looks at the first list. -/
  | checking (call : DeallocCall) (safe : Epoch)
  /-- `epoch_wait_until_safe`. -/
  | awaiting (call : DeallocCall) (safe : Epoch)
  /-- `epoch_shmem_exit`. -/
  | exiting
  | exited
  deriving DecidableEq, Repr

/-- The deallocation lists of a backend, for each slab, and what the backend has passed to
`shared_slab_init` or `shared_slab_create`. -/
structure Client where
  lists : Nat → List DeallocList
  deallocListCapacity : Nat → Nat
  deallocNowait : Nat → Bool
  pc : ClientPc

structure EpochClients where
  manager : EpochManager
  /-- `IsPostmasterEnvironment && IsUnderPostmaster`. -/
  isUnderPostmaster : Bool
  clients : Tid → Client

inductive ClientLabel where
  | acquire (tid : Tid)
  | release (tid : Tid)
  | refresh (tid : Tid)
  | bump (tid : Tid)
  | free (tid : Tid) (slab : Nat) (ptr : ItemPtr)
  | reclaim (tid : Tid) (slab : Nat) (wait : Bool)
  | exit (tid : Tid)
  /-- A backend makes its next access. -/
  | step (tid : Tid)
  deriving DecidableEq, Repr

namespace EpochClients

variable (s : EpochClients)

def withManager (manager : EpochManager) : EpochClients := { s with manager := manager }

variable (tid : Tid) (slab : Nat)

def setClient (client : Client) : EpochClients :=
  { s with clients := update s.clients tid client }

def goTo (pc : ClientPc) : EpochClients :=
  s.setClient tid { s.clients tid with pc := pc }

def lists (tid : Tid) (slab : Nat) : List DeallocList := (s.clients tid).lists slab

def setLists (lists : List DeallocList) : EpochClients :=
  s.setClient tid
    { s.clients tid with lists := update (s.clients tid).lists slab lists }

/-- Call a function of the epoch manager inside the slab allocator. -/
def call (label : EpochLabel) (pc : ClientPc) : Option EpochClients :=
  (epochNext s.manager label).map fun manager => (s.withManager manager).goTo tid pc

variable (call : DeallocCall)

/-- The end of `shared_slab_free`. -/
def append (ptr : ItemPtr) (newList : Bool) : EpochClients :=
  (s.setLists tid slab (addToLast ptr (addList newList (s.lists tid slab)))).goTo tid .idle

/-- The last list is full, so `shared_slab_free` ends its epoch. -/
def freeBumps : Bool :=
  (s.lists tid slab).getLast?.any fun last =>
    last.pointers.length == (s.clients tid).deallocListCapacity slab

/-- The last list has pointers and no epoch, so `shared_slab_reclaim` ends it. -/
def reclaimBumps : Bool :=
  (s.lists tid slab).head?.any (fun first => first.pointers.length != 0) &&
    (s.lists tid slab).getLast?.any fun last =>
      last.pointers.length != 0 && last.epoch == none

/-- `shared_slab_free`. -/
def free (tid : Tid) (slab : Nat) (ptr : ItemPtr) : Option EpochClients :=
  if s.freeBumps tid slab then s.call tid (.bump tid) (.bumping (.free slab ptr))
  else some (s.append tid slab ptr (s.lists tid slab).isEmpty)

/-- `shared_slab_reclaim`. -/
def reclaim (tid : Tid) (slab : Nat) (wait : Bool) : Option EpochClients :=
  if (s.lists tid slab).head?.any fun first => first.pointers.length != 0 then
    if s.reclaimBumps tid slab then
      s.call tid (.bump tid) (.bumping (.reclaim slab wait))
    else s.call tid (.refreshSafeEpoch tid) (.scanning (.reclaim slab wait))
  else some s

/-- `shared_slab_reclaim_internal` returns to its caller. -/
def reclaimDone : EpochClients :=
  match call with
  | .free slab ptr =>
    s.append tid slab ptr
      ((s.clients tid).deallocNowait slab && (lastEpoch (s.lists tid slab)).isSome)
  | .reclaim _ _ => s.goTo tid .idle

def waits : Bool :=
  match call with
  | .free slab _ => !(s.clients tid).deallocNowait slab
  | .reclaim _ wait => wait

/-- `shared_slab_reclaim_first_dealloc_list`, and the loop goes on. -/
def reclaimFirst (safe : Epoch) : EpochClients :=
  (s.setLists tid call.slab (dropFirst (s.lists tid call.slab))).goTo tid
    (.checking call safe)

/-- The loop of `shared_slab_reclaim_internal`. -/
def reclaimNext (safe : Epoch) : EpochClients :=
  match (s.lists tid call.slab).head?.bind (·.epoch) with
  | none => s.reclaimDone tid call
  | some epoch =>
    if epochPreceedsOrEqualsTo epoch safe then s.reclaimFirst tid call safe
    else if s.waits tid call then s.goTo tid (.awaiting call safe)
    else s.reclaimDone tid call

/-- `epoch_wait_until_safe` reads the safe epoch. -/
def await (safe : Epoch) : EpochClients :=
  match (s.lists tid call.slab).head?.bind (·.epoch) with
  | none => s
  | some epoch =>
    if epochPreceeds s.manager.safeEpoch epoch then s
    else s.reclaimFirst tid call safe

/-- `epoch_bump` has returned the epoch that it ended. -/
def bumped (epoch : Epoch) : Option EpochClients :=
  (s.setLists tid call.slab (closeLast epoch (s.lists tid call.slab))).call tid
    (.refreshSafeEpoch tid) (.scanning call)

def access (tid : Tid) : Option EpochClients :=
  match (s.clients tid).pc with
  | .idle => (s.manager.access tid).map s.withManager
  | .bumping call =>
    (s.manager.access tid).bind fun manager =>
      match (s.manager.backends tid).pc with
      | .bumpWrite newGlobalEpoch =>
        (s.withManager manager).bumped tid call (newGlobalEpoch - 1)
      | _ => some (s.withManager manager)
  | .scanning call =>
    (s.manager.access tid).map fun manager =>
      if (manager.backends tid).pc = .idle then
        (s.withManager manager).goTo tid
          (.checking call ((manager.backends tid).safe.getD 0))
      else s.withManager manager
  | .checking call safe => some (s.reclaimNext tid call safe)
  | .awaiting call safe => some (s.await tid call safe)
  | .exiting =>
    (s.manager.access tid).map fun manager =>
      if (manager.backends tid).pc = .idle then (s.withManager manager).goTo tid .exited
      else s.withManager manager
  | .exited => none

def mayExit : Bool :=
  match (s.clients tid).pc with
  | .idle => true
  | .awaiting _ _ => true
  | _ => false

/-- The exit of a process runs `epoch_shmem_exit`. -/
def exit : Option EpochClients :=
  if s.mayExit tid = true ∧ (s.manager.backends tid).pc = .idle then
    if s.isUnderPostmaster ∧ (s.manager.backends tid).entry.isSome then
      s.call tid (.release tid) .exiting
    else some (s.goTo tid .exited)
  else none

def localWrite : ClientLabel → Option (Tid × Option Nat)
  | .step tid =>
    match (s.clients tid).pc with
    | .checking _ _ => none
    | .awaiting _ _ => none
    | .exited => none
    | _ => (s.manager.localWrite tid).map fun i => (tid, i)
  | _ => none

end EpochClients

def clientNext (s : EpochClients) : ClientLabel → Option EpochClients
  | .acquire tid =>
    if (s.clients tid).pc = .idle then
      (epochNext s.manager (.acquire tid)).map s.withManager
    else none
  | .release tid =>
    if (s.clients tid).pc = .idle then
      (epochNext s.manager (.release tid)).map s.withManager
    else none
  | .refresh tid =>
    if (s.clients tid).pc = .idle then
      (epochNext s.manager (.refresh tid)).map s.withManager
    else none
  | .bump tid =>
    if (s.clients tid).pc = .idle then
      (epochNext s.manager (.bump tid)).map s.withManager
    else none
  | .free tid slab ptr =>
    if (s.clients tid).pc = .idle then s.free tid slab ptr else none
  | .reclaim tid slab wait =>
    if (s.clients tid).pc = .idle then s.reclaim tid slab wait else none
  | .exit tid => s.exit tid
  | .step tid => s.access tid

def clientsInit (maxBackends : Nat) (deallocListCapacity : Tid → Nat → Nat)
    (deallocNowait : Tid → Nat → Bool) (isUnderPostmaster : Bool) : EpochClients where
  manager := epochShmemInit maxBackends
  isUnderPostmaster := isUnderPostmaster
  clients tid := ⟨fun _ => [], deallocListCapacity tid, deallocNowait tid, .idle⟩

/-- `epoch_bump` is called only by a backend that holds an entry, and a process that holds an entry
exits under a postmaster. -/
def HoldsEntry (s : EpochClients) : ClientLabel → Prop
  | .bump tid => (s.manager.backends tid).entry.isSome = true
  | .free tid slab _ =>
    s.freeBumps tid slab = true → (s.manager.backends tid).entry.isSome = true
  | .reclaim tid slab _ =>
    s.reclaimBumps tid slab = true → (s.manager.backends tid).entry.isSome = true
  | .exit tid =>
    (s.manager.backends tid).entry.isSome = true → s.isUnderPostmaster = true
  | _ => True

instance (s : EpochClients) (label : ClientLabel) : Decidable (HoldsEntry s label) := by
  cases label <;> unfold HoldsEntry <;> infer_instance

namespace EpochClients

structure Inv (s : EpochClients) : Prop where
  owned : s.manager.Owned
  exiting : ∀ tid, (s.clients tid).pc = .exiting →
    (s.manager.backends tid).pc = .releaseWrite ∨ s.manager.Released tid
  exited : ∀ tid, (s.clients tid).pc = .exited → (s.manager.backends tid).entry = none

variable {s next : EpochClients} {tid : Tid} {label : ClientLabel}

theorem Inv.step (inv : s.Inv) (tid : Tid) (owned : next.manager.Owned)
    (others : ∀ other, other ≠ tid → next.manager.backends other = s.manager.backends other ∧
        next.clients other = s.clients other) (exiting : (next.clients tid).pc = .exiting →
      (next.manager.backends tid).pc = .releaseWrite ∨ next.manager.Released tid)
    (exited : (next.clients tid).pc = .exited → (next.manager.backends tid).entry = none) :
    next.Inv where
  owned := owned
  exiting other isPc := by
    by_cases same : other = tid
    · rw [same] at isPc ⊢
      exact exiting isPc
    · obtain ⟨be, client⟩ := others other same
      rw [client] at isPc
      unfold EpochManager.Released
      rw [be]
      exact inv.exiting other isPc
  exited other isPc := by
    by_cases same : other = tid
    · rw [same] at isPc ⊢
      exact exited isPc
    · obtain ⟨be, client⟩ := others other same
      rw [client] at isPc
      rw [be]
      exact inv.exited other isPc

theorem clients_self (s : EpochClients) (tid : Tid) (client : Client) :
    (s.setClient tid client).clients tid = client :=
  update_self ..

theorem clients_of_ne (s : EpochClients) (client : Client)
    (diff : other ≠ tid) : (s.setClient tid client).clients other = s.clients other :=
  update_of_ne diff ..

theorem Inv.setClient (inv : s.Inv) (tid : Tid) (client : Client) (exiting : client.pc ≠ .exiting)
    (exited : client.pc = .exited → (s.manager.backends tid).entry = none) :
    (s.setClient tid client).Inv := by
  refine inv.step tid inv.owned ?_ ?_ ?_
  · exact fun other diff => ⟨rfl, clients_of_ne s client diff⟩
  · rw [clients_self]
    exact fun isPc => absurd isPc exiting
  · rw [clients_self]
    exact exited

def Lives (s : EpochClients) (tid : Tid) : Prop :=
  (s.clients tid).pc ≠ .exiting ∧ (s.clients tid).pc ≠ .exited

theorem Inv.manager {manager : EpochManager} (inv : s.Inv) (label : EpochLabel)
    (done : epochNext s.manager label = some manager) (lives : s.Lives label.tid)
    (holds : ∀ tid, label = .bump tid → (s.manager.backends tid).entry.isSome := by simp) :
    (s.withManager manager).Inv := by
  refine inv.step label.tid (inv.owned.call holds done) ?_ ?_ ?_
  · exact fun other diff => ⟨epochNext_others done diff, rfl⟩
  · exact fun isPc => absurd isPc lives.1
  · exact fun isPc => absurd isPc lives.2

theorem Inv.call (inv : s.Inv) (label : EpochLabel) (done : s.call label.tid label pc = some next)
    (holds : ∀ tid, label = .bump tid → (s.manager.backends tid).entry.isSome := by simp)
    (lives : pc ≠ .exiting ∧ pc ≠ .exited := by simp) : next.Inv := by
  obtain ⟨manager, isManager, rfl⟩ := map_eq_some_iff.mp done
  refine inv.step label.tid (inv.owned.call holds isManager) ?_ ?_ ?_
  · intro other diff
    exact ⟨epochNext_others isManager diff, clients_of_ne _ _ diff⟩
  · rw [goTo, clients_self]
    exact fun isPc => absurd isPc lives.1
  · rw [goTo, clients_self]
    exact fun isPc => absurd isPc lives.2

variable (inv : s.Inv)
include inv

theorem Inv.goTo (tid : Tid)
    (lives : pc ≠ .exiting ∧ pc ≠ .exited := by simp) : (s.goTo tid pc).Inv :=
  inv.setClient tid _ lives.1 fun isPc => absurd isPc lives.2

theorem Inv.setLists (lives : s.Lives tid)
    (slab : Nat) (lists : List DeallocList) : (s.setLists tid slab lists).Inv :=
  inv.setClient tid _ lives.1 fun isPc => absurd isPc lives.2

theorem Inv.append (lives : s.Lives tid)
    (slab : Nat) (ptr : ItemPtr) (newList : Bool) : (s.append tid slab ptr newList).Inv :=
  (inv.setLists lives slab _).goTo tid

theorem Inv.reclaimDone
    (lives : s.Lives tid) (call : DeallocCall) : (s.reclaimDone tid call).Inv := by
  cases call with
  | free slab ptr => exact inv.append lives slab ptr _
  | reclaim slab wait => exact inv.goTo tid

theorem Inv.reclaimFirst (lives : s.Lives tid) (call : DeallocCall) (safe : Epoch) :
    (s.reclaimFirst tid call safe).Inv :=
  (inv.setLists lives call.slab _).goTo tid

theorem Inv.reclaimNext (lives : s.Lives tid) (call : DeallocCall) (safe : Epoch) :
    (s.reclaimNext tid call safe).Inv := by
  unfold EpochClients.reclaimNext
  split
  · exact inv.reclaimDone lives call
  · split
    · exact inv.reclaimFirst lives call safe
    · split
      · exact inv.goTo tid
      · exact inv.reclaimDone lives call

theorem Inv.await (lives : s.Lives tid)
    (call : DeallocCall) (safe : Epoch) : (s.await tid call safe).Inv := by
  unfold EpochClients.await
  split
  · exact inv
  · split
    · exact inv
    · exact inv.reclaimFirst lives call safe

theorem Inv.bumped (lives : s.Lives tid) {call : DeallocCall}
    (done : s.bumped tid call epoch = some next) : next.Inv :=
  (inv.setLists lives call.slab _).call (.refreshSafeEpoch tid) done

theorem Inv.exitAccess {manager : EpochManager} (isPc : (s.clients tid).pc = .exiting)
    (done : s.manager.access tid = some manager) :
    manager.Owned ∧ manager.Released tid := by
  refine ⟨inv.owned.access tid done, ?_⟩
  cases inv.exiting tid isPc with
  | inl releases => exact EpochManager.released_of_releaseWrite releases done
  | inr released => exact released.access done

theorem Inv.access (done : s.access tid = some next) : next.Inv := by
  have moved {manager : EpochManager} (isManager : s.manager.access tid = some manager)
      (lives : s.Lives tid) : (s.withManager manager).Inv :=
    inv.manager (.step tid) isManager lives
  unfold EpochClients.access at done
  cases isPc : (s.clients tid).pc with
  | idle =>
    simp only [isPc] at done
    obtain ⟨manager, isManager, rfl⟩ := map_eq_some_iff.mp done
    exact moved isManager (by simp [Lives, isPc])
  | bumping call =>
    have lives : s.Lives tid := by simp [Lives, isPc]
    simp only [isPc] at done
    obtain ⟨manager, isManager, rest⟩ := bind_eq_some_iff.mp done
    split at rest
    · exact (moved isManager lives).bumped lives rest
    · cases rest
      exact moved isManager lives
  | scanning call =>
    simp only [isPc] at done
    obtain ⟨manager, isManager, rfl⟩ := map_eq_some_iff.mp done
    have inv' := moved isManager (by simp [Lives, isPc])
    split
    · exact inv'.goTo tid
    · exact inv'
  | checking call safe =>
    simp only [isPc] at done
    cases done
    exact inv.reclaimNext (by simp [Lives, isPc]) call safe
  | awaiting call safe =>
    simp only [isPc] at done
    cases done
    exact inv.await (by simp [Lives, isPc]) call safe
  | exiting =>
    simp only [isPc] at done
    obtain ⟨manager, isManager, rfl⟩ := map_eq_some_iff.mp done
    obtain ⟨owned, released⟩ := inv.exitAccess isPc isManager
    have inv' : (s.withManager manager).Inv := by
      refine inv.step tid owned ?_ (fun _ => .inr released) fun _ => released.1
      exact fun other diff => ⟨EpochManager.access_others isManager diff, rfl⟩
    split
    · exact inv'.setClient tid _ ClientPc.noConfusion fun _ => released.1
    · exact inv'
  | exited =>
    simp only [isPc] at done
    cases done

theorem Inv.exit
    (allowed : HoldsEntry s (.exit tid)) (done : s.exit tid = some next) : next.Inv := by
  obtain ⟨enabled, done⟩ := ite_none_right_eq_some.mp done
  split at done
  next holds =>
    obtain ⟨manager, isManager, rfl⟩ := map_eq_some_iff.mp done
    have others (other : Tid) (diff : other ≠ tid) :=
      epochNext_others isManager (diff : other ≠ (EpochLabel.release tid).tid)
    have releases : manager = s.manager.goTo tid .releaseWrite := by
      simp only [epochNext, enabled.2, holds.2, if_true, some.injEq] at isManager
      exact isManager.symm
    refine inv.step tid (inv.owned.call (by simp) isManager) ?_ (fun _ => .inl ?_) ?_
    · intro other diff
      exact ⟨others other diff, clients_of_ne _ _ diff⟩
    · change (manager.backends tid).pc = .releaseWrite
      rw [releases, EpochManager.goTo, EpochManager.backends_self]
    · rw [EpochClients.goTo, clients_self]
      exact fun isPc => ClientPc.noConfusion isPc
  next free =>
    cases done
    refine inv.setClient tid _ ClientPc.noConfusion fun _ => ?_
    by_contra holds
    have isSome := isSome_iff_ne_none.mpr holds
    exact free ⟨allowed isSome, isSome⟩

theorem Inv.afterStep (allowed : HoldsEntry s label)
    (done : clientNext s label = some next) : next.Inv := by
  have managed (call : EpochLabel)
      (holds : ∀ tid, call = .bump tid → (s.manager.backends tid).entry.isSome)
      (done : (if (s.clients call.tid).pc = .idle then
        (epochNext s.manager call).map s.withManager else none) = some next) : next.Inv := by
    obtain ⟨isPc, done⟩ := ite_none_right_eq_some.mp done
    obtain ⟨manager, isManager, rfl⟩ := map_eq_some_iff.mp done
    exact inv.manager call isManager (by simp [Lives, isPc]) holds
  cases label with
  | acquire tid => exact managed (.acquire tid) (by simp) done
  | release tid => exact managed (.release tid) (by simp) done
  | refresh tid => exact managed (.refresh tid) (by simp) done
  | bump tid =>
    refine managed (.bump tid) ?_ done
    rintro other ⟨⟩
    exact allowed
  | free tid slab ptr =>
    obtain ⟨isPc, done⟩ := ite_none_right_eq_some.mp done
    unfold EpochClients.free at done
    split at done
    next bumps =>
      refine inv.call (.bump tid) done ?_
      rintro other ⟨⟩
      exact allowed bumps
    · cases done
      exact inv.append (by simp [Lives, isPc]) slab ptr _
  | reclaim tid slab wait =>
    obtain ⟨-, done⟩ := ite_none_right_eq_some.mp done
    unfold EpochClients.reclaim at done
    split at done
    · split at done
      next bumps =>
        refine inv.call (.bump tid) done ?_
        rintro other ⟨⟩
        exact allowed bumps
      · exact inv.call (.refreshSafeEpoch tid) done
    · cases done
      exact inv
  | exit tid => exact inv.exit allowed done
  | step tid => exact inv.access done

omit inv

theorem inv_init (present : 0 < maxBackends) (capacity : Tid → Nat → Nat)
    (nowait : Tid → Nat → Bool) (underPostmaster : Bool) :
    (clientsInit maxBackends capacity nowait underPostmaster).Inv where
  owned :=
    { entries := present
      inside := fun holds => by cases holds
      inUse := fun holds => by cases holds
      unique := fun holds => by cases holds
      pc := fun _ => trivial }
  exiting := fun _ isPc => ClientPc.noConfusion isPc
  exited := fun _ isPc => ClientPc.noConfusion isPc

theorem call_refreshSafeEpoch (done : s.call tid (.refreshSafeEpoch tid) pc = some next) :
    (next.manager.backends tid).entry = (s.manager.backends tid).entry := by
  obtain ⟨manager, isManager, rfl⟩ := map_eq_some_iff.mp done
  obtain ⟨-, ⟨⟩⟩ := ite_none_right_eq_some.mp isManager
  change (((s.manager.startScan tid).backends tid).entry) = _
  rw [EpochManager.startScan, EpochManager.goTo, EpochManager.backends_self]

theorem access_of_localWrite (write : s.localWrite label = some (tid, i))
    (done : clientNext s label = some next) :
    ∃ manager, s.manager.access tid = some manager ∧ s.manager.localWrite tid = some i ∧
      (next.manager.backends tid).entry = (manager.backends tid).entry := by
  cases label with
  | step actor =>
    have written : s.manager.localWrite actor = some i ∧ actor = tid := by
      dsimp only [EpochClients.localWrite] at write
      split at write
      · cases write
      · cases write
      · cases write
      · obtain ⟨found, isFound, same⟩ := map_eq_some_iff.mp write
        cases same
        exact ⟨isFound, rfl⟩
    obtain ⟨isWrite, rfl⟩ := written
    dsimp only [clientNext] at done
    unfold EpochClients.access at done
    dsimp only [EpochClients.localWrite] at write
    cases isPc : (s.clients actor).pc with
    | idle =>
      simp only [isPc] at done
      obtain ⟨manager, isManager, rfl⟩ := map_eq_some_iff.mp done
      exact ⟨manager, isManager, isWrite, rfl⟩
    | bumping call =>
      simp only [isPc] at done
      obtain ⟨manager, isManager, rest⟩ := bind_eq_some_iff.mp done
      refine ⟨manager, isManager, isWrite, ?_⟩
      split at rest
      · exact call_refreshSafeEpoch rest
      · cases rest
        rfl
    | scanning call =>
      simp only [isPc] at done
      obtain ⟨manager, isManager, rfl⟩ := map_eq_some_iff.mp done
      refine ⟨manager, isManager, isWrite, ?_⟩
      split
      · rfl
      · rfl
    | exiting =>
      simp only [isPc] at done
      obtain ⟨manager, isManager, rfl⟩ := map_eq_some_iff.mp done
      refine ⟨manager, isManager, isWrite, ?_⟩
      split
      · rfl
      · rfl
    | checking call safe => simp [isPc] at write
    | awaiting call safe => simp [isPc] at write
    | exited => simp [isPc] at write
  | acquire tid => cases write
  | release tid => cases write
  | refresh tid => cases write
  | bump tid => cases write
  | free tid slab ptr => cases write
  | reclaim tid slab wait => cases write
  | exit tid => cases write

theorem release_starts (done : clientNext s (.release tid) = some next) :
    (next.manager.backends tid).entry = none ∨ (next.manager.backends tid).pc = .releaseWrite := by
  obtain ⟨-, done⟩ := ite_none_right_eq_some.mp done
  obtain ⟨manager, isManager, rfl⟩ := map_eq_some_iff.mp done
  obtain ⟨-, isManager⟩ := ite_none_right_eq_some.mp isManager
  split at isManager
  · cases isManager
    refine .inr ?_
    change ((s.manager.goTo tid .releaseWrite).backends tid).pc = _
    rw [EpochManager.goTo, EpochManager.backends_self]
  next none =>
    cases isManager
    exact .inl (not_isSome_iff_eq_none.mp none)

end EpochClients

/-- In every run in which only backends with an entry call `epoch_bump`, every write to the array of
local epochs goes to an entry of the array that belongs to the backend alone, and a backend has no
entry after `epoch_release` or its exit. -/
theorem local_writes_owned {maxBackends : Nat} (present : 0 < maxBackends)
    {capacity : Tid → Nat → Nat} {nowait : Tid → Nat → Bool} {underPostmaster : Bool}
    {schedule : List ClientLabel} {s : EpochClients}
    (meets : Run.Meets clientNext HoldsEntry
      (clientsInit maxBackends capacity nowait underPostmaster) schedule)
    (reached : Run.run clientNext (clientsInit maxBackends capacity nowait underPostmaster)
      schedule = some s) :
    (∀ label next tid i, clientNext s label = some next → s.localWrite label = some (tid, i) →
        ∃ e, i = some e ∧ e < s.manager.numEpochEntries ∧ ((s.manager.backends tid).entry = some e ∨
            (next.manager.backends tid).entry = some e) ∧
          ∀ other, other ≠ tid → (s.manager.backends other).entry ≠ some e) ∧
      (∀ tid next, clientNext s (.release tid) = some next →
        (next.manager.backends tid).entry = none ∨ (next.manager.backends tid).pc = .releaseWrite) ∧
      (∀ tid next i, (s.manager.backends tid).pc = .releaseWrite →
        s.localWrite (.step tid) = some (tid, i) →
          clientNext s (.step tid) = some next → (next.manager.backends tid).entry = none) ∧
      ∀ tid, (s.clients tid).pc = .exited → (s.manager.backends tid).entry = none := by
  have inv : s.Inv :=
    Run.invariant EpochClients.Inv EpochClients.Inv.afterStep
      (EpochClients.inv_init present capacity nowait underPostmaster) meets reached
  refine ⟨?_, fun tid next done => EpochClients.release_starts done, ?_, inv.exited⟩
  · intro label next tid i done write
    obtain ⟨manager, isManager, isWrite, same⟩ := EpochClients.access_of_localWrite write done
    rw [same]
    exact inv.owned.localWrite isManager isWrite
  · intro tid next i releases write done
    obtain ⟨manager, isManager, -, same⟩ := EpochClients.access_of_localWrite write done
    rw [same]
    exact (EpochManager.released_of_releaseWrite releases isManager).1

/-! ## A write in front of the array -/

def waitingClients : EpochClients := clientsInit 4 (fun _ _ => 2) (fun _ _ => false) true

/-- A backend without an entry reclaims what it has freed, as it does at its exit. -/
def reclaimsIdle : List ClientLabel :=
  [.free 0 0 8, .reclaim 0 0 true, .step 0, .step 0]

/-- The next access writes the local epoch at the invalid entry id. -/
theorem reclaimsIdle_writes_outside :
    ((Run.run clientNext waitingClients reclaimsIdle).bind fun s =>
      (clientNext s (.step 0)).bind fun _ => s.localWrite (.step 0)) =
      some (0, none) := by
  decide +kernel

/-- The same backend with an entry, which it gives up at its exit. -/
def reclaimsHolding : List ClientLabel :=
  .acquire 0 :: replicate 3 (.step 0) ++ [.free 0 0 8, .reclaim 0 0 false] ++
    replicate 11 (.step 0) ++ .exit 0 :: replicate 6 (.step 0)

theorem reclaimsHolding_exits :
    ∃ s, Run.run clientNext waitingClients reclaimsHolding = some s ∧
      (s.clients 0).pc = .exited ∧ (s.manager.backends 0).entry = none := by
  have ends : (Run.run clientNext waitingClients reclaimsHolding).isSome = true := by
    decide +kernel
  have meets : Run.Meets clientNext HoldsEntry waitingClients reclaimsHolding := by
    decide +kernel
  have exited : ((Run.last clientNext waitingClients reclaimsHolding).clients 0).pc =
      .exited := by
    decide +kernel
  exact ⟨_, Run.run_last ends, exited,
    (local_writes_owned (by decide) meets (Run.run_last ends)).2.2.2 0 exited⟩

end PgAqp.Mmgr
