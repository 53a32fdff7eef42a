import PgAqp.Mmgr.Epoch

/-!
# The safe epoch

An entry in use was published after the safe epoch.  An entry that the scan has passed may
be taken while it goes on; it is enough that the first entry that it finds in use is not
ahead of the entries in use that it has passed.
-/

namespace PgAqp.Mmgr

open Library Function List Option

/-- Two epochs that lie less than half the range of the stored epochs apart. -/
def near (first second : Nat) : Bool :=
  decide (first - second < 4611686018427387904 ∧ second - first < 4611686018427387904)

theorem epochPreceedsOrEqualsTo_eq (isNear : near first second) :
    epochPreceedsOrEqualsTo first second = decide (first ≤ second) := by
  obtain ⟨below, above⟩ := of_decide_eq_true isNear
  unfold epochPreceedsOrEqualsTo raw
  congr 1
  rw [eq_iff_iff]
  omega

theorem near_comm (first second : Nat) : near first second = near second first := by
  simp [near, and_comm]

theorem epochPreceeds_eq (isNear : near first second) :
    epochPreceeds first second = decide (first < second) := by
  rw [near_comm] at isNear
  unfold epochPreceeds
  rw [epochPreceedsOrEqualsTo_eq isNear, ← decide_not]
  simp

theorem raw_inj (isNear : near first second) (same : raw first = raw second) : first = second := by
  obtain ⟨below, above⟩ := of_decide_eq_true isNear
  unfold raw at same
  omega

namespace EpochManager

def inOrder (s : EpochManager) : EpochPc → Bool
  | .scanRead e none =>
    (s.localEpochs e).all fun epoch =>
      (range e).all fun passed =>
        (s.localEpochs passed).all fun other => decide (epoch ≤ other)
  | .scanRead e (some smallest) =>
    (s.localEpochs e).all fun epoch => near epoch smallest
  | .scanCurrent none => !epochPreceeds s.safeEpoch (s.newSafeEpoch none)
  | .scanCurrent (some smallest) => near s.safeEpoch (smallest - 1)
  | .scanSwap curSafeEpoch _ => near s.safeEpoch curSafeEpoch
  | _ => true

/-- Every entry in use in front of the bound was published in the epoch or after it. -/
def PublishedFrom (s : EpochManager) (bound : Nat) (epoch : Epoch) : Prop :=
  ∀ e < bound, (s.localEpochs e).isSome = true → epoch ≤ s.published e

/-- What the local variables of a backend say about the entries. -/
def PcOk (s : EpochManager) : EpochPc → Prop
  | .acquireRead e epoch =>
    e < s.numEpochEntries ∧ 1 ≤ epoch ∧ epoch ≤ s.globalEpoch
  | .acquireSwap e epoch =>
    e < s.numEpochEntries ∧ 1 ≤ epoch ∧ epoch ≤ s.globalEpoch
  | .refreshWrite epoch => 1 ≤ epoch ∧ epoch ≤ s.globalEpoch
  | .bumpWrite epoch => 1 ≤ epoch ∧ epoch ≤ s.globalEpoch
  | .scanRead e (some smallest) =>
    1 ≤ smallest ∧ smallest ≤ s.globalEpoch ∧ s.PublishedFrom e smallest
  | .scanCurrent (some smallest) =>
    1 ≤ smallest ∧ smallest ≤ s.globalEpoch ∧
      s.PublishedFrom s.numEpochEntries smallest
  | .scanSwap curSafeEpoch newSafeEpoch =>
    curSafeEpoch < newSafeEpoch ∧ newSafeEpoch < s.globalEpoch ∧
      s.PublishedFrom s.numEpochEntries (newSafeEpoch + 1)
  | _ => True

structure Inv (s : EpochManager) : Prop where
  entries : 0 < s.numEpochEntries
  safe : s.safeEpoch < s.globalEpoch
  inUse : ∀ {e epoch}, s.localEpochs e = some epoch →
    e < s.numEpochEntries ∧ 1 ≤ epoch ∧ epoch ≤ s.globalEpoch ∧
      epoch ≤ s.published e
  published : ∀ {e}, (s.localEpochs e).isSome = true →
    s.safeEpoch < s.published e
  entry : ∀ {tid e}, (s.backends tid).entry = some e → e < s.numEpochEntries
  pc : ∀ tid, s.PcOk (s.backends tid).pc
  returned : ∀ {tid safe}, (s.backends tid).safe = some safe → safe ≤ s.safeEpoch

/-- What every step does to the shared variables: the global epoch does not go back, and an
entry in use was left alone or has just been published. -/
structure Advances (s s' : EpochManager) : Prop where
  entries : s'.numEpochEntries = s.numEpochEntries
  globalEpoch : s.globalEpoch ≤ s'.globalEpoch
  published : ∀ e, (s'.localEpochs e).isSome = true →
    (s.localEpochs e).isSome = true ∧ s'.published e = s.published e ∨
      s.globalEpoch ≤ s'.published e

variable {s : EpochManager} {epoch : Epoch} {e : Nat}

theorem PublishedFrom.advance (pre : s.PublishedFrom bound epoch) (advances : Advances s s')
    (reached : epoch ≤ s.globalEpoch) : s'.PublishedFrom bound epoch := by
  intro e below inUse
  rcases advances.published e inUse with ⟨inUseBefore, same⟩ | later
  · rw [same]
    exact pre e below inUseBefore
  · exact Nat.le_trans reached later

theorem PcOk.advance (ok : s.PcOk pc) (advances : Advances s s') : s'.PcOk pc := by
  have later : ∀ {epoch}, epoch ≤ s.globalEpoch → epoch ≤ s'.globalEpoch :=
    fun reached => Nat.le_trans reached advances.globalEpoch
  cases pc with
  | acquireRead e epoch => exact ⟨advances.entries ▸ ok.1, ok.2.1, later ok.2.2⟩
  | acquireSwap e epoch => exact ⟨advances.entries ▸ ok.1, ok.2.1, later ok.2.2⟩
  | refreshWrite epoch => exact ⟨ok.1, later ok.2⟩
  | bumpWrite epoch => exact ⟨ok.1, later ok.2⟩
  | scanRead e smallest =>
    cases smallest with
    | none => trivial
    | some epoch => exact ⟨ok.1, later ok.2.1, ok.2.2.advance advances ok.2.1⟩
  | scanCurrent smallest =>
    cases smallest with
    | none => trivial
    | some epoch => exact ⟨ok.1, later ok.2.1, advances.entries ▸ ok.2.2.advance advances ok.2.1⟩
  | scanSwap cur new =>
    exact ⟨ok.1, later ok.2.1, advances.entries ▸ ok.2.2.advance advances ok.2.1⟩
  | idle => trivial
  | acquireGlobal => trivial
  | releaseWrite => trivial
  | refreshGlobal => trivial
  | bumpGlobal => trivial
  | bumpSwap epoch => trivial

theorem advances_refl (s : EpochManager) : Advances s s where
  entries := rfl
  globalEpoch := Nat.le.refl
  published _ inUse := .inl ⟨inUse, rfl⟩

theorem advances_setBackend (s : EpochManager) (tid : Tid) (be : EpochBackend) :
    Advances s (s.setBackend tid be) where
  entries := rfl
  globalEpoch := Nat.le.refl
  published _ inUse := .inl ⟨inUse, rfl⟩

theorem backends_self (s : EpochManager) (tid : Tid) (be : EpochBackend) :
    (s.setBackend tid be).backends tid = be :=
  update_self ..

theorem backends_of_ne (s : EpochManager) (be : EpochBackend) (diff : other ≠ tid) :
    (s.setBackend tid be).backends other = s.backends other :=
  update_of_ne diff ..

/-- A step that advances the shared variables and changes one backend keeps the invariant, if
the safe epoch stays before every entry in use and the backend says nothing wrong. -/
theorem Inv.step (inv : s.Inv) (tid : Tid) (be : EpochBackend) (advances : Advances s shared)
    (others : shared.backends = s.backends) (safe : shared.safeEpoch < shared.globalEpoch)
    (forward : s.safeEpoch ≤ shared.safeEpoch)
    (inUse : ∀ {e epoch}, shared.localEpochs e = some epoch →
      e < shared.numEpochEntries ∧ 1 ≤ epoch ∧ epoch ≤ shared.globalEpoch ∧
        epoch ≤ shared.published e)
    (published : ∀ {e}, (shared.localEpochs e).isSome → shared.safeEpoch < shared.published e)
    (entry : ∀ {e}, be.entry = some e → e < s.numEpochEntries)
    (pc : shared.PcOk be.pc)
    (returned : ∀ {safe}, be.safe = some safe → safe ≤ shared.safeEpoch) :
    (shared.setBackend tid be).Inv where
  entries := advances.entries ▸ inv.entries
  safe := safe
  inUse := inUse
  published := published
  entry {other slot} holds := by
    change slot < shared.numEpochEntries
    rw [advances.entries]
    by_cases same : other = tid
    · subst same
      rw [backends_self] at holds
      exact entry holds
    · rw [backends_of_ne shared be same, others] at holds
      exact inv.entry holds
  pc other := by
    refine PcOk.advance ?_ (advances_setBackend shared tid be)
    by_cases same : other = tid
    · subst same
      rw [backends_self]
      exact pc
    · rw [backends_of_ne shared be same, others]
      exact (inv.pc other).advance advances
  returned {other value} res := by
    by_cases same : other = tid
    · subst same
      rw [backends_self] at res
      exact returned res
    · rw [backends_of_ne shared be same, others] at res
      exact Nat.le_trans (inv.returned res) forward

theorem Inv.goTo (inv : s.Inv) (tid : Tid) {pc : EpochPc} (ok : s.PcOk pc) : (s.goTo tid pc).Inv :=
  inv.step tid _ (advances_refl s) rfl inv.safe Nat.le.refl inv.inUse inv.published
    inv.entry ok inv.returned

theorem Inv.endScan (inv : s.Inv) (tid : Tid) : (s.endScan tid s.safeEpoch).Inv :=
  inv.step tid _ (advances_refl s) rfl inv.safe Nat.le.refl inv.inUse inv.published
    inv.entry trivial fun res => Nat.le_of_eq (some.inj res).symm

theorem advances_publish (s : EpochManager) (e : Nat) (epoch : Epoch) :
    Advances s (s.publish e epoch) where
  entries := rfl
  globalEpoch := Nat.le.refl
  published other inUse := by
    by_cases same : other = e
    · subst same
      exact .inr (by simp [publish])
    · refine .inl ⟨?_, by simp [publish, update_of_ne same]⟩
      simpa [publish, update_of_ne same] using inUse

theorem Inv.publish (inv : s.Inv) (tid : Tid) (be : EpochBackend)
    (below : e < s.numEpochEntries) (positive : 1 ≤ epoch) (reached : epoch ≤ s.globalEpoch)
    (holds : ∀ {e}, be.entry = some e → e < s.numEpochEntries)
    (pc : (s.publish e epoch).PcOk be.pc) (returned : be.safe = (s.backends tid).safe) :
    ((s.publish e epoch).setBackend tid be).Inv := by
  refine inv.step tid be (advances_publish s e epoch) rfl inv.safe Nat.le.refl
    ?inUse ?published holds pc fun res => inv.returned (returned ▸ res)
  case inUse =>
    intro other value inUse
    by_cases same : other = e
    · subst same
      have written : epoch = value := by simpa [EpochManager.publish] using inUse
      subst written
      exact ⟨below, positive, reached, by simpa [EpochManager.publish] using reached⟩
    · have pre : s.localEpochs other = some value := by
        simpa [EpochManager.publish, update_of_ne same] using inUse
      simpa [EpochManager.publish, update_of_ne same] using inv.inUse pre
  case published =>
    intro other inUse
    rcases (advances_publish s e epoch).published other inUse with ⟨pre, kept⟩ | later
    · rw [kept]
      exact inv.published pre
    · exact Nat.lt_of_lt_of_le inv.safe later

theorem Inv.tryNext (inv : s.Inv) (tid : Tid) (e : Nat) (positive : 1 ≤ epoch)
    (reached : epoch ≤ s.globalEpoch) :
    (s.tryNext tid e epoch).Inv := by
  unfold EpochManager.tryNext
  split
  · exact inv.goTo tid trivial
  · exact inv.goTo tid ⟨Nat.mod_lt _ inv.entries, positive, reached⟩

theorem smaller_some (isNear : near epoch other) :
    smaller (some other) epoch = min epoch other := by
  simp only [smaller, epochPreceeds_eq isNear]
  by_cases pre : epoch < other
  · simp [pre, Nat.min_eq_left (Nat.le_of_lt pre)]
  · simp [pre, Nat.min_eq_right (Nat.le_of_not_lt pre)]

variable (inv : s.Inv)
include inv

theorem Inv.smaller (ok : s.PcOk (.scanRead e smallest))
    (allowed : s.inOrder (.scanRead e smallest)) (inUse : s.localEpochs e = some epoch) :
    s.PcOk (.scanRead (e + 1) (some (smaller smallest epoch))) := by
  obtain ⟨-, positive, reached, own⟩ := inv.inUse inUse
  cases smallest with
  | none =>
    -- Nothing in use was seen before, so the entries passed are compared by the condition.
    refine ⟨positive, reached, fun other below otherInUse => ?_⟩
    obtain ⟨otherEpoch, isOther⟩ := isSome_iff_exists.mp otherInUse
    rcases Nat.lt_succ_iff_lt_or_eq.mp below with passed | rfl
    · have pre : epoch ≤ otherEpoch := by
        simp only [inOrder, inUse, all_some, List.all_eq_true, mem_range] at allowed
        simpa [isOther] using allowed other passed
      exact Nat.le_trans pre (inv.inUse isOther).2.2.2
    · exact own
  | some other =>
    have isNear : near epoch other := by simpa [inOrder, inUse] using allowed
    rw [smaller_some isNear]
    refine ⟨Nat.le_min.mpr ⟨positive, ok.1⟩, Nat.le_trans (Nat.min_le_left ..) reached, ?_⟩
    intro passed below passedInUse
    rcases Nat.lt_succ_iff_lt_or_eq.mp below with pre | rfl
    · exact Nat.le_trans (Nat.min_le_right ..) (ok.2.2 passed pre passedInUse)
    · exact Nat.le_trans (Nat.min_le_left ..) own

theorem Inv.seen (ok : s.PcOk (.scanRead e smallest)) (allowed : s.inOrder (.scanRead e smallest)) :
    s.PcOk (.scanRead (e + 1) (s.seen smallest e)) := by
  unfold EpochManager.seen
  cases inUse : s.localEpochs e with
  | some epoch => exact inv.smaller ok allowed inUse
  | none =>
    cases smallest with
    | none => trivial
    | some other =>
      refine ⟨ok.1, ok.2.1, fun passed below passedInUse => ?_⟩
      rcases Nat.lt_succ_iff_lt_or_eq.mp below with pre | rfl
      · exact ok.2.2 passed pre passedInUse
      · simp [inUse] at passedInUse

theorem Inv.scanNext (tid : Tid) {seen : Option Epoch} (ok : s.PcOk (.scanRead (e + 1) seen)) :
    (if e + 1 < s.numEpochEntries then s.goTo tid (.scanRead (e + 1) seen)
      else s.goTo tid (.scanCurrent seen)).Inv := by
  split
  · exact inv.goTo tid ok
  next atEnd =>
    refine inv.goTo tid ?_
    cases seen with
    | none => trivial
    | some smallest =>
      refine ⟨ok.1, ok.2.1, fun other below => ok.2.2 other ?_⟩
      exact Nat.lt_of_lt_of_le below (Nat.le_of_not_lt atEnd)

theorem Inv.scanCurrent (tid : Tid) (ok : s.PcOk (.scanCurrent smallest))
    (allowed : s.inOrder (.scanCurrent smallest)) :
    (if epochPreceeds s.safeEpoch (s.newSafeEpoch smallest) then
        s.goTo tid (.scanSwap s.safeEpoch (s.newSafeEpoch smallest))
      else s.endScan tid s.safeEpoch).Inv := by
  split
  next ahead =>
    cases smallest with
    | none => simp [inOrder, ahead] at allowed
    | some epoch =>
      have isAhead : s.safeEpoch < epoch - 1 := by
        rw [newSafeEpoch, epochPreceeds_eq allowed] at ahead
        exact of_decide_eq_true ahead
      have again : epoch - 1 + 1 = epoch := Nat.sub_add_cancel ok.1
      refine inv.goTo tid ⟨isAhead, ?_, ?_⟩
      · exact Nat.lt_of_lt_of_le (Nat.lt_of_succ_le (Nat.le_of_eq again)) ok.2.1
      · rw [newSafeEpoch, again]
        exact ok.2.2
  · exact inv.endScan tid

theorem Inv.scanSwap (tid : Tid)
    {curSafeEpoch newSafeEpoch : Epoch} (ok : s.PcOk (.scanSwap curSafeEpoch newSafeEpoch))
    (allowed : s.inOrder (.scanSwap curSafeEpoch newSafeEpoch)) :
    (if raw s.safeEpoch = raw curSafeEpoch then
        { s with safeEpoch := newSafeEpoch }.endScan tid newSafeEpoch
      else s.endScan tid s.safeEpoch).Inv := by
  split
  next same =>
    have forward : s.safeEpoch ≤ newSafeEpoch := by
      rw [raw_inj allowed same]
      exact Nat.le_of_lt ok.1
    have advances : Advances s { s with safeEpoch := newSafeEpoch } :=
      ⟨rfl, Nat.le.refl, fun _ inUse => .inl ⟨inUse, rfl⟩⟩
    refine inv.step tid _ advances rfl ok.2.1 forward inv.inUse ?_ inv.entry trivial ?_
    · intro e inUse
      obtain ⟨epoch, isEpoch⟩ := isSome_iff_exists.mp inUse
      exact ok.2.2 e (inv.inUse isEpoch).1 inUse
    · exact fun res => Nat.le_of_eq (some.inj res).symm
  · exact inv.endScan tid

theorem Inv.release (tid : Tid) (e : Nat) :
    ({ s with localEpochs := update s.localEpochs e none }.setBackend tid
      { s.backends tid with entry := none, pc := .scanRead 0 none }).Inv := by
  have inUseBefore : ∀ {other epoch}, update s.localEpochs e none other = some epoch →
        s.localEpochs other = some epoch := by
    intro other epoch inUse
    by_cases same : other = e
    · simp [same] at inUse
    · simpa [update_of_ne same] using inUse
  have stillInUse : ∀ {other}, (update s.localEpochs e none other).isSome →
      (s.localEpochs other).isSome := by
    intro other inUse
    obtain ⟨epoch, isEpoch⟩ := isSome_iff_exists.mp inUse
    simp [inUseBefore isEpoch]
  have advances : Advances s { s with localEpochs := update s.localEpochs e none } :=
    ⟨rfl, Nat.le.refl, fun _ inUse => .inl ⟨stillInUse inUse, rfl⟩⟩
  exact inv.step tid _ advances rfl inv.safe Nat.le.refl
    (fun inUse => inv.inUse (inUseBefore inUse)) (fun inUse => inv.published (stillInUse inUse))
    nofun trivial inv.returned

theorem Inv.bump (tid : Tid) : ({ s with globalEpoch := s.globalEpoch + 1 }.goTo tid
      (.bumpWrite (s.globalEpoch + 1))).Inv := by
  have advances : Advances s { s with globalEpoch := s.globalEpoch + 1 } :=
    ⟨rfl, Nat.le_succ _, fun _ inUse => .inl ⟨inUse, rfl⟩⟩
  refine inv.step tid _ advances rfl (Nat.lt_succ_of_lt inv.safe) Nat.le.refl ?_
    inv.published inv.entry ⟨Nat.le_add_left 1 _, Nat.le.refl⟩ inv.returned
  intro e epoch inUse
  obtain ⟨below, positive, reached, published⟩ := inv.inUse inUse
  exact ⟨below, positive, Nat.le_succ_of_le reached, published⟩

theorem Inv.access (tid : Tid) (allowed : s.inOrder (s.backends tid).pc)
    (stepped : s.access tid = some s') : s'.Inv := by
  have ok := inv.pc tid
  have positive : 1 ≤ s.globalEpoch := Nat.lt_of_le_of_lt (Nat.zero_le _) inv.safe
  unfold EpochManager.access at stepped
  generalize isPc : (s.backends tid).pc = pc at ok allowed stepped
  cases pc with
  | idle => simp at stepped
  | acquireGlobal =>
    cases stepped
    exact inv.goTo tid ⟨Nat.mod_lt _ inv.entries, positive, Nat.le.refl⟩
  | acquireRead e epoch =>
    simp only at stepped
    split at stepped <;> cases stepped
    · exact inv.tryNext tid e ok.2.1 ok.2.2
    · exact inv.goTo tid ok
  | acquireSwap e epoch =>
    simp only at stepped
    split at stepped <;> cases stepped
    · exact inv.tryNext tid e ok.2.1 ok.2.2
    · refine inv.publish tid _ ok.1 ok.2.1 ok.2.2 (fun holds => ?_) trivial rfl
      cases holds
      exact ok.1
  | releaseWrite =>
    obtain ⟨e, -, rfl⟩ := map_eq_some_iff.mp stepped
    exact inv.release tid e
  | refreshGlobal =>
    obtain ⟨e, -, rfl⟩ := map_eq_some_iff.mp stepped
    split
    · exact inv.goTo tid trivial
    · exact inv.goTo tid ⟨positive, Nat.le.refl⟩
  | refreshWrite epoch =>
    obtain ⟨e, holds, rfl⟩ := map_eq_some_iff.mp stepped
    exact inv.publish tid _ (inv.entry holds) ok.1 ok.2 inv.entry trivial rfl
  | bumpGlobal =>
    cases stepped
    exact inv.goTo tid trivial
  | bumpSwap epoch =>
    simp only at stepped
    split at stepped <;> cases stepped
    · exact inv.bump tid
    · exact inv.goTo tid trivial
  | bumpWrite epoch =>
    cases holds : (s.backends tid).entry with
    | none =>
      simp only [holds] at stepped
      cases stepped
      exact inv.goTo tid trivial
    | some e =>
      simp only [holds] at stepped
      cases stepped
      exact inv.publish tid _ (inv.entry holds) ok.1 ok.2 inv.entry trivial rfl
  | scanRead e smallest =>
    cases stepped
    exact inv.scanNext tid (inv.seen ok allowed)
  | scanCurrent smallest =>
    cases stepped
    exact inv.scanCurrent tid ok allowed
  | scanSwap cur new =>
    cases stepped
    exact inv.scanSwap tid ok allowed

end EpochManager

def EpochLabel.accesses : EpochLabel → Option Tid
  | .step tid => some tid
  | _ => none

def ScansInOrder (s : EpochManager) (label : EpochLabel) : Prop :=
  label.accesses.all (fun tid => s.inOrder (s.backends tid).pc) = true
  deriving Decidable

variable {s : EpochManager}

theorem epochNext_inv {label : EpochLabel} (inv : s.Inv)
    (allowed : ScansInOrder s label) (stepped : epochNext s label = some s') :
    s'.Inv := by
  rcases epochNext_cases stepped with rfl | ⟨pc, starts, rfl⟩ | ⟨tid, rfl, accessed⟩
  · exact inv
  · exact inv.goTo _ (by cases starts <;> trivial)
  · exact inv.access tid allowed accessed

theorem epochShmemInit_inv (present : 0 < maxBackends) : (epochShmemInit maxBackends).Inv where
  entries := present
  safe := Nat.zero_lt_one
  inUse := nofun
  published := nofun
  entry := nofun
  pc _ := trivial
  returned := nofun

theorem epochRun_inv (present : 0 < maxBackends)
    (meets : Run.Meets epochNext ScansInOrder (epochShmemInit maxBackends) schedule)
    (reached : Run.run epochNext (epochShmemInit maxBackends) schedule = some s) : s.Inv :=
  Run.invariant EpochManager.Inv (fun inv allowed stepped => epochNext_inv inv allowed stepped)
    (epochShmemInit_inv present) meets reached

/-- An epoch that is safe, or that a returned safe epoch lets the caller reclaim, ended before
every entry in use was published. -/
theorem safe_epoch_before_published {maxBackends : Nat} {schedule : List EpochLabel}
    {s : EpochManager} (present : 0 < maxBackends)
    (meets : Run.Meets epochNext ScansInOrder (epochShmemInit maxBackends) schedule)
    (reached : Run.run epochNext (epochShmemInit maxBackends) schedule = some s) {epoch : Epoch}
    (safe : epoch ≤ s.safeEpoch ∨ ∃ tid returned, (s.backends tid).safe = some returned ∧
      near epoch returned = true ∧ epochPreceedsOrEqualsTo epoch returned = true) {e : Nat}
    (inUse : (s.localEpochs e).isSome = true) :
    epoch < s.published e := by
  have inv := epochRun_inv present meets reached
  refine Nat.lt_of_le_of_lt ?_ (inv.published inUse)
  rcases safe with isSafe | ⟨tid, returned, res, isNear, preceeds⟩
  · exact isSafe
  · rw [epochPreceedsOrEqualsTo_eq isNear] at preceeds
    exact Nat.le_trans (of_decide_eq_true preceeds) (inv.returned res)

def acquires (tid : Tid) : List EpochLabel := [.acquire tid, .step tid, .step tid, .step tid]

def bumps (tid : Tid) : List EpochLabel := [.bump tid, .step tid, .step tid, .step tid]

/-- Two backends acquire, one ends the epoch, and the other leaves and computes the safe epoch. -/
def releasesAfterBump : List EpochLabel :=
  acquires 0 ++ acquires 1 ++ bumps 1 ++ (.release 0 :: replicate 5 (.step 0))

theorem releasesAfterBump_safe :
    (Run.last epochNext (epochShmemInit 2) releasesAfterBump).safeEpoch = 1 ∧
      1 < (Run.last epochNext (epochShmemInit 2) releasesAfterBump).published 1 :=
  ⟨by decide, safe_epoch_before_published (by decide) (by decide) (Run.run_last (by decide))
      (Or.inl (by decide)) (by decide)⟩

/-- A scan passes the free entry of backend 0.  The backend then acquires it in epoch 1, which
backend 1 ends before the scan comes to its entry. -/
def acquiresBehindScan : List EpochLabel :=
  acquires 1 ++ acquires 2 ++ [.release 2, .step 2, .step 2] ++ acquires 0 ++ bumps 1 ++
    replicate 4 (.step 2)

/-- Epoch 1 becomes safe while backend 0 is still inside the period that it entered in
epoch 1. -/
theorem acquiresBehindScan_unsafe :
    (Run.run epochNext (epochShmemInit 3) acquiresBehindScan).isSome = true ∧
      (Run.last epochNext (epochShmemInit 3) acquiresBehindScan).safeEpoch = 1 ∧
      ((Run.last epochNext (epochShmemInit 3) acquiresBehindScan).backends 0).entry = some 0 ∧
      (Run.last epochNext (epochShmemInit 3) acquiresBehindScan).localEpochs 0 = some 1 ∧
      (Run.last epochNext (epochShmemInit 3) acquiresBehindScan).published 0 = 1 := by
  decide

end PgAqp.Mmgr
