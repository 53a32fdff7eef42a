import PgAqp.Mmgr.EpochSafety

/-!
# Which entry of the epoch manager a backend holds

The entry id of a backend is a local variable.  `epoch_acquire` sets it and
`epoch_release` clears it, and every write to the array of local epochs uses it.
An entry that a backend holds is in the array, and no other backend holds it.
-/

namespace PgAqp.Mmgr

open Library Function Option EpochManager

/-- The index at which the next access of a backend writes the array of local epochs, if it writes
there; the index is the entry id of the backend unless it takes an entry. -/
def EpochManager.localWrite (s : EpochManager) (tid : Tid) : Option (Option Nat) :=
  match (s.backends tid).pc with
  | .acquireSwap e _ => if (s.localEpochs e).isSome then none else some (some e)
  | .releaseWrite => some (s.backends tid).entry
  | .refreshWrite _ => some (s.backends tid).entry
  | .bumpWrite _ => some (s.backends tid).entry
  | _ => none

/-- What the next access of a backend takes for granted about its entry. -/
def EpochBackend.EntryOk (numEpochEntries : Nat) (be : EpochBackend) : Prop :=
  match be.pc with
  | .acquireGlobal => be.entry = none
  | .acquireRead e _ => e < numEpochEntries ∧ be.entry = none
  | .acquireSwap e _ => e < numEpochEntries ∧ be.entry = none
  | .releaseWrite => be.entry.isSome = true
  | .refreshGlobal => be.entry.isSome = true
  | .refreshWrite _ => be.entry.isSome = true
  | .bumpGlobal => be.entry.isSome = true
  | .bumpSwap _ => be.entry.isSome = true
  | .bumpWrite _ => be.entry.isSome = true
  | _ => True

namespace EpochManager

structure Owned (s : EpochManager) : Prop where
  entries : 0 < s.numEpochEntries
  inside : ∀ {tid e}, (s.backends tid).entry = some e → e < s.numEpochEntries
  inUse : ∀ {tid e}, (s.backends tid).entry = some e →
    (s.localEpochs e).isSome = true
  unique : ∀ {tid other e}, (s.backends tid).entry = some e →
    (s.backends other).entry = some e → tid = other
  pc : ∀ tid, (s.backends tid).EntryOk s.numEpochEntries

variable {s next : EpochManager} {tid : Tid}

theorem holds_setBackend {shared : EpochManager} (others : shared.backends = s.backends)
    (holds : ((shared.setBackend tid be).backends other).entry = some e) :
    other = tid ∧ be.entry = some e ∨ other ≠ tid ∧ (s.backends other).entry = some e := by
  by_cases same : other = tid
  · rw [same, backends_self] at holds
    exact .inl ⟨same, holds⟩
  · rw [backends_of_ne shared be same, others] at holds
    exact .inr ⟨same, holds⟩

variable (owned : s.Owned)
include owned

theorem Owned.step {shared : EpochManager} (tid : Tid)
    (be : EpochBackend) (es : shared.numEpochEntries = s.numEpochEntries)
    (others : shared.backends = s.backends)
    (mine : ∀ {e}, be.entry = some e → e < s.numEpochEntries ∧ (shared.localEpochs e).isSome ∧
      ∀ other, other ≠ tid → (s.backends other).entry ≠ some e)
    (kept : ∀ {other e}, other ≠ tid → (s.backends other).entry = some e →
      (shared.localEpochs e).isSome)
    (pc : be.EntryOk s.numEpochEntries) : (shared.setBackend tid be).Owned where
  entries := Nat.lt_of_lt_of_eq owned.entries es.symm
  inside holds := by
    refine Nat.lt_of_lt_of_eq ?_ es.symm
    rcases holds_setBackend others holds with ⟨-, holds⟩ | ⟨-, holds⟩
    · exact (mine holds).1
    · exact owned.inside holds
  inUse holds := by
    rcases holds_setBackend others holds with ⟨-, holds⟩ | ⟨diff, holds⟩
    · exact (mine holds).2.1
    · exact kept diff holds
  unique holds holds' := by
    rcases holds_setBackend others holds with ⟨same, here⟩ | ⟨diff, here⟩
    · rcases holds_setBackend others holds' with ⟨same', -⟩ | ⟨diff, there⟩
      · exact same.trans same'.symm
      · exact absurd there ((mine here).2.2 _ diff)
    · rcases holds_setBackend others holds' with ⟨-, there⟩ | ⟨-, there⟩
      · exact absurd here ((mine there).2.2 _ diff)
      · exact owned.unique here there
  pc other := by
    change EpochBackend.EntryOk shared.numEpochEntries _
    rw [es]
    by_cases same : other = tid
    · rw [same, backends_self]
      exact pc
    · rw [backends_of_ne shared be same, others]
      exact owned.pc other

/-- A backend that keeps its entry, if it has one, or gives it up, while the entries stay as they
are. -/
theorem Owned.keep {shared : EpochManager} (tid : Tid) (be : EpochBackend)
    (es : shared.numEpochEntries = s.numEpochEntries) (others : shared.backends = s.backends)
    (epochs : shared.localEpochs = s.localEpochs) (same : be.entry = (s.backends tid).entry)
    (pc : be.EntryOk s.numEpochEntries) : (shared.setBackend tid be).Owned := by
  refine owned.step tid be es others ?_ ?_ pc
  · intro e holds
    rw [same] at holds
    refine ⟨owned.inside holds, by rw [epochs]; exact owned.inUse holds, ?_⟩
    intro other diff holds'
    exact diff (owned.unique holds' holds)
  · intro other e _ holds
    rw [epochs]
    exact owned.inUse holds

theorem Owned.goTo (tid : Tid) {pc : EpochPc}
    (ok : EpochBackend.EntryOk s.numEpochEntries { s.backends tid with pc := pc }) :
    (s.goTo tid pc).Owned :=
  owned.keep tid _ rfl rfl rfl rfl ok

theorem Owned.publish (tid : Tid) (be : EpochBackend) (inside : e < s.numEpochEntries)
    (free : ∀ other, other ≠ tid → (s.backends other).entry ≠ some e)
    (holds : be.entry = some e) (pc : be.EntryOk s.numEpochEntries) :
    ((s.publish e epoch).setBackend tid be).Owned := by
  refine owned.step tid be rfl rfl ?_ ?_ pc
  · intro other isEntry
    cases some.inj (holds.symm.trans isEntry)
    refine ⟨inside, ?_, free⟩
    simp [EpochManager.publish]
  · intro other slot diff holdsSlot
    have different : slot ≠ e := by
      rintro rfl
      exact free other diff holdsSlot
    simp only [EpochManager.publish, update_of_ne different]
    exact owned.inUse holdsSlot

theorem Owned.others (holds : (s.backends tid).entry = some e) :
    ∀ other, other ≠ tid → (s.backends other).entry ≠ some e :=
  fun _ diff holds' => diff (owned.unique holds' holds)

theorem Owned.tryNext (tid : Tid) (e : Nat)
    (globalEpoch : Epoch) (none : (s.backends tid).entry = none) :
    (s.tryNext tid e globalEpoch).Owned := by
  unfold EpochManager.tryNext
  split
  · exact owned.goTo tid trivial
  · exact owned.goTo tid ⟨Nat.mod_lt _ owned.entries, none⟩

theorem Owned.access (tid : Tid) (done : s.access tid = some next) : next.Owned := by
  have ok := owned.pc tid
  unfold EpochManager.access at done
  unfold EpochBackend.EntryOk at ok
  cases isPc : (s.backends tid).pc <;> simp only [isPc] at ok done
  case idle => cases done
  case acquireGlobal =>
    cases done
    exact owned.goTo tid ⟨Nat.mod_lt _ owned.entries, ok⟩
  case acquireRead e globalEpoch =>
    split at done <;> cases done
    · exact owned.tryNext tid e globalEpoch ok.2
    · exact owned.goTo tid ok
  case acquireSwap e globalEpoch =>
    split at done <;> cases done
    · exact owned.tryNext tid e globalEpoch ok.2
    next notUsed =>
      refine owned.publish tid _ ok.1 ?_ rfl trivial
      exact fun other _ holds => notUsed (owned.inUse holds)
  case releaseWrite =>
    obtain ⟨e, holds, rfl⟩ := map_eq_some_iff.mp done
    refine owned.step tid _ rfl rfl ?_ ?_ trivial
    · intro other isEntry
      cases isEntry
    · intro other slot diff holdsSlot
      have different : slot ≠ e := by
        rintro rfl
        exact owned.others holds other diff holdsSlot
      simp only [update_of_ne different]
      exact owned.inUse holdsSlot
  case refreshGlobal =>
    obtain ⟨e, holds, rfl⟩ := map_eq_some_iff.mp done
    split
    · exact owned.goTo tid trivial
    · exact owned.goTo tid ok
  case refreshWrite globalEpoch =>
    obtain ⟨e, holds, rfl⟩ := map_eq_some_iff.mp done
    exact owned.publish tid _ (owned.inside holds) (owned.others holds) holds trivial
  case bumpGlobal =>
    cases done
    exact owned.goTo tid ok
  case bumpSwap globalEpoch =>
    split at done <;> cases done
    · exact owned.keep tid _ rfl rfl rfl rfl ok
    · exact owned.goTo tid ok
  case bumpWrite newGlobalEpoch =>
    split at done <;> cases done
    · exact owned.goTo tid trivial
    · next e holds =>
        exact owned.publish tid _ (owned.inside holds) (owned.others holds) holds trivial
  -- a scan changes no entry
  all_goals
    cases done
    split <;> exact owned.keep tid _ rfl rfl rfl rfl trivial

omit owned

theorem access_shape (done : s.access tid = some next) :
    ∃ (shared : EpochManager) (be : EpochBackend), next = shared.setBackend tid be ∧
      shared.backends = s.backends := by
  unfold access tryNext at done
  repeat' split at done
  all_goals
    first
    | cases done
    | obtain ⟨e, -, rfl⟩ := map_eq_some_iff.mp done
    try split
  all_goals exact ⟨_, _, rfl, rfl⟩

theorem access_others (done : s.access tid = some next) (diff : other ≠ tid) :
    next.backends other = s.backends other := by
  obtain ⟨shared, be, rfl, same⟩ := access_shape done
  rw [backends_of_ne shared be diff, same]

/-- A call of the epoch manager by a backend that is not in one; `epoch_bump` needs an entry. -/
theorem Owned.call (owned : s.Owned)
    (holds : ∀ tid, label = .bump tid → (s.backends tid).entry.isSome)
    (done : epochNext s label = some next) : next.Owned := by
  rcases epochNext_cases done with rfl | ⟨pc, starts, rfl⟩ | ⟨tid, -, accessed⟩
  · exact owned
  · refine owned.goTo _ ?_
    cases starts with
    | acquire none => exact none
    | release some => exact some
    | refresh some => exact some
    | bump => exact holds _ rfl
    | refreshSafeEpoch => trivial
  · exact owned.access tid accessed

/-- A write goes to an entry of the array that the backend holds, or takes by this write, and that
no other backend holds. -/
theorem Owned.localWrite (owned : s.Owned) (done : s.access tid = some next)
    (write : s.localWrite tid = some i) :
    ∃ e, i = some e ∧ e < s.numEpochEntries ∧
      ((s.backends tid).entry = some e ∨ (next.backends tid).entry = some e) ∧
      ∀ other, other ≠ tid → (s.backends other).entry ≠ some e := by
  have ok := owned.pc tid
  have mine (isSome : (s.backends tid).entry.isSome)
      (isIndex : some (s.backends tid).entry = some i) :
      ∃ e, i = some e ∧ e < s.numEpochEntries ∧
        ((s.backends tid).entry = some e ∨ (next.backends tid).entry = some e) ∧
        ∀ other, other ≠ tid → (s.backends other).entry ≠ some e := by
    obtain ⟨e, holds⟩ := isSome_iff_exists.mp isSome
    exact ⟨e, (some.inj isIndex).symm.trans holds, owned.inside holds, .inl holds,
      owned.others holds⟩
  unfold EpochBackend.EntryOk at ok
  unfold EpochManager.localWrite at write
  cases isPc : (s.backends tid).pc <;> simp only [isPc, reduceCtorEq] at ok write
  case acquireSwap e globalEpoch =>
    obtain ⟨notUsed, ⟨⟩⟩ := ite_none_left_eq_some.mp write
    refine ⟨e, rfl, ok.1, .inr ?_, fun other _ holds => notUsed (owned.inUse holds)⟩
    unfold EpochManager.access at done
    simp only [isPc, if_neg notUsed, some.injEq] at done
    rw [← done, backends_self]
  all_goals exact mine ok write

/-- The backend has no entry and is at most in a scan. -/
def Released (s : EpochManager) (tid : Tid) : Prop :=
  (s.backends tid).entry = none ∧
    match (s.backends tid).pc with
    | .idle => True
    | .scanRead _ _ => True
    | .scanCurrent _ => True
    | .scanSwap _ _ => True
    | _ => False

theorem released_of_releaseWrite
    (isPc : (s.backends tid).pc = .releaseWrite) (done : s.access tid = some next) :
    next.Released tid := by
  unfold access at done
  simp only [isPc] at done
  obtain ⟨e, -, rfl⟩ := map_eq_some_iff.mp done
  unfold Released
  rw [backends_self]
  exact ⟨rfl, trivial⟩

theorem Released.access (released : s.Released tid)
    (done : s.access tid = some next) : next.Released tid := by
  obtain ⟨none, scans⟩ := released
  unfold EpochManager.access at done
  split at done
  all_goals rename_i isPc
  all_goals simp only [isPc] at scans
  · cases done
  all_goals
    cases done
    unfold Released
    split <;> simp only [goTo, endScan, backends_self, none, and_self]

end EpochManager

theorem epochNext_others (done : epochNext s label = some next) (diff : other ≠ label.tid) :
    next.backends other = s.backends other := by
  rcases epochNext_cases done with rfl | ⟨pc, -, rfl⟩ | ⟨tid, rfl, accessed⟩
  · rfl
  · exact backends_of_ne s _ diff
  · exact access_others accessed diff

/-! ## Every backend finds the entry where it starts to look -/

/-- The accesses that `epoch_acquire` still makes if it finds a free entry at once. -/
def EpochPc.acquireLeft : EpochPc → Nat
  | .acquireGlobal => 3
  | .acquireRead _ _ => 2
  | .acquireSwap _ _ => 1
  | _ => 0

/-- `MyBackendId` is from 1 to the number of entries, and `epoch_bump` needs an entry. -/
def Admitted (s : EpochManager) (label : EpochLabel) : Prop :=
  (1 ≤ label.tid ∧ label.tid ≤ s.numEpochEntries) ∧
    (label = .bump label.tid → (s.backends label.tid).entry.isSome = true)
  deriving Decidable

/-- A backend holds and looks at no entry but the first one that it tries. -/
def EpochBackend.AtHome (home : Nat) (be : EpochBackend) : Prop :=
  (∀ {e}, be.entry = some e → e = home) ∧
    match be.pc with
    | .acquireRead e _ => e = home
    | .acquireSwap e _ => e = home
    | _ => True

namespace EpochManager

structure Homed (s : EpochManager) : Prop where
  owned : s.Owned
  home : ∀ tid, (s.backends tid).AtHome (tid % s.numEpochEntries)
  held : ∀ {e}, (s.localEpochs e).isSome = true →
    ∃ tid, (1 ≤ tid ∧ tid ≤ s.numEpochEntries) ∧ (s.backends tid).entry = some e

theorem home_unique (range : 1 ≤ first ∧ first ≤ es)
    (range' : 1 ≤ second ∧ second ≤ es) (same : first % es = second % es) :
    first = second := by
  rcases Nat.lt_or_eq_of_le range.2 with less | rfl
  · rcases Nat.lt_or_eq_of_le range'.2 with less' | rfl
    · rwa [Nat.mod_eq_of_lt less, Nat.mod_eq_of_lt less'] at same
    · rw [Nat.mod_self, Nat.mod_eq_of_lt less] at same
      omega
  · rcases Nat.lt_or_eq_of_le range'.2 with less' | same'
    · rw [Nat.mod_self, Nat.mod_eq_of_lt less'] at same
      omega
    · exact same'.symm

variable {s next shared : EpochManager} {tid : Tid} (homed : s.Homed)
  (range : 1 ≤ tid ∧ tid ≤ s.numEpochEntries)
include homed range

theorem Homed.free (none : (s.backends tid).entry = none) :
    ¬ (s.localEpochs (tid % s.numEpochEntries)).isSome := by
  intro inUse
  obtain ⟨other, inRange, holds⟩ := homed.held inUse
  cases home_unique range inRange ((homed.home other).1 holds)
  cases none.symm.trans holds

theorem Homed.step (owned : (shared.setBackend tid be).Owned)
    (es : shared.numEpochEntries = s.numEpochEntries)
    (others : shared.backends = s.backends)
    (home : be.AtHome (tid % s.numEpochEntries))
    (held : ∀ {e}, (shared.localEpochs e).isSome → be.entry = some e ∨
      (s.localEpochs e).isSome ∧ ((s.backends tid).entry = some e → be.entry = some e)) :
    (shared.setBackend tid be).Homed where
  owned := owned
  home other := by
    change EpochBackend.AtHome (other % shared.numEpochEntries) _
    rw [es]
    by_cases same : other = tid
    · rw [same, backends_self]
      exact home
    · rw [backends_of_ne shared be same, others]
      exact homed.home other
  held {e} inUse := by
    change ∃ holder, (1 ≤ holder ∧ holder ≤ shared.numEpochEntries) ∧ _
    rw [es]
    by_cases mine : be.entry = some e
    · exact ⟨tid, range, by rw [backends_self, mine]⟩
    · obtain ⟨pre, kept⟩ := (held inUse).resolve_left mine
      obtain ⟨holder, inRange, holds⟩ := homed.held pre
      have diff : holder ≠ tid := by
        rintro rfl
        exact mine (kept holds)
      exact ⟨holder, inRange, by rw [backends_of_ne shared be diff, others, holds]⟩

omit homed range in
theorem inUse_publish (inUse : ((s.publish e epoch).localEpochs slot).isSome) :
    slot = e ∨ (s.localEpochs slot).isSome := by
  by_cases same : slot = e
  · exact .inl same
  · exact .inr (by simpa [publish, update_of_ne same] using inUse)

theorem Homed.access (done : s.access tid = some next) : next.Homed := by
  have owned := homed.owned.access tid done
  have ok := homed.owned.pc tid
  have home := homed.home tid
  have written {e epoch slot} (holds : (s.backends tid).entry = some e)
      (inUse : ((s.publish e epoch).localEpochs slot).isSome) :
      (s.backends tid).entry = some slot ∨ (s.localEpochs slot).isSome ∧
        ((s.backends tid).entry = some slot → (s.backends tid).entry = some slot) := by
    rcases inUse_publish inUse with rfl | pre
    · exact .inl holds
    · exact .inr ⟨pre, id⟩
  unfold EpochManager.access at done
  unfold EpochBackend.EntryOk at ok
  unfold EpochBackend.AtHome at home
  cases isPc : (s.backends tid).pc <;> simp only [isPc] at ok home done
  case idle => cases done
  case acquireGlobal =>
    cases done
    exact homed.step range owned rfl rfl ⟨home.1, rfl⟩ fun inUse => .inr ⟨inUse, id⟩
  case acquireRead e globalEpoch =>
    rw [home.2, if_neg (homed.free range ok.2)] at done
    cases done
    exact homed.step range owned rfl rfl ⟨home.1, rfl⟩ fun inUse => .inr ⟨inUse, id⟩
  case acquireSwap e globalEpoch =>
    rw [home.2, if_neg (homed.free range ok.2)] at done
    cases done
    refine homed.step range owned rfl rfl ⟨fun same => (some.inj same).symm, trivial⟩ ?_
    intro slot inUse
    rcases inUse_publish inUse with rfl | pre
    · exact .inl rfl
    · exact .inr ⟨pre, fun holds => by cases ok.2.symm.trans holds⟩
  case releaseWrite =>
    obtain ⟨e, holds, rfl⟩ := map_eq_some_iff.mp done
    refine homed.step range owned rfl rfl ⟨nofun, trivial⟩ fun {slot} inUse => .inr ?_
    have different : slot ≠ e := by
      rintro rfl
      simp at inUse
    refine ⟨by simpa [update_of_ne different] using inUse, fun mine => ?_⟩
    exact absurd (some.inj (mine.symm.trans holds)) different
  case refreshWrite globalEpoch =>
    obtain ⟨e, holds, rfl⟩ := map_eq_some_iff.mp done
    exact homed.step range owned rfl rfl ⟨home.1, trivial⟩ (written holds)
  case bumpWrite newGlobalEpoch =>
    split at done <;> cases done
    · exact homed.step range owned rfl rfl ⟨home.1, trivial⟩ fun inUse => .inr ⟨inUse, id⟩
    · next holds => exact homed.step range owned rfl rfl ⟨home.1, trivial⟩ (written holds)
  case refreshGlobal =>
    obtain ⟨e, holds, rfl⟩ := map_eq_some_iff.mp done
    revert owned
    split <;> exact fun owned =>
      homed.step range owned rfl rfl ⟨home.1, trivial⟩ fun inUse => .inr ⟨inUse, id⟩
  case bumpSwap globalEpoch =>
    split at done <;> cases done <;>
      exact homed.step range owned rfl rfl ⟨home.1, trivial⟩ fun inUse => .inr ⟨inUse, id⟩
  -- the other accesses write no entry
  all_goals
    cases done
    revert owned
    try split
  all_goals exact fun owned =>
    homed.step range owned rfl rfl ⟨home.1, trivial⟩ fun inUse => .inr ⟨inUse, id⟩

/-- `epoch_acquire` does not come to a second entry, and its last access takes the first one. -/
theorem Homed.acquire (acquiring : 0 < (s.backends tid).pc.acquireLeft) :
    ∃ next, s.access tid = some next ∧
      (next.backends tid).pc.acquireLeft + 1 = (s.backends tid).pc.acquireLeft ∧
      ((next.backends tid).pc.acquireLeft = 0 →
        next.backends tid = { s.backends tid with
          entry := some (tid % s.numEpochEntries), pc := .idle }) := by
  have ok := homed.owned.pc tid
  have home := homed.home tid
  unfold EpochBackend.EntryOk at ok
  unfold EpochBackend.AtHome at home
  unfold EpochManager.access
  cases isPc : (s.backends tid).pc <;> simp only [isPc] at ok home acquiring ⊢
  case acquireGlobal =>
    refine ⟨_, rfl, ?_⟩
    rw [goTo, backends_self]
    exact ⟨rfl, nofun⟩
  case acquireRead e globalEpoch =>
    rw [home.2, if_neg (homed.free range ok.2)]
    refine ⟨_, rfl, ?_⟩
    rw [goTo, backends_self]
    exact ⟨rfl, nofun⟩
  case acquireSwap e globalEpoch =>
    rw [home.2, if_neg (homed.free range ok.2)]
    refine ⟨_, rfl, ?_⟩
    rw [backends_self]
    exact ⟨rfl, fun _ => rfl⟩
  all_goals exact absurd acquiring (Nat.lt_irrefl 0)

omit range in
theorem Homed.call (admitted : Admitted s label)
    (done : epochNext s label = some next) : next.Homed := by
  have owned := homed.owned.call (fun _ isBump => by subst isBump; exact admitted.2 rfl) done
  rcases epochNext_cases done with rfl | ⟨pc, starts, rfl⟩ | ⟨tid, rfl, accessed⟩
  · exact homed
  · refine homed.step admitted.1 owned rfl rfl ⟨(homed.home _).1, ?_⟩ fun inUse => .inr ⟨inUse, id⟩
    cases starts <;> trivial
  · exact homed.access admitted.1 accessed

end EpochManager

/-- In every run of backends with ids from 1 to the number of entries, a call of `epoch_acquire`
returns at once with the entry that the backend holds, or it returns after three accesses with an
entry; no other backend holds that entry. -/
theorem acquire_succeeds {maxBackends : Nat} {schedule : List EpochLabel} {s : EpochManager}
    (present : 0 < maxBackends)
    (meets : Run.Meets epochNext Admitted (epochShmemInit maxBackends) schedule)
    (reached : Run.run epochNext (epochShmemInit maxBackends) schedule = some s) {tid : Tid}
    (range : 1 ≤ tid ∧ tid ≤ s.numEpochEntries) :
    ((s.backends tid).pc = .idle → epochNext s (.acquire tid) =
      if (s.backends tid).entry.isSome then some s
      else some (s.goTo tid .acquireGlobal)) ∧
    (0 < (s.backends tid).pc.acquireLeft → ∃ next, s.access tid = some next ∧
      (next.backends tid).pc.acquireLeft < (s.backends tid).pc.acquireLeft ∧
      ((next.backends tid).pc.acquireLeft = 0 →
        (next.backends tid).pc = .idle ∧ (next.backends tid).entry.isSome = true)) ∧
    ∀ {other e}, (s.backends tid).entry = some e → other ≠ tid →
      (s.backends other).entry ≠ some e := by
  have initial : (epochShmemInit maxBackends).Homed :=
    ⟨⟨present, nofun, nofun, nofun, fun _ => trivial⟩, fun _ => ⟨nofun, trivial⟩, nofun⟩
  have homed : s.Homed :=
    Run.invariant EpochManager.Homed (fun homed => homed.call) initial meets reached
  refine ⟨fun idle => if_pos idle, fun acquiring => ?_, fun holds => homed.owned.others holds _⟩
  obtain ⟨next, done, less, last⟩ := homed.acquire range acquiring
  refine ⟨next, done, by omega, fun isLast => ?_⟩
  rw [last isLast]
  exact ⟨rfl, rfl⟩

/-- The first of two backends gives its entry back and looks for one again. -/
def acquiresAgain : List EpochLabel :=
  [.acquire 1, .acquire 2, .step 1, .step 2, .step 1, .step 1, .step 2, .release 1, .step 1,
    .step 1, .step 1, .step 1, .acquire 1]

theorem acquiresAgain_succeeds :
    ∃ next, (Run.last epochNext (epochShmemInit 2) acquiresAgain).access 1 = some next ∧
      (next.backends 1).pc.acquireLeft < 3 := by
  obtain ⟨next, done, less, -⟩ := (acquire_succeeds (by decide) (by decide)
    (Run.run_last (by decide : (Run.run epochNext (epochShmemInit 2) acquiresAgain).isSome = true))
    (by decide : 1 ≤ 1 ∧ _)).2.1 (by decide)
  exact ⟨next, done, less⟩

end PgAqp.Mmgr
