import PgAqp.VersionStore.Pivot

/-!
# What the aggregate and the versions of a pivot stand for

The aggregate is the sum of the entries that are still on their leaf pages,
together with what a vacuum has not yet subtracted.  The value of a version node
is the sum of the entries whose insertion has added to it.
-/

namespace PgAqp.VersionStore

open Hash (Addr Tid)
open Library Function List Option Pivot Entry

def Pivot.sum (s : Pivot) (weight : Entry → Nat) : Nat :=
  ∑ i ∈ Finset.range s.count, weight (s.entries i)

def Entry.presentValue (e : Entry) : Nat := if e.present then e.value else 0

def Entry.valueIn (addr : Addr) (e : Entry) : Nat :=
  if e.node = some addr then e.value else 0

/-- The version store and the backend of an insertion that is under way. -/
def Finding (versions : State) (tid : Tid) (xmin : Xid) : Prop :=
  (∃ f, versions.threads tid = .inserting f ∧ f.xmin = xmin) ∨
    ∃ addr, versions.threads tid = .returned addr ∧ versions.store.InChain addr ∧
      versions.store.xminOf addr = xmin

structure WriterOk (versions : State) (running : List Xid) (tid : Tid) (e : Entry) : Prop where
  notAdded : e.node = none
  isRunning : e.xmin ∈ running
  finding : Finding versions tid e.xmin

structure NodeOk (versions : State) (xmin : Xid) (addr : Addr) : Prop where
  published : Published versions addr
  sameXmin : versions.store.xminOf addr = xmin
  kept : versions.store.InChain addr ∨ xmin < versions.collector.oldestXmin

structure LiveOk (oldestXmin latestCompletedXid : Xid) (running : List Xid) (live : LiveSnapshot) :
    Prop where
  ok : live.snapshot.Ok
  horizon : oldestXmin ≤ live.snapshot.xmin
  xmax : live.snapshot.xmax ≤ transactionIdAdvance latestCompletedXid
  hidden : ∀ xid ∈ running, some xid ≠ live.own → live.snapshot.Hides xid

structure XactsOk (oldestXmin nextXid latestCompletedXid : Xid) (running : List Xid) : Prop where
  nextNormal : transactionIdIsNormal nextXid = true
  completed : transactionIdAdvance latestCompletedXid ≤ nextXid
  horizon : oldestXmin ≤ transactionIdAdvance latestCompletedXid
  running : ∀ xid ∈ running, xid < nextXid ∧ transactionIdIsNormal xid = true ∧ oldestXmin ≤ xid

/-- No running transaction and no snapshot in use asks for the version of the id. -/
structure Settled (running : List Xid) (lives : List LiveSnapshot) (xid : Xid) : Prop where
  notRunning : xid ∉ running
  notHidden : ∀ live ∈ lives, ¬ live.snapshot.Hides xid

structure PivotInv (typ : AggType) (s : Pivot) : Prop where
  versions : StateInv s.versions
  noReplacement : ∀ tid f, s.versions.threads tid ≠ .replacing f
  agg : s.agg = s.sum presentValue + s.vacuum.getD 0
  fits : s.agg < typ.range
  delta : ∀ addr, s.versions.store.InChain addr →
    (s.versions.store.nodes addr).deltaVal = s.sum (valueIn addr)
  unused : ∀ addr, ¬ Published s.versions addr → (s.versions.store.nodes addr).deltaVal = 0
  node : ∀ i < s.count, ∀ addr, (s.entries i).node = some addr →
    NodeOk s.versions (s.entries i).xmin addr
  writer : ∀ tid i, (tid, i) ∈ s.writers → i < s.count ∧
    WriterOk s.versions s.running tid (s.entries i)
  inserting : ∀ tid f, s.versions.threads tid = .inserting f →
    ∃ i, (tid, i) ∈ s.writers ∧ (s.entries i).xmin = f.xmin
  chainEntry : ∀ addr, s.versions.store.InChain addr →
    ∃ i < s.count, (s.entries i).xmin = s.versions.store.xminOf addr
  oneEntry : ∀ tid i i', (tid, i) ∈ s.writers → (tid, i') ∈ s.writers →
    i = i'
  oneWriter : ∀ tid tid' i, (tid, i) ∈ s.writers → (tid', i) ∈ s.writers →
    tid = tid'
  entryXid : ∀ i < s.count, transactionIdIsNormal (s.entries i).xmin = true ∧
    ((s.entries i).xmin ∈ s.running ∨
      (s.entries i).xmin ≤ s.latestCompletedXid)
  uncounted : ∀ i < s.count, (s.entries i).present = false ∨ (s.entries i).node = none →
    ((s.entries i).present = true ∧ ∃ tid, (tid, i) ∈ s.writers) ∨
      (s.entries i).value = 0 ∨ Settled s.running s.live (s.entries i).xmin
  xacts : XactsOk s.versions.collector.oldestXmin s.nextXid s.latestCompletedXid
    s.running
  live : ∀ live ∈ s.live,
    LiveOk s.versions.collector.oldestXmin s.latestCompletedXid s.running live

theorem lt_transactionIdAdvance (xid : Nat) : xid < transactionIdAdvance xid := by
  unfold transactionIdAdvance
  split <;> omega

theorem transactionIdIsNormal_iff {xid : Nat} :
    transactionIdIsNormal xid ↔ 3 ≤ xid % 4294967296 := by
  simp [transactionIdIsNormal, xid32]

theorem transactionIdAdvance_le {xid other : Nat} (normal : transactionIdIsNormal other)
    (larger : xid < other) : transactionIdAdvance xid ≤ other := by
  rw [transactionIdIsNormal_iff] at normal
  unfold transactionIdAdvance
  split <;> omega

theorem transactionIdAdvance_normal (xid : Nat) :
    transactionIdIsNormal (transactionIdAdvance xid) := by
  rw [transactionIdIsNormal_iff]
  unfold transactionIdAdvance
  split <;> omega

theorem transactionIdAdvance_mono (le : xid ≤ other) :
    transactionIdAdvance xid ≤ transactionIdAdvance other := by
  apply transactionIdAdvance_le (transactionIdAdvance_normal other)
  exact le.trans_lt (lt_transactionIdAdvance other)

def PivotLabel.inner : PivotLabel → Option Label
  | .store label => some label
  | _ => none

def PivotLabel.added : PivotLabel → Option Nat
  | .add _ _ value => some value
  | _ => none

def PivotLabel.victim : PivotLabel → Option Nat
  | .remove i => some i
  | _ => none

/-- Whether a step takes an entry off its leaf page and subtracts nothing. -/
def PivotLabel.forgets : PivotLabel → Bool
  | .removeDead _ => true
  | _ => false

/-- The id before which a step leaves versions out of the chain. -/
def PivotLabel.horizon : PivotLabel → Option Xid
  | .split _ _ xid _ => some xid
  | _ => none

def Pivot.xids (s : Pivot) : List Xid :=
  s.nextXid :: transactionIdAdvance s.latestCompletedXid :: s.running ++
    (s.live.flatMap fun live =>
      live.snapshot.xmin :: live.snapshot.xmax :: live.snapshot.xip) ++
    (range s.count).map fun i => (s.entries i).xmin

/-- The ids in use lie within half the range of each other. -/
def Window (s : Pivot) : Prop :=
  ∀ first ∈ s.xids, ∀ second ∈ s.xids, Serial.Near first second
  deriving Decidable

/-- The steps after which the view of a snapshot is still right: ids do not wrap around, no
failed swap brings back a marked head, sums fit the type, vacuum removes no entry that a snapshot
in use hides, and an insertion removes none. -/
def Sound (typ : AggType) (s : Pivot) (label : PivotLabel) : Prop :=
  Window s ∧ (∀ inner ∈ label.inner, Careful s.versions inner) ∧
    (∀ value ∈ label.added, s.agg + value < typ.range) ∧
    (∀ i ∈ label.victim, ∀ live ∈ s.live,
      xidInSnapshot (s.entries i).xmin (some live.snapshot) = false) ∧
    label.forgets = false ∧
    ∀ xid ∈ label.horizon, ∀ other ∈ s.xids, Serial.Near other xid
  deriving Decidable

section

variable {s : Pivot}

theorem Window.nearTo (window : Window s) {live : LiveSnapshot} (isLive : live ∈ s.live)
    (mem : xid ∈ s.xids) : live.snapshot.NearTo xid := by
  have inUse : ∀ other ∈ live.snapshot.xmin :: live.snapshot.xmax :: live.snapshot.xip,
      other ∈ s.xids := by
    intro other isOther
    simp only [xids, cons_append, mem_cons, mem_append, mem_flatMap]
    exact .inr (.inr (.inl (.inr ⟨live, isLive, by simpa using isOther⟩)))
  refine ⟨window xid mem _ (inUse _ (by simp)), window xid mem _ (inUse _ (by simp)), ?_⟩
  intro other isOther
  exact window xid mem other (inUse other (by simp [isOther]))

theorem Pivot.entry_mem_xids (isEntry : i < s.count) : (s.entries i).xmin ∈ s.xids := by
  simp only [xids, cons_append, mem_cons, mem_append, List.mem_map, mem_range]
  exact Or.inr (Or.inr (Or.inr ⟨i, isEntry, rfl⟩))

/-- On the ids in use `_abt_xid_in_snapshot` finds the hidden entries. -/
theorem PivotInv.xidInSnapshot_iff (inv : PivotInv typ s) (window : Window s)
    {live : LiveSnapshot} (isLive : live ∈ s.live) (isEntry : i < s.count) :
    xidInSnapshot (s.entries i).xmin (some live.snapshot) ↔
      live.snapshot.Hides (s.entries i).xmin :=
  (inv.live live isLive).ok.xidInSnapshot_iff
    (window.nearTo isLive (entry_mem_xids isEntry)) (inv.entryXid i isEntry).1

end

section

variable {s : Pivot} {typ : AggType} (inv : PivotInv typ s)
include inv

theorem PivotInv.entry_lt_next (isEntry : i < s.count) : (s.entries i).xmin < s.nextXid := by
  rcases (inv.entryXid i isEntry).2 with isRunning | isCompleted
  · exact (inv.xacts.running _ isRunning).1
  · exact (Nat.lt_of_le_of_lt isCompleted (lt_transactionIdAdvance _)).trans_le inv.xacts.completed

/-- An entry off its leaf page does not count for anybody. -/
theorem PivotInv.removed (isEntry : i < s.count) (isRemoved : (s.entries i).present = false) :
    (s.entries i).value = 0 ∨ Settled s.running s.live (s.entries i).xmin :=
  (inv.uncounted i isEntry (.inl isRemoved)).resolve_left fun isPresent => by
    cases isRemoved.symm.trans isPresent.1

theorem PivotInv.sum_unpublished (hidden : ¬ Published s.versions addr) :
    s.sum (valueIn addr) = 0 := by
  apply Finset.sum_eq_zero
  intro i mem
  exact if_neg fun isNode => hidden (inv.node i (Finset.mem_range.mp mem) _ isNode).published

theorem start_inv :
    PivotInv typ { s with
      nextXid := transactionIdAdvance s.nextXid, running := s.nextXid :: s.running } := by
  have larger := lt_transactionIdAdvance s.nextXid
  refine { inv with writer := ?_, entryXid := ?_, uncounted := ?_, xacts := ?_, live := ?_ }
  · intro tid i isWriter
    obtain ⟨isEntry, notAdded, isRunning, finding⟩ := inv.writer tid i isWriter
    exact ⟨isEntry, notAdded, mem_cons_of_mem _ isRunning, finding⟩
  · intro i isEntry
    obtain ⟨normal, isRunning | isCompleted⟩ := inv.entryXid i isEntry
    · exact ⟨normal, .inl (mem_cons_of_mem _ isRunning)⟩
    · exact ⟨normal, .inr isCompleted⟩
  · refine fun i isEntry off => (inv.uncounted i isEntry off).imp_right (.imp_right ?_)
    rintro ⟨notRunning, notHidden⟩
    refine ⟨?_, notHidden⟩
    rw [mem_cons, not_or]
    exact ⟨(inv.entry_lt_next isEntry).ne, notRunning⟩
  · obtain ⟨nextNormal, completed, horizon, running⟩ := inv.xacts
    refine ⟨transactionIdAdvance_normal _, completed.trans (larger.le), horizon, ?_⟩
    intro xid mem
    rcases mem_cons.mp mem with rfl | isRunning
    · exact ⟨larger, nextNormal, horizon.trans completed⟩
    · obtain ⟨pre, normal, recent⟩ := running xid isRunning
      exact ⟨pre.trans larger, normal, recent⟩
  · intro live isLive
    obtain ⟨ok, horizon, xmax, hidden⟩ := inv.live live isLive
    refine ⟨ok, horizon, xmax, fun xid mem notOwn => ?_⟩
    rcases mem_cons.mp mem with rfl | isRunning
    · exact .inl (xmax.trans inv.xacts.completed)
    · exact hidden xid isRunning notOwn

theorem finish_inv {aborted : List Xid}
    (isRunning : xid ∈ s.running) (noInserts : s.insertsFor xid = false) :
    PivotInv typ { s with
      latestCompletedXid := max s.latestCompletedXid xid
      running := s.running.filter fun other => other ≠ xid
      aborted := aborted } := by
  have later : transactionIdAdvance s.latestCompletedXid ≤
      transactionIdAdvance (max s.latestCompletedXid xid) :=
    transactionIdAdvance_mono (Nat.le_max_left _ _)
  refine { inv with writer := ?_, entryXid := ?_, uncounted := ?_, xacts := ?_, live := ?_ }
  · intro tid i isWriter
    obtain ⟨isEntry, notAdded, isRunning, finding⟩ := inv.writer tid i isWriter
    refine ⟨isEntry, notAdded, ?_, finding⟩
    have other := any_eq_false.mp noInserts (tid, i) isWriter
    simpa using ⟨isRunning, by simpa using other⟩
  · intro i isEntry
    obtain ⟨normal, status⟩ := inv.entryXid i isEntry
    refine ⟨normal, ?_⟩
    by_cases same : (s.entries i).xmin = xid
    · rw [same]
      exact .inr (Nat.le_max_right _ _)
    · rcases status with isRunning | isCompleted
      · exact .inl (by simp [isRunning, same])
      · exact .inr (isCompleted.trans (Nat.le_max_left _ _))
  · refine fun i isEntry off => (inv.uncounted i isEntry off).imp_right (.imp_right ?_)
    exact fun settled => ⟨fun mem => settled.notRunning (mem_of_mem_filter mem), settled.notHidden⟩
  · obtain ⟨nextNormal, completed, horizon, running⟩ := inv.xacts
    refine ⟨nextNormal, ?_, horizon.trans later, ?_⟩
    · apply transactionIdAdvance_le nextNormal
      apply Nat.max_lt.mpr
      exact ⟨(lt_transactionIdAdvance _).trans_le completed, (running xid isRunning).1⟩
    · intro other mem
      exact running other (mem_of_mem_filter mem)
  · intro live isLive
    obtain ⟨ok, horizon, xmax, hidden⟩ := inv.live live isLive
    refine ⟨ok, horizon, xmax.trans later, fun other mem notOwn => ?_⟩
    exact hidden other (mem_of_mem_filter mem) notOwn

/-- A new snapshot hides the running transactions, and nothing that has completed. -/
theorem snapshot_inv (window : Window s)
    (prepared : prepareSnapshotForSampling (some (s.getSnapshotData own)) = some snapshot) :
    PivotInv typ { s with live := ⟨snapshot, own⟩ :: s.live } := by
  obtain ⟨nextNormal, completed, horizon, running⟩ := inv.xacts
  have isRunning : ∀ xid, xid ∈ (s.getSnapshotData own).running ↔ xid ∈ s.running ∧
      xid < transactionIdAdvance s.latestCompletedXid ∧ some xid ≠ own := by
    simp [getSnapshotData, SnapshotData.running]
  have inUse : ∀ xid ∈ s.running, xid ∈ s.xids := by
    intro xid mem
    simp [xids, mem]
  obtain ⟨ok, sameMax, members⟩ := prepare_ok prepared
    (fun first isFirst second isSecond => window first (inUse first ((isRunning first).mp isFirst).1)
      second (inUse second ((isRunning second).mp isSecond).1))
    (fun xid mem => ((isRunning xid).mp mem).2.1)
    ⟨transactionIdAdvance_normal _, fun xid mem => (running xid ((isRunning xid).mp mem).1).2.1⟩
  have isMax : snapshot.xmax = transactionIdAdvance s.latestCompletedXid := sameMax
  have isHidden : ∀ xid, snapshot.Hides xid ↔
      transactionIdAdvance s.latestCompletedXid ≤ xid ∨ xid ∈ s.running ∧
        xid < transactionIdAdvance s.latestCompletedXid ∧ some xid ≠ own := by
    intro xid
    rw [AbtSnapshot.Hides, members, isRunning, isMax]
  refine { inv with uncounted := ?_, live := ?_ }
  · refine fun i isEntry off => (inv.uncounted i isEntry off).imp_right (.imp_right ?_)
    rintro ⟨notRunning, notHidden⟩
    refine ⟨notRunning, fun live isLive => ?_⟩
    rcases mem_cons.mp isLive with rfl | isOld
    · rw [isHidden]
      rintro (above | ⟨isRunning, -⟩)
      · have isCompleted := (inv.entryXid i isEntry).2.resolve_left notRunning
        exact absurd (lt_transactionIdAdvance s.latestCompletedXid)
          ((Nat.le_trans above isCompleted).not_gt)
      · exact notRunning isRunning
    · exact notHidden live isOld
  · intro live isLive
    rcases mem_cons.mp isLive with rfl | isOld
    · refine ⟨ok, ?_, isMax.le, fun xid isRunning notOwn => ?_⟩
      · rw [ok.isXmin]
        rcases eq_nil_or_concat snapshot.xip with isNil | ⟨init, last, isConcat⟩
        · rw [isNil, getLastD_nil, isMax]
          exact horizon
        · rw [concat_eq_append] at isConcat
          rw [isConcat, getLastD_concat]
          have mem : last ∈ snapshot.xip := by simp [isConcat]
          exact (running last ((isRunning last).mp ((members last).mp mem)).1).2.2
      · rw [isHidden]
        by_cases below : xid < transactionIdAdvance s.latestCompletedXid
        · exact .inr ⟨isRunning, below, notOwn⟩
        · exact .inl (Nat.le_of_not_lt below)
    · exact inv.live live isOld

theorem release_inv (keep : LiveSnapshot → Bool) :
    PivotInv typ { s with live := s.live.filter keep } := by
  refine { inv with uncounted := ?_, live := ?_ }
  · refine fun i isEntry off => (inv.uncounted i isEntry off).imp_right (.imp_right ?_)
    exact fun settled => ⟨settled.notRunning,
      fun live isLive => settled.notHidden live (mem_of_mem_filter isLive)⟩
  · intro live isLive
    exact inv.live live (mem_of_mem_filter isLive)

end

section

variable {s : Pivot}

theorem Pivot.sum_succ (es : Nat → Entry) (count : Nat) (e : Entry) (weight : Entry → Nat) :
    ∑ i ∈ Finset.range (count + 1), weight (update es count e i) =
      (∑ i ∈ Finset.range count, weight (es i)) + weight e := by
  rw [Finset.sum_range_succ, update_self]
  congr 1
  apply Finset.sum_congr rfl
  intro i mem
  rw [update_of_ne ((Finset.mem_range.mp mem).ne)]

theorem Pivot.sum_update (isEntry : i < s.count) (e : Entry) (weight : Entry → Nat) :
    (∑ other ∈ Finset.range s.count, weight (update s.entries i e other)) + weight (s.entries i) =
      s.sum weight + weight e := by
  have mem : i ∈ Finset.range s.count := Finset.mem_range.mpr isEntry
  rw [sum, ← Finset.sum_erase_add _ _ mem, ← Finset.sum_erase_add _ _ mem, update_self]
  have others : ∑ other ∈ (Finset.range s.count).erase i, weight (update s.entries i e other) =
      ∑ other ∈ (Finset.range s.count).erase i, weight (s.entries other) := by
    apply Finset.sum_congr rfl
    intro other isOther
    rw [update_of_ne (Finset.ne_of_mem_erase isOther)]
  rw [others]
  omega

end

section

variable {versions versions' : State} {label : Label} {xmin : Xid} {tid : Tid}

theorem next_noReplacement (inv : StateInv versions) (careful : Careful versions label)
    (step : next versions label = some versions')
    (notReplace : ∀ tid list, label ≠ .replace tid list)
    (none : ∀ tid f, versions.threads tid ≠ .replacing f) (tid : Tid) (f : ReplaceFrame) :
    versions'.threads tid ≠ .replacing f := by
  have updated : ∀ {other thread}, (∀ f, thread ≠ .replacing f) →
      update versions.threads other thread tid ≠ .replacing f := by
    intro other thread notReplacing
    by_cases same : tid = other
    · subst same
      rw [update_self]
      exact notReplacing f
    · rw [update_of_ne same]
      exact none tid f
  cases next_move step with
  | insert unlocked recent => exact updated (by simp)
  | replace unlocked noSharers ordered => exact absurd rfl (notReplace _ _)
  | insertStep isIns isCached => exact updated (inv.insertStep isIns isCached careful).stays.2
  | replaceStep isReplacing => exact absurd isReplacing (none _ _)
  | _ => exact none tid f

theorem next_notReplacing (none : ∀ tid f, versions.threads tid ≠ .replacing f) :
    NotReplacing versions label :=
  fun tid f _ => none tid f

variable (inv : StateInv versions)
include inv

variable (careful : Careful versions label)
include careful

variable (step : next versions label = some versions')
include step

theorem next_horizon : versions'.collector.oldestXmin = versions.collector.oldestXmin ∨
      label = .pass versions'.collector.oldestXmin := by
  cases next_move step with
  | pass isIdle later covers => exact .inr rfl
  | gc running => exact .inl (gcStep_ok inv.store inv.gc (careful.1.2 rfl)).oldestXmin
  | _ => exact .inl rfl

variable (none : ∀ tid f, versions.threads tid ≠ .replacing f)
include none

/-- A node of the chain was there before, or an insertion has linked it. -/
theorem next_inChain (inChain : versions'.store.InChain addr) :
    (versions.store.InChain addr ∧ versions'.store.xminOf addr = versions.store.xminOf addr) ∨
      ∃ tid f, label = .step tid ∧ versions.threads tid = .inserting f ∧
        versions'.store.xminOf addr = f.xmin ∧ versions.cached tid = some addr := by
  obtain ⟨nodes, listed, -⟩ := inv.store.listed
  obtain ⟨⟨nodes', listed', chainStep⟩, sameXmin, -⟩ := next_chain inv careful step listed
  obtain ⟨others, listedOthers, mem⟩ := inChain
  cases listed'.unique listedOthers
  cases chainStep with
  | same => exact .inl ⟨⟨nodes, listed, mem⟩, sameXmin addr mem⟩
  | linked isSplit isStep isIns isXmin isCached =>
    subst isSplit
    rcases mem_cons.mp (perm_middle.mem_iff.mp mem) with rfl | isOld
    · exact .inr ⟨_, _, isStep, isIns, isXmin, isCached⟩
    · exact .inl ⟨⟨_, listed, isOld⟩, sameXmin addr isOld⟩
  | collected isGc isSplit old =>
    have isOld : addr ∈ nodes := by simp [isSplit, mem]
    exact .inl ⟨⟨nodes, listed, isOld⟩, sameXmin addr isOld⟩
  | replaced isStep isReplacing => exact absurd isReplacing (none _ _)

theorem next_inserting (isIns' : versions'.threads tid = .inserting f') :
    label = .insert tid f'.xmin ∨ ∃ f, versions.threads tid = .inserting f ∧ f.xmin = f'.xmin := by
  cases next_move step with
  | @insert other xid unlocked recent =>
    by_cases same : tid = other
    · subst same
      cases (update_self ..).symm.trans isIns'
      exact .inl rfl
    · exact .inr ⟨f', (update_of_ne same _ _).symm.trans isIns', rfl⟩
  | @replace other list unlocked noSharers ordered =>
    by_cases same : tid = other
    · subst same
      cases (update_self ..).symm.trans isIns'
    · exact .inr ⟨f', (update_of_ne same _ _).symm.trans isIns', rfl⟩
  | @insertStep other f newNode isIns isCached =>
    by_cases same : tid = other
    · subst same
      have stepOk := inv.insertStep isIns isCached careful
      have isThread := (update_self ..).symm.trans isIns'
      exact .inr ⟨f, isIns, (stepOk.goesOn f' isThread).1.symm⟩
    · exact .inr ⟨f', (update_of_ne same _ _).symm.trans isIns', rfl⟩
  | replaceStep isReplacing => exact absurd isReplacing (none _ _)
  | _ => exact .inr ⟨f', isIns', rfl⟩

theorem NodeOk.next (ok : NodeOk versions xmin addr) : NodeOk versions' xmin addr := by
  obtain ⟨published, sameXmin, kept⟩ := ok
  obtain ⟨published', sameXmin'⟩ := next_published inv careful step published
  refine ⟨published', sameXmin'.trans sameXmin, ?_⟩
  rcases kept with inChain | old
  · rw [← sameXmin]
    exact (next_kept inv careful (next_notReplacing none) step inChain).2
  · obtain ⟨nodes, listed, -⟩ := inv.store.listed
    obtain ⟨-, -, later⟩ := next_chain inv careful step listed
    exact .inr (old.trans_le later)

theorem Finding.next (notReplace : ∀ tid list, label ≠ .replace tid list)
    (notBegin : ∀ xid, label ≠ .insert tid xid)
    (recent : versions'.collector.oldestXmin ≤ xmin) (finding : Finding versions tid xmin) :
    Finding versions' tid xmin := by
  by_cases acts : label = .step tid
  · subst acts
    cases next_move step with
    | @insertStep _ f newNode isIns isCached =>
      have stepOk := inv.insertStep isIns isCached careful
      have sameXmin : f.xmin = xmin := by
        rcases finding with ⟨f', isFrame, isXmin⟩ | ⟨addr, isReturned, -⟩
        · cases isIns.symm.trans isFrame
          exact isXmin
        · cases isIns.symm.trans isReturned
      have isThread : (versions.installInsert tid (insertStep versions.store newNode f).1
          (insertStep versions.store newNode f).2).threads tid =
          (insertStep versions.store newNode f).2.thread := update_self ..
      rw [Finding, isThread]
      cases res : (insertStep versions.store newNode f).2.thread with
      | idle => exact absurd res stepOk.stays.1
      | inserting f' => exact .inl ⟨f', rfl, (stepOk.goesOn f' res).1.trans sameXmin⟩
      | replacing f' => exact absurd res (stepOk.stays.2 f')
      | returned addr =>
        obtain ⟨inChain, isXmin⟩ := stepOk.returns addr res
        exact .inr ⟨addr, rfl, inChain, isXmin.trans sameXmin⟩
      | crashed => exact absurd res stepOk.alive
    | replaceStep isReplacing => exact absurd isReplacing (none _ _)
  · have same : versions'.threads tid = versions.threads tid := by
      cases next_move step with
      | @insert other xid unlocked recent =>
        have diff : tid ≠ other := fun isOther => notBegin xid (by rw [isOther])
        exact update_of_ne diff _ _
      | replace unlocked noSharers ordered => exact absurd rfl (notReplace _ _)
      | @insertStep other f newNode isIns isCached =>
        have diff : tid ≠ other := fun isOther => acts (by rw [isOther])
        exact update_of_ne diff _ _
      | replaceStep isReplacing => exact absurd isReplacing (none _ _)
      | _ => rfl
    rcases finding with inserting | ⟨addr, isReturned, inChain, isXmin⟩
    · left
      rwa [same]
    · right
      obtain ⟨sameXmin, still | old⟩ := next_kept inv careful (next_notReplacing none) step inChain
      · exact ⟨addr, same.trans isReturned, still, sameXmin.trans isXmin⟩
      · rw [isXmin] at old
        exact absurd old (recent.not_gt)

end

section

variable {s : Pivot} {typ : AggType} {versions : State} {tid : Tid} {xmin : Xid} {value i : Nat}

theorem AggType.range_le_wordRange (typ : AggType) : typ.range ≤ typ.wordRange := by
  cases typ <;> decide

theorem Pivot.entries_addToVersion (typ : AggType) (s : Pivot) (tid : Tid) (i : Nat)
    (addr : Addr) (other : Nat) :
    (s.addToVersion typ tid i addr).entries other =
      { s.entries other with
        node := if other = i then some addr else (s.entries other).node } := by
  by_cases same : other = i
  · subst same
    simp [addToVersion]
  · simp [addToVersion, same]

theorem Pivot.entries_removeEntry (s : Pivot) (i other : Nat) : (s.removeEntry i).entries other =
      { s.entries other with
        present := if other = i then false else (s.entries other).present } := by
  by_cases same : other = i
  · subst same
    simp [removeEntry]
  · simp [removeEntry, same]

variable (inv : PivotInv typ s)
include inv

theorem PivotInv.fresh_zero :
    (s.versions.store.nodes s.versions.store.freshNode).deltaVal = 0 :=
  inv.unused _ fun published => absurd published.1 (Nat.lt_irrefl _)

/-- A step of the version store leaves the values of nodes alone, also where it links one. -/
theorem PivotInv.next_delta (careful : Careful s.versions label)
    (step : next s.versions label = some versions)
    (notReplace : ∀ tid list, label ≠ .replace tid list) :
    (∀ addr, versions.store.InChain addr →
      (versions.store.nodes addr).deltaVal = s.sum (valueIn addr)) ∧
    ∀ addr, ¬ Published versions addr → (versions.store.nodes addr).deltaVal = 0 := by
  have same := VersionStore.next_delta inv.versions careful step notReplace inv.noReplacement
    inv.fresh_zero
  constructor
  · intro addr inChain
    rw [same]
    rcases next_inChain inv.versions careful step inv.noReplacement inChain with
      ⟨pre, -⟩ | ⟨tid, f, -, -, -, isCached⟩
    · exact inv.delta addr pre
    · have hidden : ¬ Published s.versions addr := fun published => (published.2 tid).1 isCached
      rw [inv.unused addr hidden, inv.sum_unpublished hidden]
  · intro addr hidden
    rw [same]
    exact inv.unused addr fun published =>
      hidden (next_published inv.versions careful step published).1

theorem addEntry_inv (isRunning : xmin ∈ s.running)
    (notWriting : s.writers.lookup tid = none)
    (step : next s.versions (.insert tid xmin) = some versions) (fits : s.agg + value < typ.range) :
    PivotInv typ (s.addEntry typ tid xmin value versions) := by
  have careful : Careful s.versions (.insert tid xmin) := careful_of_quiet rfl nofun
  have notReplace : ∀ other list, Label.insert tid xmin ≠ .replace other list := by simp
  obtain ⟨sameCollector, isIns⟩ : versions.collector = s.versions.collector ∧
      ∃ f, versions.threads tid = .inserting f ∧ f.xmin = xmin := by
    cases next_move step with
    | insert unlocked recent => exact ⟨rfl, _, update_self .., rfl⟩
  have isOther : ∀ {other i}, (other, i) ∈ s.writers → other ≠ tid := by
    rintro other i mem rfl
    have notMember := lookup_eq_none_iff.mp notWriting (other, i) mem
    simp at notMember
  have old : ∀ {i}, i < s.count →
      (s.addEntry typ tid xmin value versions).entries i = s.entries i :=
    fun isEntry => update_of_ne (isEntry.ne) _ _
  have new : (s.addEntry typ tid xmin value versions).entries s.count =
      ⟨xmin, value, none, true⟩ := update_self ..
  have sum_new : ∀ weight, (s.addEntry typ tid xmin value versions).sum weight =
      s.sum weight + weight ⟨xmin, value, none, true⟩ :=
    fun weight => sum_succ s.entries s.count _ weight
  have isAgg : (s.addEntry typ tid xmin value versions).agg = s.agg + value :=
    Nat.mod_eq_of_lt (fits.trans_le typ.range_le_wordRange)
  refine ⟨next_inv inv.versions careful step,
    next_noReplacement inv.versions careful step notReplace inv.noReplacement, ?_, ?_, ?_,
    (inv.next_delta careful step notReplace).2, ?_, ?_, ?_, ?_, ?_, ?_, ?_, ?_, ?_, ?_⟩
  · rw [isAgg, sum_new, inv.agg, Nat.add_right_comm]
    rfl
  · rw [isAgg]
    exact fits
  · intro addr inChain
    rw [sum_new]
    exact (inv.next_delta careful step notReplace).1 addr inChain
  · intro i isEntry addr isNode
    rcases Nat.lt_succ_iff_lt_or_eq.mp isEntry with isOld | rfl
    · rw [old isOld] at isNode ⊢
      exact (inv.node i isOld addr isNode).next inv.versions careful step inv.noReplacement
    · rw [new] at isNode
      cases isNode
  · intro other i isWriter
    rcases mem_cons.mp isWriter with isNew | isOld
    · cases isNew
      refine ⟨Nat.lt_succ_self _, ?_, ?_, ?_⟩
      · rw [new]
      · rw [new]
        exact isRunning
      · rw [new]
        exact .inl isIns
    · obtain ⟨isEntry, notAdded, otherRunning, finding⟩ := inv.writer other i isOld
      refine ⟨Nat.lt_succ_of_lt isEntry, ?_, ?_, ?_⟩
      · rw [old isEntry]
        exact notAdded
      · rw [old isEntry]
        exact otherRunning
      · rw [old isEntry]
        apply finding.next inv.versions careful step inv.noReplacement notReplace
        · intro xid same
          cases same
          exact isOther isOld rfl
        · rw [sameCollector]
          exact (inv.xacts.running _ otherRunning).2.2
  · intro other f isFrame
    rcases next_inserting inv.versions careful step inv.noReplacement isFrame with
      isNew | ⟨pre, isBefore, sameXmin⟩
    · cases isNew
      exact ⟨s.count, mem_cons_self, by rw [new]⟩
    · obtain ⟨i, isWriter, isXmin⟩ := inv.inserting other pre isBefore
      refine ⟨i, mem_cons_of_mem _ isWriter, ?_⟩
      rw [old (inv.writer other i isWriter).1]
      exact isXmin.trans sameXmin
  · intro addr inChain
    rcases next_inChain inv.versions careful step inv.noReplacement inChain with
      ⟨pre, sameXmin⟩ | ⟨_, _, isStep, -⟩
    · obtain ⟨i, isEntry, isXmin⟩ := inv.chainEntry addr pre
      refine ⟨i, Nat.lt_succ_of_lt isEntry, ?_⟩
      rw [old isEntry]
      exact isXmin.trans sameXmin.symm
    · cases isStep
  · intro other first second isFirst isSecond
    have oneEntry := inv.oneEntry other first second
    simp only [addEntry, mem_cons, Prod.mk.injEq] at isFirst isSecond
    grind
  · intro first second i isFirst isSecond
    have oneWriter := inv.oneWriter first second i
    have bound := fun other => (inv.writer other i · |>.1)
    simp only [addEntry, mem_cons, Prod.mk.injEq] at isFirst isSecond
    grind
  · intro i isEntry
    rcases Nat.lt_succ_iff_lt_or_eq.mp isEntry with isOld | rfl
    · rw [old isOld]
      exact inv.entryXid i isOld
    · rw [new]
      exact ⟨(inv.xacts.running xmin isRunning).2.1, .inl isRunning⟩
  · intro i isEntry off
    rcases Nat.lt_succ_iff_lt_or_eq.mp isEntry with isOld | rfl
    · rw [old isOld] at off ⊢
      exact (inv.uncounted i isOld off).imp_left
        (And.imp_right fun ⟨other, isWriter⟩ => ⟨other, mem_cons_of_mem _ isWriter⟩)
    · rw [new]
      exact .inl ⟨rfl, tid, mem_cons_self⟩
  · dsimp only [addEntry]
    rw [sameCollector]
    exact inv.xacts
  · dsimp only [addEntry]
    rw [sameCollector]
    exact inv.live

theorem PivotInv.valueIn_le (isRunning : xmin ∈ s.running) (es : Nat → Entry)
    (same : ∀ other < s.count, (es other).value = (s.entries other).value)
    (inNode : ∀ other < s.count, (es other).node = some addr → (s.entries other).xmin = xmin) :
    ∑ other ∈ Finset.range s.count, (es other).valueIn addr ≤ s.agg := by
  have bounded : ∑ other ∈ Finset.range s.count, (es other).valueIn addr ≤ s.sum presentValue := by
    apply Finset.sum_le_sum
    intro other mem
    have isEntry := Finset.mem_range.mp mem
    unfold valueIn presentValue
    split
    next isNode =>
      rw [same other isEntry]
      cases isPresent : (s.entries other).present with
      | true => rfl
      | false =>
        rcases inv.removed isEntry isPresent with isZero | settled
        · exact isZero.le
        · exact absurd (inNode other isEntry isNode ▸ isRunning) settled.notRunning
    · exact Nat.zero_le _
  rw [inv.agg]
  exact bounded.trans (Nat.le_add_right _ _)

theorem PivotInv.returned (isWriter : (tid, i) ∈ s.writers)
    (isReturned : s.versions.threads tid = .returned addr) :
    s.versions.store.InChain addr ∧ s.versions.store.xminOf addr = (s.entries i).xmin := by
  rcases (inv.writer tid i isWriter).2.finding with
    ⟨f, isIns, -⟩ | ⟨other, isOther, inChain, isXmin⟩
  · cases isReturned.symm.trans isIns
  · cases isReturned.symm.trans isOther
    exact ⟨inChain, isXmin⟩

theorem addToVersion_delta (isWriter : (tid, i) ∈ s.writers)
    (isReturned : s.versions.threads tid = .returned addr) {node : Addr}
    (inChain : s.versions.store.InChain node) :
    ((s.addToVersion typ tid i addr).versions.store.nodes node).deltaVal =
      (s.addToVersion typ tid i addr).sum (valueIn node) := by
  obtain ⟨isEntry, notAdded, isRunning, -⟩ := inv.writer tid i isWriter
  obtain ⟨-, isXmin⟩ := inv.returned isWriter isReturned
  have entry_eq := s.entries_addToVersion typ tid i addr
  have sum_node : (s.addToVersion typ tid i addr).sum (valueIn node) + _ = _ :=
    sum_update isEntry { s.entries i with node := some addr } (valueIn node)
  by_cases same : node = addr
  · subst same
    have inNode : ∀ other < s.count,
        ((s.addToVersion typ tid i node).entries other).node = some node →
        (s.entries other).xmin = (s.entries i).xmin := by
      intro other isOther isNode
      rw [entry_eq] at isNode
      split at isNode
      · next same => rw [same]
      · rw [← isXmin, (inv.node other isOther node isNode).sameXmin]
    have small : (s.addToVersion typ tid i node).sum (valueIn node) ≤ s.agg :=
      inv.valueIn_le isRunning _ (fun other _ => by rw [entry_eq]) inNode
    have isSum : (s.addToVersion typ tid i node).sum (valueIn node) =
        s.sum (valueIn node) + (s.entries i).value := by
      simpa [valueIn, notAdded] using sum_node
    have added : ((s.addToVersion typ tid i node).versions.store.nodes node).deltaVal =
        ((s.versions.store.nodes node).deltaVal + (s.entries i).value) % typ.wordRange := by
      simp [addToVersion, Store.addDelta]
    have fits := inv.fits
    have words := typ.range_le_wordRange
    rw [added, inv.delta node inChain, ← isSum, Nat.mod_eq_of_lt (by omega)]
  · have kept : ((s.addToVersion typ tid i addr).versions.store.nodes node).deltaVal =
        (s.versions.store.nodes node).deltaVal := by
      simp [addToVersion, Store.addDelta, same]
    rw [kept, inv.delta node inChain]
    simpa [valueIn, notAdded, Ne.symm same] using sum_node.symm

theorem addToVersion_inv (isWriter : (tid, i) ∈ s.writers)
    (isReturned : s.versions.threads tid = .returned addr) :
    PivotInv typ (s.addToVersion typ tid i addr) := by
  obtain ⟨inChain, isXmin⟩ := inv.returned isWriter isReturned
  have inChain_iff : ∀ {other}, (s.addToVersion typ tid i addr).versions.store.InChain other ↔
      s.versions.store.InChain other :=
    (Agrees.addDelta inv.versions.store addr _ typ.wordRange).inChain_iff inv.versions.store
  have sameXmin : ∀ other, (s.addToVersion typ tid i addr).versions.store.xminOf other =
      s.versions.store.xminOf other := fun other => Store.xminOf_addDelta
  have entry_eq := s.entries_addToVersion typ tid i addr
  have isOther : ∀ other i', (other, i') ∈ (s.addToVersion typ tid i addr).writers ↔
      (other, i') ∈ s.writers ∧ other ≠ tid := by
    simp [addToVersion]
  have oneWriter := fun other => inv.oneWriter other tid i
  have oneEntry := fun other => inv.oneEntry tid other i
  refine ⟨addDelta_inv inv.versions _ _ _, inv.noReplacement, ?_, inv.fits, fun _ nodeChain =>
    addToVersion_delta inv isWriter isReturned (inChain_iff.mp nodeChain), ?_, ?_, ?_, ?_, ?_, ?_,
    ?_, ?_, ?_, inv.xacts, inv.live⟩
  · have same := sum_update (inv.writer tid i isWriter).1
      { s.entries i with node := some addr } presentValue
    exact inv.agg.trans (congrArg (· + _) (Nat.add_right_cancel same).symm)
  · intro node hidden
    have diff : node ≠ addr := fun same => hidden (same ▸ inv.versions.chain addr inChain)
    simpa [addToVersion, Store.addDelta, diff] using inv.unused node hidden
  · intro other isEntry node isNode
    rw [entry_eq] at isNode ⊢
    have nodeOk : NodeOk s.versions (s.entries other).xmin node := by
      split at isNode
      next same =>
        cases isNode
        subst same
        exact ⟨inv.versions.chain addr inChain, isXmin, .inl inChain⟩
      · exact inv.node other isEntry node isNode
    exact ⟨nodeOk.published, (sameXmin node).trans nodeOk.sameXmin,
      nodeOk.kept.imp_left inChain_iff.mpr⟩
  · intro other i' mem
    obtain ⟨isWriter', diff⟩ := (isOther other i').mp mem
    obtain ⟨isEntry', notAdded', isRunning', finding'⟩ := inv.writer other i' isWriter'
    have notSame : i' ≠ i := by grind
    rw [entry_eq, if_neg notSame]
    refine ⟨isEntry', notAdded', isRunning', finding'.imp_right ?_⟩
    rintro ⟨node, isNode, nodeChain, nodeXmin⟩
    exact ⟨node, isNode, inChain_iff.mpr nodeChain, (sameXmin node).trans nodeXmin⟩
  · intro other f isIns
    obtain ⟨i', isWriter', sameId⟩ := inv.inserting other f isIns
    have diff : other ≠ tid := by
      rintro rfl
      cases isReturned.symm.trans isIns
    exact ⟨i', (isOther other i').mpr ⟨isWriter', diff⟩, by rw [entry_eq]; exact sameId⟩
  · intro node nodeChain
    rw [sameXmin]
    simp only [entry_eq]
    exact inv.chainEntry node (inChain_iff.mp nodeChain)
  · intro other first second isFirst isSecond
    exact inv.oneEntry other first second ((isOther ..).mp isFirst).1 ((isOther ..).mp isSecond).1
  · intro first second i' isFirst isSecond
    exact inv.oneWriter first second i' ((isOther ..).mp isFirst).1 ((isOther ..).mp isSecond).1
  · simp only [entry_eq]
    exact inv.entryXid
  · intro other isEntry' off
    simp only [entry_eq] at off ⊢
    rcases inv.uncounted other isEntry' (off.imp_right (by grind)) with ⟨isPresent, writes⟩ | gone
    · grind
    · exact .inr gone

theorem store_inv (isInternal : s.internal label)
    (careful : Careful s.versions label) (step : next s.versions label = some versions) :
    PivotInv typ { s with versions := versions } := by
  have notReplace : ∀ tid list, label ≠ .replace tid list := by
    rintro tid list rfl
    cases isInternal
  have notBegin : ∀ tid xid, label ≠ .insert tid xid := by
    rintro tid xid rfl
    cases isInternal
  obtain ⟨fromCompleted, fromRunning, fromLive⟩ :
      versions.collector.oldestXmin ≤ transactionIdAdvance s.latestCompletedXid ∧
      (∀ xid ∈ s.running, versions.collector.oldestXmin ≤ xid) ∧
      ∀ live ∈ s.live, versions.collector.oldestXmin ≤ live.snapshot.xmin := by
    rcases next_horizon inv.versions careful step with same | isPass
    · rw [same]
      exact ⟨inv.xacts.horizon, fun xid mem => (inv.xacts.running xid mem).2.2,
        fun live isLive => (inv.live live isLive).horizon⟩
    · rw [isPass] at isInternal
      simpa [internal, oldest, and_assoc] using isInternal
  refine { inv with
    versions := next_inv inv.versions careful step
    noReplacement := next_noReplacement inv.versions careful step notReplace inv.noReplacement
    delta := (inv.next_delta careful step notReplace).1
    unused := (inv.next_delta careful step notReplace).2
    node := ?_, writer := ?_, inserting := ?_, chainEntry := ?_, xacts := ?_, live := ?_ }
  · intro i isEntry addr isNode
    exact (inv.node i isEntry addr isNode).next inv.versions careful step inv.noReplacement
  · intro tid i isWriter
    obtain ⟨isEntry, notAdded, isRunning, finding⟩ := inv.writer tid i isWriter
    refine ⟨isEntry, notAdded, isRunning, ?_⟩
    exact finding.next inv.versions careful step inv.noReplacement notReplace (notBegin tid)
      (fromRunning _ isRunning)
  · intro tid f isFrame
    obtain ⟨pre, isBefore, sameXmin⟩ := (next_inserting inv.versions careful step inv.noReplacement
      isFrame).resolve_left (notBegin tid f.xmin)
    obtain ⟨i, isWriter, isXmin⟩ := inv.inserting tid pre isBefore
    exact ⟨i, isWriter, isXmin.trans sameXmin⟩
  · intro addr inChain
    rcases next_inChain inv.versions careful step inv.noReplacement inChain with
      ⟨pre, sameXmin⟩ | ⟨tid, f, -, isIns, sameXmin, -⟩
    · obtain ⟨i, isEntry, isXmin⟩ := inv.chainEntry addr pre
      exact ⟨i, isEntry, isXmin.trans sameXmin.symm⟩
    · obtain ⟨i, isWriter, isXmin⟩ := inv.inserting tid f isIns
      exact ⟨i, (inv.writer tid i isWriter).1, isXmin.trans sameXmin.symm⟩
  · obtain ⟨nextNormal, completed, -, running⟩ := inv.xacts
    refine ⟨nextNormal, completed, fromCompleted, fun xid mem => ?_⟩
    exact ⟨(running xid mem).1, (running xid mem).2.1, fromRunning xid mem⟩
  · intro live isLive
    obtain ⟨ok, -, xmax, hidden⟩ := inv.live live isLive
    exact ⟨ok, fromLive live isLive, xmax, hidden⟩

theorem removeEntry_inv (isRemovable : s.removable i)
    (notHidden : ∀ live ∈ s.live, ¬ live.snapshot.Hides (s.entries i).xmin) :
    PivotInv typ (s.removeEntry i) := by
  obtain ⟨isEntry, isPresent, notRunning⟩ : i < s.count ∧
      (s.entries i).present ∧ (s.entries i).xmin ∉ s.running := by
    simp only [removable, Bool.and_eq_true, decide_eq_true_eq] at isRemovable
    exact ⟨isRemovable.1.1.1, isRemovable.1.1.2, isRemovable.1.2⟩
  have entry_eq := s.entries_removeEntry i
  have sum_changed : ∀ weight : Entry → Nat, (s.removeEntry i).sum weight + weight (s.entries i) =
      s.sum weight + weight { s.entries i with present := false } :=
    fun weight => sum_update isEntry _ weight
  refine ⟨inv.versions, inv.noReplacement, ?_, inv.fits, ?_, inv.unused, ?_, ?_, ?_, ?_,
    inv.oneEntry, inv.oneWriter, ?_, ?_, inv.xacts, inv.live⟩
  · have isSum : (s.removeEntry i).sum presentValue + (s.entries i).value = s.sum presentValue := by
      simpa [presentValue, isPresent] using sum_changed presentValue
    change s.agg = _ + (s.vacuum.getD 0 + (s.entries i).value)
    rw [inv.agg, ← isSum]
    omega
  · intro addr
    rw [Nat.add_right_cancel (sum_changed (valueIn addr))]
    exact inv.delta addr
  · simp only [entry_eq]
    exact inv.node
  · intro tid other isWriter
    obtain ⟨isOther, ok⟩ := inv.writer tid other isWriter
    exact ⟨isOther, entry_eq other ▸ ⟨ok.notAdded, ok.isRunning, ok.finding⟩⟩
  · simp only [entry_eq]
    exact inv.inserting
  · simp only [entry_eq]
    exact inv.chainEntry
  · simp only [entry_eq]
    exact inv.entryXid
  · intro other isOther off
    rw [entry_eq] at off ⊢
    split at off
    next same =>
      subst same
      exact .inr (.inr ⟨notRunning, notHidden⟩)
    next diff =>
      rw [if_neg diff]
      exact inv.uncounted other isOther off

theorem decrement_inv {sum : Nat} (isVacuum : s.vacuum = some sum) :
    PivotInv typ { s with
      agg := (s.agg + typ.wordRange - sum % typ.wordRange) % typ.wordRange, vacuum := none } := by
  have isAgg : s.agg = s.sum presentValue + sum := by simpa [isVacuum] using inv.agg
  have fits : s.agg < typ.wordRange := inv.fits.trans_le typ.range_le_wordRange
  have isLess : (s.agg + typ.wordRange - sum % typ.wordRange) % typ.wordRange =
      s.sum presentValue := by
    rw [Nat.mod_eq_of_lt (a := sum) (by omega), isAgg,
      show s.sum presentValue + sum + typ.wordRange - sum =
        s.sum presentValue + typ.wordRange by omega, Nat.add_mod_right,
      Nat.mod_eq_of_lt (by omega)]
  have smaller : s.sum presentValue ≤ s.agg := by
    rw [isAgg]
    exact Nat.le_add_right _ _
  exact { inv with agg := isLess, fits := (isLess.trans_le smaller).trans_lt inv.fits }

end

end PgAqp.VersionStore
