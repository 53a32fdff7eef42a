import PgAqp.VersionStore.PivotInvariant

/-!
# Splits, and every run around the pivot

Nobody else works on the pivot while its leaf page is split, so the replacement of the chain is
one step here.  When it is done the chain has one node for each id of the entries that stay,
except for ids that nobody asks for.
-/

namespace PgAqp.VersionStore

open Hash (Ptr Addr Tid rawptr)
open Library Function List Option Pivot Entry

/-! ## The accesses of a replacement -/

section

variable {st : Store} {f : ReplaceFrame} {nodes : List Addr}

/-- How far a replacement has come: its nodes are the chain once the swap is made. -/
def Phase (nodes : List Addr) (st : Store) : Thread → Prop
  | .idle => st.Listed nodes
  | .replacing f =>
    if f.pc = .deleteChain then st.Listed nodes
    else f.newNodes = nodes ∧ (f.newHead = Ptr.null → nodes = []) ∧
      (f.pc ≠ .findHead → st.entry = some f.headPtr)
  | _ => False

theorem look_phase (same : f.newNodes = nodes) (empty : f.newHead = Ptr.null → nodes = [])
    (live : st.entry = some f.headPtr) :
    Phase nodes st (ReplaceFrame.look { f with head := st.heads f.headPtr }) := by
  unfold ReplaceFrame.look
  dsimp only
  split
  next isDeleted =>
    split
    next isNull =>
      rw [empty isNull]
      refine (Store.listed_some live).mpr ?_
      simp [Library.Chain, Segment, Store.linkOf, Store.read, isDeleted, deletedChainHead]
    · exact ⟨same, empty, by simp⟩
  · split
    · exact ⟨same, empty, fun _ => live⟩
    · exact ⟨same, empty, fun _ => live⟩

theorem replaceStep_phase (ok : StoreOk st) (replaceOk : ReplaceOk st f)
    (phase : Phase nodes st (.replacing f)) :
    Phase nodes (replaceStep st f).1 (replaceStep st f).2 := by
  cases atPc : f.pc with
  | findHead =>
    obtain ⟨same, empty⟩ : _ ∧ (_ → _) := by simpa [Phase, atPc] using phase
    simp only [replaceStep, atPc]
    split
    next isNull =>
      split
      next absent => exact (Store.listed_none absent).mpr (empty isNull)
      next e live => exact ⟨same, empty, fun _ => live⟩
    · exact ⟨same, empty, fun _ => StoreOk.hashEnter_entry st⟩
  | readHead =>
    obtain ⟨same, empty, live⟩ : _ ∧ _ ∧ _ := by simpa [Phase, atPc] using phase
    simp only [replaceStep, atPc]
    exact look_phase (f := { f with pc := .readHead }) same empty live
  | swap =>
    obtain ⟨same, empty, live⟩ : _ ∧ _ ∧ _ := by simpa [Phase, atPc] using phase
    simp only [ReplaceOk, atPc] at replaceOk
    simp only [replaceStep, atPc]
    split
    · obtain ⟨old, listed, -⟩ := ok.listed
      have installed : (st.write (.head f.headPtr) f.newHead).Listed f.newNodes :=
        ok.listed_write (Position.atHead live listed) replaceOk.1.listed (by simp)
      rw [same] at installed
      split
      · exact installed
      · exact installed
    · exact look_phase (f := { f with pc := .swap }) same empty live
  | deleteChain =>
    have listed : st.Listed nodes := by simpa [Phase, atPc] using phase
    simp only [ReplaceOk, atPc] at replaceOk
    obtain ⟨-, a, isHead⟩ := replaceOk
    have isRaw : rawptr f.head = some a := by
      rw [isHead]
      rfl
    simp only [replaceStep, atPc, isRaw]
    split
    · exact (Agrees.free ok a).listed listed
    · exact (Agrees.free ok a).listed listed

end

structure Replacing (base : State) (tid : Tid) (nodes : List Addr) (s : State) : Prop where
  inv : StateInv s
  phase : Phase nodes s.store (s.threads tid)
  words : ∀ a, s.store.xminOf a = base.store.xminOf a ∧
    (s.store.nodes a).deltaVal = (base.store.nodes a).deltaVal
  others : ∀ other, other ≠ tid → s.threads other = base.threads other
  rest : s.cached = base.cached ∧ s.collector = base.collector ∧
    s.store.freshNode = base.store.freshNode

section

variable {base s s' : State} {tid : Tid} {nodes : List Addr}

theorem Replacing.step (replacing : Replacing base tid nodes s)
    (step : next s (.step tid) = some s') : Replacing base tid nodes s' := by
  obtain ⟨inv, phase, words, others, rest⟩ := replacing
  cases next_move step with
  | insertStep isIns isCached =>
    rw [isIns] at phase
    cases phase
  | @replaceStep _ f isReplacing =>
    rw [isReplacing] at phase
    have replaceOk := (inv.replacing isReplacing).2
    have stepOk := replaceStep_ok inv.store replaceOk
    refine ⟨installReplace_inv inv isReplacing stepOk, ?_, fun a => ?_, fun other diff => ?_, ?_⟩
    · simpa [State.installReplace] using replaceStep_phase inv.store replaceOk phase
    · exact ⟨(stepOk.access.xminOf a).trans (words a).1,
        (stepOk.access.deltaVal a).trans (words a).2⟩
    · exact (update_of_ne diff _ _).trans (others other diff)
    · exact ⟨rest.1, rest.2.1, stepOk.access.freshNode.trans rest.2.2⟩

theorem Replacing.run (replacing : Replacing base tid nodes s)
    (reached : Run.run next s (replicate accesses (.step tid)) = some s') :
    Replacing base tid nodes s' := by
  induction accesses generalizing s with
  | zero =>
    cases reached
    exact replacing
  | succ accesses ih =>
    obtain ⟨middle, step, later⟩ := Run.run_cons_eq_some.mp reached
    exact ih (replacing.step step) later

theorem beginReplace_replacing {versions : List (Xid × Nat)} (inv : StateInv s)
    (begun : next s (.replace tid versions) = some s') :
    s' = s.beginReplace tid versions ∧
      Replacing s' tid (newAddrs s.store versions) s' := by
  have quiet : Careful s (.replace tid versions) := careful_of_quiet rfl nofun
  have inv' := next_inv inv quiet begun
  cases next_move begun with
  | replace unlocked noSharers ordered =>
    have allocated : Allocated s.store versions _ := allocChain_ok inv.store
    refine ⟨rfl, inv', ?_, fun _ => ⟨rfl, rfl⟩, fun _ _ => rfl, rfl, rfl, rfl⟩
    simp only [State.beginReplace, update_self]
    refine ⟨rfl, fun isNull => ?_, by simp⟩
    have listed := allocated.listed
    have isNull : (s.store.allocChain versions).2 = .null := isNull
    rw [isNull] at listed
    cases isNew : newAddrs s.store versions with
    | nil => rfl
    | cons a others =>
      rw [isNew] at listed
      cases (Segment.cons_iff.mp listed).1

/-- What a whole replacement changes. -/
structure Replaced (s : State) (tid : Tid) (versions : List (Xid × Nat)) (nodes : List Addr)
    (after : State) : Prop where
  inv : StateInv after
  listed : after.store.Listed nodes
  isVersions : after.store.versions nodes = versions
  others : ∀ other, other ≠ tid → after.threads other = s.threads other
  collector : after.collector = s.collector
  published : ∀ a, Published s a → Published after a
  kept : ∀ a ∉ nodes, (after.store.nodes a).deltaVal = (s.store.nodes a).deltaVal

theorem replaced_of_run {versions : List (Xid × Nat)} (inv : StateInv s)
    (reached : Run.run next s (.replace tid versions :: replicate accesses (.step tid)) = some s')
    (isDone : s'.threads tid = .idle) : Replaced s tid versions (newAddrs s.store versions) s' := by
  obtain ⟨base, begun, later⟩ := Run.run_cons_eq_some.mp reached
  obtain ⟨rfl, begins⟩ := beginReplace_replacing inv begun
  obtain ⟨inv', phase, words, others, sameCached, sameCollector, sameFresh⟩ := begins.run later
  have allocated : Allocated s.store versions _ := allocChain_ok inv.store
  have others (other : Tid) (diff : other ≠ tid) : s'.threads other = s.threads other :=
    (others other diff).trans (update_of_ne diff _ _)
  rw [isDone] at phase
  refine ⟨inv', phase, ?_, others, sameCollector, fun a published => ⟨?_, fun other => ⟨?_, ?_⟩⟩,
    fun a notNew => (words a).2.trans (congrArg Version.deltaVal (allocated.kept a notNew))⟩
  · refine (map_congr_left fun a _ => ?_).trans allocated.versions
    rw [(words a).1, (words a).2]
    rfl
  · rw [sameFresh]
    exact published.1.trans_le allocated.agrees.freshNode
  · rw [sameCached]
    exact (published.2 other).1
  · by_cases same : other = tid
    · simp [same, isDone, Thread.owned]
    · rw [others other same]
      exact (published.2 other).2

/-- The ids of the new nodes are distinct, so an id leads to its node. -/
theorem Replaced.find?_iff {versions : List (Xid × Nat)} {xid : Xid}
    (replaced : Replaced s tid versions nodes s') (mem : a ∈ nodes) :
    nodes.find? (fun a => s'.store.xminOf a = xid) = some a ↔ xid = s'.store.xminOf a := by
  have descending := (replaced.inv.store.nodes_nodup replaced.listed).1
  have distinct : (nodes.map s'.store.xminOf).Nodup :=
    pairwise_map.mpr (descending.imp Nat.ne_of_gt)
  constructor
  · intro found
    exact (by simpa using find?_some found : s'.store.xminOf a = xid).symm
  · intro same
    cases found : nodes.find? fun a => s'.store.xminOf a = xid with
    | none => exact absurd same.symm (by simpa using find?_eq_none.mp found a mem)
    | some b =>
      have sameId : s'.store.xminOf b = xid := by simpa using find?_some found
      rw [inj_on_of_nodup_map distinct (mem_of_find?_eq_some found) mem (sameId.trans same)]

end

/-! ## Splits -/

theorem lt_of_transactionIdPrecedes (normal : transactionIdIsNormal xid)
    (near : Serial.Near xid other) (precedes : transactionIdPrecedes xid other) : xid < other := by
  unfold transactionIdPrecedes at precedes
  split at precedes
  · rw [precedes_of_near near] at precedes
    exact of_decide_eq_true precedes
  next notNormal =>
    simp only [transactionIdIsNormal, decide_eq_true_eq] at normal
    simp only [transactionIdIsNormal, Bool.and_eq_true, decide_eq_true_eq] at notNormal precedes
    omega

section

variable {s : Pivot} {typ : AggType} {moved : List Nat}

theorem Pivot.mem_leftVersions {value : Nat} : (xid, value) ∈ s.leftVersions moved horizon ↔
    (∃ i < s.count, s.stays moved i ∧ (s.entries i).xmin = xid ∧
      transactionIdPrecedes xid horizon = false) ∧
    value = ∑ i ∈ Finset.range s.count,
      if s.stays moved i = true ∧ (s.entries i).xmin = xid then (s.entries i).value else 0 := by
  simp only [leftVersions, List.mem_map, mem_insertionSort, mem_dedup, mem_filter, mem_range,
    Prod.mk.injEq, Bool.not_eq_true']
  constructor
  · rintro ⟨_, ⟨⟨i, ⟨isEntry, isStaying⟩, isXmin⟩, recent⟩, rfl, isSum⟩
    exact ⟨⟨i, isEntry, isStaying, isXmin, recent⟩, isSum.symm⟩
  · rintro ⟨⟨i, isEntry, isStaying, isXmin, recent⟩, isSum⟩
    exact ⟨xid, ⟨⟨i, ⟨isEntry, isStaying⟩, isXmin⟩, recent⟩, rfl, isSum.symm⟩

theorem Pivot.entries_splitLeft (s : Pivot) (moved : List Nat) (versions : State)
    (nodes : List Addr) (i : Nat) : (s.splitLeft moved versions nodes).entries i =
      ⟨(s.entries i).xmin, if s.stays moved i then (s.entries i).value else 0,
        if s.stays moved i then
          nodes.find? fun a => versions.store.xminOf a = (s.entries i).xmin
        else none, s.stays moved i⟩ := by
  simp only [splitLeft]
  split
  next isStaying => simp [isStaying, (Bool.and_eq_true_iff.mp isStaying).1]
  next moves => simp [eq_false_of_ne_true moves]

/-- Nobody asks for an id before the horizon of a split. -/
theorem PivotInv.settled_of_lt (inv : PivotInv typ s) (isOldest : s.oldest horizon)
    (smaller : xid < horizon) : Settled s.running s.live xid := by
  simp only [oldest, Bool.and_eq_true, decide_eq_true_eq, List.all_eq_true] at isOldest
  refine ⟨fun isRunning => ?_, fun live isLive hides => ?_⟩
  · exact absurd smaller (isOldest.1.2 _ isRunning).not_gt
  · have recent := (inv.live live isLive).ok.hides_ge hides
    exact absurd smaller ((isOldest.2 live isLive).trans recent).not_gt

/-- The pivot of the left page has the entries that stay, in the aggregate and in the chain. -/
theorem split_inv (inv : PivotInv typ s)
    (near : ∀ i < s.count, Serial.Near (s.entries i).xmin horizon) (noInsert : s.writers = [])
    (noVacuum : s.vacuum = none) (isOldest : s.oldest horizon) {after : State} {nodes : List Addr}
    (replaced : Replaced s.versions tid (s.leftVersions moved horizon) nodes after)
    (isDone : after.threads tid = .idle) : PivotInv typ (s.splitLeft moved after nodes) := by
  have isNode {i : Nat} {a : Addr} (mem : a ∈ nodes) :
      nodes.find? (fun a => after.store.xminOf a = (s.entries i).xmin) = some a ↔ _ :=
    replaced.find?_iff mem
  obtain ⟨inv', listed, isVersions, others, collector, published, kept⟩ := replaced
  have entry_eq := s.entries_splitLeft moved after nodes
  have version {a : Addr} (inChain : after.store.InChain a) : a ∈ nodes ∧
      (after.store.xminOf a, (after.store.nodes a).deltaVal) ∈ s.leftVersions moved horizon :=
    ⟨listed.inChain_iff.mp inChain, isVersions ▸ mem_map_of_mem (listed.inChain_iff.mp inChain)⟩
  have noWriter {other : Tid} {i : Nat} (isWriter : (other, i) ∈ s.writers) : False := by
    rw [noInsert] at isWriter
    cases isWriter
  refine ⟨inv', ?_, ?_, ?_, ?_, ?_, ?_, fun _ _ isWriter => (noWriter isWriter).elim, ?_, ?_,
    fun _ _ _ isWriter => (noWriter isWriter).elim, fun _ _ _ isWriter => (noWriter isWriter).elim,
    ?_, ?_, ?_, ?_⟩
  · intro other f isReplacing
    by_cases same : other = tid
    · cases isDone.symm.trans (same ▸ isReplacing)
    · exact inv.noReplacement other f ((others other same).symm.trans isReplacing)
  · change (∑ i ∈ Finset.range s.count, _) = _ + s.vacuum.getD 0
    rw [noVacuum]
    refine Finset.sum_congr rfl fun i _ => ?_
    rw [entry_eq]
    cases s.stays moved i <;> rfl
  · refine (Finset.sum_le_sum fun i _ => ?_).trans_lt
      ((Nat.le_add_right (s.sum presentValue) _).trans_eq inv.agg.symm |>.trans_lt inv.fits)
    unfold presentValue
    split
    next isStaying => rw [if_pos (Bool.and_eq_true_iff.mp isStaying).1]
    · exact Nat.zero_le _
  · intro a inChain
    obtain ⟨mem, isVersion⟩ := version inChain
    refine (mem_leftVersions.mp isVersion).2.trans (Finset.sum_congr rfl fun i _ => ?_)
    rw [entry_eq]
    cases isStaying : s.stays moved i with
    | true => simp [valueIn, isNode mem]
    | false => simp [valueIn]
  · intro a hidden
    have notNew : a ∉ nodes := fun mem => hidden (inv'.chain a (listed.inChain_iff.mpr mem))
    exact (kept a notNew).trans (inv.unused a fun isOld => hidden (published a isOld))
  · intro i isEntry a found
    rw [entry_eq] at found ⊢
    obtain ⟨-, found⟩ := ite_none_right_eq_some.mp found
    have mem := mem_of_find?_eq_some found
    have inChain := listed.inChain_iff.mpr mem
    exact ⟨inv'.chain a inChain, ((isNode mem).mp found).symm, .inl inChain⟩
  · intro other f isIns
    by_cases same : other = tid
    · cases isDone.symm.trans (same ▸ isIns)
    · obtain ⟨i, isWriter, -⟩ := inv.inserting other f ((others other same).symm.trans isIns)
      exact (noWriter isWriter).elim
  · intro a inChain
    obtain ⟨i, isEntry, -, isXmin, -⟩ := (mem_leftVersions.mp (version inChain).2).1
    exact ⟨i, isEntry, by rw [entry_eq]; exact isXmin⟩
  · simp only [entry_eq]
    exact inv.entryXid
  · intro i isEntry off
    rw [entry_eq] at off ⊢
    cases isStaying : s.stays moved i with
    | false => exact .inr (.inl (by simp))
    | true =>
      simp only [isStaying, if_true, Bool.true_eq_false, false_or] at off
      refine .inr (.inr ?_)
      -- an id without a node was left out of the chain
      have isOld : transactionIdPrecedes (s.entries i).xmin horizon := by
        by_contra recent
        have inVersions := mem_leftVersions.mpr
          ⟨⟨i, (show i < s.count from isEntry), isStaying, rfl, eq_false_of_ne_true recent⟩, rfl⟩
        rw [← isVersions] at inVersions
        obtain ⟨a, mem, isVersion⟩ := List.mem_map.mp inVersions
        exact absurd (congrArg Prod.fst isVersion) (by simpa using find?_eq_none.mp off a mem)
      exact inv.settled_of_lt isOldest
        (lt_of_transactionIdPrecedes (inv.entryXid i isEntry).1 (near i isEntry) isOld)
  · dsimp only [splitLeft]
    rw [collector]
    exact inv.xacts
  · dsimp only [splitLeft]
    rw [collector]
    exact inv.live

end

section

variable {s : Pivot} {typ : AggType} {label : PivotLabel}

inductive PivotMove (typ : AggType) (s : Pivot) : PivotLabel → Pivot → Prop where
  | start : PivotMove typ s .start { s with
      nextXid := transactionIdAdvance s.nextXid, running := s.nextXid :: s.running }
  | finish {xid : Xid} {aborts : Bool} (isRunning : xid ∈ s.running)
      (noInserts : s.insertsFor xid = false) :
      PivotMove typ s (.finish xid aborts) { s with
        latestCompletedXid := max s.latestCompletedXid xid
        running := s.running.filter fun other => other ≠ xid
        aborted := if aborts then xid :: s.aborted else s.aborted }
  | snapshot {own : Option Xid} {snapshot : AbtSnapshot}
      (prepared : prepareSnapshotForSampling (some (s.getSnapshotData own)) = some snapshot) :
      PivotMove typ s (.snapshot own) { s with live := ⟨snapshot, own⟩ :: s.live }
  | release {live : LiveSnapshot} (unread : ∀ reader ∈ s.reader, reader.live ≠ live) :
      PivotMove typ s (.release live) { s with
        live := s.live.filter fun other => other ≠ live }
  | add {tid : Tid} {xmin : Xid} {value : Nat} {versions : State} (isRunning : xmin ∈ s.running)
      (notWriting : s.writers.lookup tid = none) (notReading : s.readsFor xmin = false)
      (step : next s.versions (.insert tid xmin) = some versions) :
      PivotMove typ s (.add tid xmin value) (s.addEntry typ tid xmin value versions)
  | addDelta {tid : Tid} {i : Nat} {addr : Addr} (isWriter : (tid, i) ∈ s.writers)
      (isReturned : s.versions.threads tid = .returned addr) :
      PivotMove typ s (.addDelta tid) (s.addToVersion typ tid i addr)
  | store {inner : Label} {versions : State} (isInternal : s.internal inner = true)
      (step : next s.versions inner = some versions) :
      PivotMove typ s (.store inner) { s with versions := versions }
  | remove {i : Nat} (isRemovable : s.removable i = true) :
      PivotMove typ s (.remove i) (s.removeEntry i)
  | decrement {sum : Nat} (isVacuum : s.vacuum = some sum) :
      PivotMove typ s .decrement { s with
        agg := (s.agg + typ.wordRange - sum % typ.wordRange) % typ.wordRange, vacuum := none }
  | removeDead {i : Nat} : PivotMove typ s (.removeDead i) { s with
      entries := update s.entries i { s.entries i with present := false } }
  | split {tid : Tid} {moved : List Nat} {xid : Xid} {accesses : Nat} {after : State}
      (noInsert : s.writers = []) (noVacuum : s.vacuum = none) (noReader : s.reader = none)
      (isOldest : s.oldest xid = true) (replaced : Run.run next s.versions
        (.replace tid (s.leftVersions moved xid) :: replicate accesses (.step tid)) = some after)
      (isDone : after.threads tid = .idle) :
      PivotMove typ s (.split tid moved xid accesses)
        (s.splitLeft moved after (newAddrs s.versions.store (s.leftVersions moved xid)))
  | read {live : LiveSnapshot} (isLive : live ∈ s.live)
      (notInserting : ∀ xid ∈ live.own, s.insertsFor xid = false) :
      PivotMove typ s (.read live) { s with
        reader := some ⟨live, live.snapshot.xip, typ.read s.agg, .findHead, s.count⟩ }
  | readStep {reader : Reader} (isReading : s.reader = some reader) :
      PivotMove typ s .readStep { s with
        reader := some (reader.step typ s.versions.store) }
  | endRead : PivotMove typ s .endRead { s with reader := none }

theorem mem_of_lookup {writers : List (Tid × Nat)}
    (found : writers.lookup tid = some i) : (tid, i) ∈ writers := by
  obtain ⟨pre, after, isSplit, -⟩ := lookup_eq_some_iff.mp found
  simp [isSplit]

theorem pivotNext_move (step : pivotNext typ s label = some s') : PivotMove typ s label s' := by
  cases label with
  | start =>
    cases step
    exact .start
  | finish xid aborts =>
    simp only [pivotNext, ite_none_right_eq_some, some.injEq] at step
    obtain ⟨⟨isRunning, noInserts⟩, rfl⟩ := step
    exact .finish isRunning noInserts
  | snapshot own =>
    simp only [pivotNext, map_eq_some_iff] at step
    obtain ⟨snapshot, prepared, rfl⟩ := step
    exact .snapshot prepared
  | release live =>
    simp only [pivotNext, ite_none_right_eq_some, Option.some.injEq, Option.all_eq_true,
      decide_eq_true_eq] at step
    obtain ⟨unread, rfl⟩ := step
    exact .release unread
  | add tid xmin value =>
    simp only [pivotNext, ite_none_right_eq_some, map_eq_some_iff] at step
    obtain ⟨⟨isRunning, notWriting, notReading⟩, versions, begun, rfl⟩ := step
    exact .add isRunning notWriting notReading begun
  | addDelta tid =>
    cases isWriter : s.writers.lookup tid with
    | none => simp [pivotNext, isWriter] at step
    | some i =>
      cases isReturned : s.versions.threads tid with
      | returned addr =>
        simp only [pivotNext, isWriter, isReturned, some.injEq] at step
        subst step
        exact .addDelta (mem_of_lookup isWriter) isReturned
      | _ => simp [pivotNext, isWriter, isReturned] at step
  | store inner =>
    simp only [pivotNext, ite_none_right_eq_some, map_eq_some_iff] at step
    obtain ⟨isInternal, versions, moved, rfl⟩ := step
    exact .store isInternal moved
  | remove i =>
    simp only [pivotNext, ite_none_right_eq_some, some.injEq] at step
    obtain ⟨isRemovable, rfl⟩ := step
    exact .remove isRemovable
  | decrement =>
    obtain ⟨sum, isVacuum, rfl⟩ := map_eq_some_iff.mp step
    exact .decrement isVacuum
  | removeDead i =>
    simp only [pivotNext, ite_none_right_eq_some, some.injEq] at step
    obtain ⟨-, rfl⟩ := step
    exact .removeDead
  | split tid moved xid accesses =>
    simp only [pivotNext, ite_none_right_eq_some, bind_eq_some_iff, some.injEq] at step
    obtain ⟨⟨noInsert, noVacuum, noReader, isOldest⟩, after, replaced, isDone, rfl⟩ := step
    exact .split noInsert noVacuum noReader isOldest replaced isDone
  | read live =>
    simp only [pivotNext, ite_none_right_eq_some, Option.some.injEq, Option.all_eq_true,
      Bool.not_eq_true'] at step
    obtain ⟨⟨-, isLive, notInserting⟩, rfl⟩ := step
    exact .read isLive notInserting
  | readStep =>
    obtain ⟨reader, isReading, rfl⟩ := map_eq_some_iff.mp step
    exact .readStep isReading
  | endRead =>
    cases step
    exact .endRead

theorem pivotNext_inv (inv : PivotInv typ s) (sound : Sound typ s label)
    (step : pivotNext typ s label = some s') : PivotInv typ s' := by
  obtain ⟨window, near, fits, notHidden, remembers, nearHorizon⟩ := sound
  cases pivotNext_move step with
  | start => exact start_inv inv
  | finish isRunning noInserts => exact finish_inv inv isRunning noInserts
  | snapshot prepared => exact snapshot_inv inv window prepared
  | release unread => exact release_inv inv _
  | add isRunning notWriting notReading begun =>
    exact addEntry_inv inv isRunning notWriting begun (fits _ rfl)
  | addDelta isWriter isReturned => exact addToVersion_inv inv isWriter isReturned
  | store isInternal moved => exact store_inv inv isInternal (near _ rfl) moved
  | @remove i isRemovable =>
    apply removeEntry_inv inv isRemovable
    intro live isLive hides
    have isEntry : i < s.count := by
      simp only [removable, Bool.and_eq_true, decide_eq_true_eq] at isRemovable
      exact isRemovable.1.1.1
    have isHidden := (inv.xidInSnapshot_iff window isLive isEntry).mpr hides
    rw [notHidden i rfl live isLive] at isHidden
    cases isHidden
  | decrement isVacuum => exact decrement_inv inv isVacuum
  | removeDead => cases remembers
  | split noInsert noVacuum noReader isOldest replaced isDone =>
    exact split_inv inv (fun i isEntry => nearHorizon _ rfl _ (entry_mem_xids isEntry)) noInsert
      noVacuum isOldest (replaced_of_run inv.versions replaced isDone) isDone
  | read isLive notInserting => exact { inv with }
  | readStep isReading => exact { inv with }
  | endRead => exact { inv with }

theorem emptyPivot_inv (typ : AggType) : PivotInv typ emptyPivot where
  versions := initial_inv
  noReplacement := by simp [emptyPivot, initial]
  agg := rfl
  fits := by cases typ <;> decide
  delta _ _ := rfl
  unused _ _ := rfl
  node i isEntry := absurd isEntry (Nat.not_lt_zero i)
  writer tid i isWriter := by cases isWriter
  inserting tid f isIns := by cases isIns
  chainEntry addr inChain := by
    obtain ⟨nodes, listed, mem⟩ := inChain
    cases (Store.listed_none rfl).mp listed
    cases mem
  oneEntry tid first second isFirst := by cases isFirst
  oneWriter first second i isFirst := by cases isFirst
  entryXid i isEntry := absurd isEntry (Nat.not_lt_zero i)
  uncounted i isEntry := absurd isEntry (Nat.not_lt_zero i)
  xacts := ⟨by decide, by decide, by decide, fun xid mem => by cases mem⟩
  live live isLive := by cases isLive

theorem pivotRun_inv (inv : PivotInv typ s)
    (meets : Run.Meets (pivotNext typ) (Sound typ) s schedule)
    (reached : Run.run (pivotNext typ) s schedule = some s') : PivotInv typ s' :=
  Run.invariant (PivotInv typ) (fun inv sound step => pivotNext_inv inv sound step) inv meets
    reached

end

end PgAqp.VersionStore
