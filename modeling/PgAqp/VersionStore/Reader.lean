import PgAqp.VersionStore.ReadAgg

/-!
# A reader among insertions

The reader takes the aggregate first and the version chain afterwards.  An insertion that
adds to both in between is subtracted without having been counted.  The reader holds the
entries that its snapshot sees, and the hidden ones whose version it has not passed.
-/

namespace PgAqp.VersionStore

open Hash (Ptr Addr rawptr)
open Library List ReaderPc Reader Pivot

def ReaderPc.entry : ReaderPc → Option EntryId
  | .readHead e => some e
  | _ => none

def ReaderPc.subtracts : ReaderPc → Option Addr
  | .readDelta a => some a
  | _ => none

def ReaderPc.node : ReaderPc → Option Addr
  | .readDelta a => some a
  | .readNext a => some a
  | _ => none

/-- Whether the reader has yet to come to the versions of an id. -/
def ReaderPc.ahead (st : Store) (xid : Xid) : ReaderPc → Bool
  | .findHead => true
  | .readHead _ => true
  | .readDelta a => decide (xid ≤ st.xminOf a)
  | .readNext a => decide (xid < st.xminOf a)
  | .done => false
  | .crashed => false

def Reader.holds (st : Store) (reader : Reader) (e : Entry) : Nat :=
  if e.present = true ∧
      (¬ reader.live.snapshot.Hides e.xmin ∨ reader.pc.ahead st e.xmin = true) then
    e.value
  else 0

def Reader.held (s : Pivot) (reader : Reader) : Nat :=
  ∑ i ∈ Finset.range reader.seen, reader.holds s.versions.store (s.entries i)

structure ReaderOk (s : Pivot) (reader : Reader) : Prop where
  isLive : reader.live ∈ s.live
  seen : reader.seen ≤ s.count
  later : ∀ i < s.count, reader.seen ≤ i →
    reader.live.snapshot.Hides (s.entries i).xmin
  entry : ∀ e ∈ reader.pc.entry, e < s.versions.store.freshEntry
  node : ∀ a ∈ reader.pc.node, s.versions.store.InChain a ∧
    reader.live.snapshot.xmin ≤ s.versions.store.xminOf a
  hidden : ∀ a ∈ reader.pc.subtracts,
    reader.live.snapshot.Hides (s.versions.store.xminOf a)
  covers : reader.pc ≠ .done → ∀ xid, (∀ a ∈ reader.pc.node, xid < s.versions.store.xminOf a) →
    Covers reader.live.snapshot reader.xip xid
  alive : reader.pc ≠ .crashed
  held : reader.held s ≤ reader.agg
  fits : reader.agg < 18446744073709551616

/-- The reader subtracts only values that were in the aggregate when it was read. -/
def Counted (typ : AggType) (s : Pivot) (label : PivotLabel) : Prop :=
  Sound typ s label ∧ (label = .readStep → ∀ reader ∈ s.reader,
    ∀ a ∈ reader.pc.subtracts, ∀ i ∈ range s.count,
      (s.entries i).node = some a → i < reader.seen)
  deriving Decidable

section

variable {typ : AggType} {s : Pivot} {reader : Reader} {a : Addr}

theorem Reader.held_mono (pre after : Reader) (sameLive : after.live = pre.live)
    (sameSeen : after.seen = pre.seen)
    (fewer : ∀ xid, after.pc.ahead s.versions.store xid → pre.pc.ahead s.versions.store xid) :
    after.held s ≤ pre.held s := by
  unfold held
  rw [sameSeen]
  apply Finset.sum_le_sum
  intro i _
  unfold holds
  rw [sameLive]
  split
  · next holdsAfter => rw [if_pos ⟨holdsAfter.1, holdsAfter.2.imp_right (fewer _)⟩]
  · exact Nat.zero_le _

theorem ReaderOk.finish (ok : ReaderOk s reader) : ReaderOk s { reader with pc := .done } :=
  { ok with
    entry := by simp [ReaderPc.entry]
    node := by simp [ReaderPc.node]
    hidden := by simp [subtracts]
    covers notDone := absurd rfl notDone
    alive := by simp
    held := Nat.le_trans (held_mono reader _ rfl rfl (by simp [ahead])) ok.held }

/-- The reader looks at a pointer that leads to the next node of the chain, if there is one. -/
theorem ReaderOk.look (inv : PivotInv typ s) (window : Window s) (ok : ReaderOk s reader)
    (follows : cur = Ptr.null ∨ ∃ a, cur = .ofNode a ∧ s.versions.store.InChain a ∧
      Covers reader.live.snapshot reader.xip (s.versions.store.xminOf a) ∧
      ∀ xid ≤ s.versions.store.xminOf a, reader.pc.ahead s.versions.store xid) :
    ReaderOk s (reader.look s.versions.store cur) := by
  unfold Reader.look
  rcases follows with rfl | ⟨a, rfl, inChain, covers, allAhead⟩
  · exact ok.finish
  · simp only [Ptr.ofNode]
    obtain ⟨i, isEntry, isXmin⟩ := inv.chainEntry a inChain
    have near : reader.live.snapshot.NearTo (s.versions.store.xminOf a) := by
      rw [← isXmin]
      exact window.nearTo ok.isLive (entry_mem_xids isEntry)
    rcases verdict_spec near covers with ⟨old, isStop⟩ | ⟨hides, rest, isSubtract, restCovers⟩ |
      ⟨seen, recent, rest, isKeep, restCovers⟩
    · simp only [isStop]
      exact ok.finish
    · simp only [isSubtract]
      have recent := (inv.live _ ok.isLive).ok.hides_ge hides
      refine { ok with entry := ?_, node := ?_, hidden := ?_, covers := ?_, alive := ?_, held := ?_ }
      · simp [ReaderPc.entry]
      · simpa [ReaderPc.node] using ⟨inChain, recent⟩
      · simpa [subtracts] using hides
      · simpa [ReaderPc.node] using restCovers
      · simp
      · refine Nat.le_trans (held_mono reader _ rfl rfl ?_) ok.held
        simpa [ahead] using allAhead
    · simp only [isKeep]
      refine { ok with entry := ?_, node := ?_, hidden := ?_, covers := ?_, alive := ?_, held := ?_ }
      · simp [ReaderPc.entry]
      · simpa [ReaderPc.node] using ⟨inChain, recent⟩
      · simp [subtracts]
      · simpa [ReaderPc.node] using restCovers
      · simp
      · refine Nat.le_trans (held_mono reader _ rfl rfl ?_) ok.held
        intro xid isAhead
        exact allAhead xid (Nat.le_of_lt (by simpa [ahead] using isAhead))

/-- A pointer without a mark follows the link that it was read from. -/
theorem Position.follow (pos : Position st e link front back) (cur : Ptr)
    (isNode : cur.node = st.linkOf link) (plain : cur.marked = false) :
    cur = Ptr.null ∨ ∃ a rest, cur = .ofNode a ∧ back = a :: rest := by
  obtain ⟨node, marked⟩ := cur
  subst plain
  rw [pos.linkOf_eq] at isNode
  cases back with
  | nil =>
    cases isNode
    exact .inl rfl
  | cons a rest =>
    cases isNode
    exact .inr ⟨a, rest, rfl, rfl⟩

variable (inv : PivotInv typ s)
include inv

theorem ReaderOk.readHead (window : Window s)
    (ok : ReaderOk s reader) (atPc : reader.pc = .readHead e) :
    ReaderOk s (reader.look s.versions.store (s.versions.store.heads e).getUnmarked) := by
  apply ok.look inv window
  by_cases live : s.versions.store.entry = some e
  · obtain ⟨nodes, listed, -⟩ := inv.versions.store.listed
    rcases (Position.atHead live listed).follow (s.versions.store.heads e).getUnmarked
      rfl rfl with isNull | ⟨a, rest, isAddr, isCons⟩
    · exact .inl isNull
    · refine .inr ⟨a, isAddr, ⟨nodes, listed, by simp [isCons]⟩, ?_, ?_⟩
      · apply ok.covers
        · simp [atPc]
        · simp [atPc, ReaderPc.node]
      · simp [atPc, ahead]
  · left
    rw [inv.versions.store.dead (ok.entry e (by simp [atPc, ReaderPc.entry])) live]
    rfl

theorem ReaderOk.readNext (window : Window s)
    (ok : ReaderOk s reader) (atPc : reader.pc = .readNext a) :
    ReaderOk s (reader.look s.versions.store (s.versions.store.read (.node a))) := by
  obtain ⟨inChain, -⟩ := ok.node a (by simp [atPc, ReaderPc.node])
  obtain ⟨e, live⟩ := inChain.live
  obtain ⟨init, back, pos⟩ := Position.atNode live inChain
  apply ok.look inv window
  rcases pos.follow (s.versions.store.read (.node a)) rfl
    (inv.versions.store.plain a) with isNull | ⟨next, rest, isNext, isCons⟩
  · exact .inl isNull
  · have descending := (inv.versions.store.nodes_nodup pos.listed).1
    have smaller : s.versions.store.xminOf next < s.versions.store.xminOf a :=
      (Store.descending_append.mp descending).2.2 a (by simp) next (by simp [isCons])
    refine .inr ⟨next, isNext, ⟨_, pos.listed, by simp [isCons]⟩, ?_, ?_⟩
    · apply ok.covers
      · simp [atPc]
      · simpa [atPc, ReaderPc.node] using smaller
    · intro xid le
      simpa [atPc, ahead] using le.trans_lt smaller

/-- What the reader subtracts was counted, so it holds at least that much. -/
theorem ReaderOk.held_readDelta (ok : ReaderOk s reader) (atPc : reader.pc = .readDelta a)
    (counted : ∀ i < s.count, (s.entries i).node = some a → i < reader.seen) :
    Reader.held s { reader with pc := .readNext a } +
      (s.versions.store.nodes a).deltaVal ≤ reader.held s := by
  have hides := ok.hidden a (by simp [atPc, subtracts])
  have isDelta : (s.versions.store.nodes a).deltaVal =
      ∑ i ∈ Finset.range reader.seen, (s.entries i).valueIn a := by
    rw [inv.delta a (ok.node a (by simp [atPc, ReaderPc.node])).1, Pivot.sum]
    symm
    apply Finset.sum_subset (Finset.range_mono ok.seen)
    intro i mem notSeen
    unfold Entry.valueIn
    rw [if_neg]
    intro isNode
    exact notSeen (Finset.mem_range.mpr (counted i (Finset.mem_range.mp mem) isNode))
  rw [isDelta]
  unfold Reader.held
  rw [← Finset.sum_add_distrib]
  apply Finset.sum_le_sum
  intro i mem
  have isEntry : i < s.count := (Finset.mem_range.mp mem).trans_le ok.seen
  unfold Entry.valueIn
  split
  next isNode =>
    have sameXmin := (inv.node i isEntry a isNode).sameXmin
    rw [sameXmin] at hides
    rcases inv.present_of_hides ok.isLive isEntry hides with isPresent | isZero
    · simp [holds, isPresent, hides, atPc, ahead, sameXmin]
    · simp [holds, isZero]
  · simp only [holds, atPc, ahead, decide_eq_true_eq, Nat.add_zero]
    split
    · next holdsAfter => rw [if_pos ⟨holdsAfter.1, holdsAfter.2.imp_right Nat.le_of_lt⟩]
    · exact Nat.zero_le _

theorem ReaderOk.readDelta (ok : ReaderOk s reader) (atPc : reader.pc = .readDelta a)
    (counted : ∀ i < s.count, (s.entries i).node = some a → i < reader.seen) :
    typ.read (s.versions.store.nodes a).deltaVal ≤ reader.agg ∧
      ReaderOk s { reader with
        agg := sub64 reader.agg (typ.read (s.versions.store.nodes a).deltaVal)
        pc := .readNext a } := by
  have held := ok.held_readDelta inv atPc counted
  have small : typ.read (s.versions.store.nodes a).deltaVal ≤
      (s.versions.store.nodes a).deltaVal := Nat.mod_le _ _
  have enough : typ.read (s.versions.store.nodes a).deltaVal ≤ reader.agg := by
    have heldBefore := ok.held
    omega
  refine ⟨enough, ?_⟩
  rw [sub64_eq enough ok.fits]
  have fits : reader.agg - typ.read (s.versions.store.nodes a).deltaVal <
      18446744073709551616 := (Nat.sub_le _ _).trans_lt ok.fits
  refine { ok with
    entry := ?_, node := ?_, hidden := ?_, covers := ?_, alive := ?_, held := ?_, fits := fits }
  · simp [ReaderPc.entry]
  · simpa [atPc, ReaderPc.node] using ok.node
  · simp [subtracts]
  · simpa [atPc, ReaderPc.node] using ok.covers
  · simp
  · have heldBefore := ok.held
    have same : Reader.held s { reader with
        agg := reader.agg - typ.read (s.versions.store.nodes a).deltaVal
        pc := .readNext a } = Reader.held s { reader with pc := .readNext a } := rfl
    dsimp only
    omega

theorem ReaderOk.step (window : Window s) (ok : ReaderOk s reader)
    (counted : ∀ a ∈ reader.pc.subtracts, ∀ i < s.count,
      (s.entries i).node = some a → i < reader.seen) :
    ReaderOk s (reader.step typ s.versions.store) := by
  unfold Reader.step
  cases atPc : reader.pc with
  | findHead =>
    dsimp only
    split
    · exact ok.finish
    next e isLive =>
      refine { ok with entry := ?_, node := ?_, hidden := ?_, covers := ?_, alive := ?_, held := ?_ }
      · simpa [ReaderPc.entry] using inv.versions.store.entryOld isLive
      · simp [ReaderPc.node]
      · simp [subtracts]
      · simpa [atPc, ReaderPc.node] using ok.covers
      · simp
      · refine Nat.le_trans (held_mono reader _ rfl rfl ?_) ok.held
        simp [atPc, ahead]
  | readHead e => exact ok.readHead inv window atPc
  | readDelta a => exact (ok.readDelta inv atPc (counted a (by simp [atPc, subtracts]))).2
  | readNext a => exact ok.readNext inv window atPc
  | done => exact ok
  | crashed => exact absurd atPc ok.alive

end

/-- What the steps of the others keep for a reader. -/
structure Undisturbed (reader : Reader) (s s' : Pivot) : Prop where
  isLive : reader.live ∈ s'.live
  count : s.count ≤ s'.count
  old : ∀ i < s.count, (s'.entries i).xmin = (s.entries i).xmin ∧
    (s'.entries i).value = (s.entries i).value ∧
    ((s'.entries i).present = true → (s.entries i).present = true)
  new : ∀ i < s'.count, s.count ≤ i →
    reader.live.snapshot.Hides (s'.entries i).xmin
  freshEntry : s.versions.store.freshEntry ≤ s'.versions.store.freshEntry
  chain : ∀ a, s.versions.store.InChain a →
    reader.live.snapshot.xmin ≤ s.versions.store.xminOf a →
    s'.versions.store.InChain a ∧
      s'.versions.store.xminOf a = s.versions.store.xminOf a

section

variable {typ : AggType} {s s' : Pivot} {reader : Reader}

theorem Undisturbed.ahead (others : Undisturbed reader s s') (ok : ReaderOk s reader) (xid : Xid) :
    reader.pc.ahead s'.versions.store xid = reader.pc.ahead s.versions.store xid := by
  have sameXmin : ∀ a ∈ reader.pc.node, s'.versions.store.xminOf a = s.versions.store.xminOf a := by
    intro a isNode
    obtain ⟨inChain, recent⟩ := ok.node a isNode
    exact (others.chain a inChain recent).2
  cases atPc : reader.pc with
  | readDelta a =>
    simp only [ReaderPc.ahead]
    rw [sameXmin a (by simp [atPc, node])]
  | readNext a =>
    simp only [ReaderPc.ahead]
    rw [sameXmin a (by simp [atPc, node])]
  | _ => rfl

theorem ReaderOk.stable (others : Undisturbed reader s s') (ok : ReaderOk s reader) :
    ReaderOk s' reader := by
  have moved : ∀ a ∈ reader.pc.node, s'.versions.store.InChain a ∧
      s'.versions.store.xminOf a = s.versions.store.xminOf a := by
    intro a isNode
    obtain ⟨inChain, recent⟩ := ok.node a isNode
    exact others.chain a inChain recent
  have isNode : ∀ a ∈ reader.pc.subtracts, a ∈ reader.pc.node := by
    intro a subtracts
    cases atPc : reader.pc with
    | readDelta other => simpa [atPc, ReaderPc.subtracts, ReaderPc.node] using subtracts
    | _ => simp [atPc, ReaderPc.subtracts] at subtracts
  refine { ok with isLive := others.isLive, seen := ?_, later := ?_, entry := ?_, node := ?_,
                   hidden := ?_, covers := ?_, held := ?_ }
  · exact ok.seen.trans others.count
  · intro i isEntry notSeen
    by_cases isOld : i < s.count
    · rw [(others.old i isOld).1]
      exact ok.later i isOld notSeen
    · exact others.new i isEntry (Nat.le_of_not_lt isOld)
  · intro e isEntry
    exact (ok.entry e isEntry).trans_le others.freshEntry
  · intro a atNode
    rw [(moved a atNode).2]
    exact ⟨(moved a atNode).1, (ok.node a atNode).2⟩
  · intro a subtracts
    rw [(moved a (isNode a subtracts)).2]
    exact ok.hidden a subtracts
  · intro notDone xid below
    apply ok.covers notDone xid
    intro a atNode
    rw [← (moved a atNode).2]
    exact below a atNode
  · apply Nat.le_trans _ ok.held
    apply Finset.sum_le_sum
    intro i mem
    have isOld : i < s.count := (Finset.mem_range.mp mem).trans_le ok.seen
    obtain ⟨sameXmin, sameValue, stillPresent⟩ := others.old i isOld
    unfold holds
    rw [sameXmin, sameValue, others.ahead ok]
    split
    · next holdsAfter => rw [if_pos ⟨stillPresent holdsAfter.1, holdsAfter.2⟩]
    · exact Nat.zero_le _

variable {versions : State} {inner : Label} {live : LiveSnapshot}

theorem next_freshEntry (inv : StateInv versions)
    (careful : Careful versions inner) (step : next versions inner = some versions') :
    versions.store.freshEntry ≤ versions'.store.freshEntry := by
  by_cases isGc : inner = .gc
  · subst isGc
    cases next_move step with
    | gc running => exact (gcStep_ok inv.store inv.gc (careful.1.2 rfl)).access.freshEntry.symm.le
  · exact (next_others inv careful isGc step).freshEntry

/-- A step of the version store keeps the nodes that a snapshot in use needs. -/
theorem Undisturbed.ofNext (inv : PivotInv typ s) (careful : Careful s.versions inner)
    (step : next s.versions inner = some versions) (same : s'.versions = versions)
    (inv' : PivotInv typ s') (isLive : reader.live ∈ s'.live) (count : s.count ≤ s'.count)
    (old : ∀ i < s.count, (s'.entries i).xmin = (s.entries i).xmin ∧
      (s'.entries i).value = (s.entries i).value ∧
      ((s'.entries i).present → (s.entries i).present))
    (new : ∀ i < s'.count, s.count ≤ i → reader.live.snapshot.Hides (s'.entries i).xmin) :
    Undisturbed reader s s' := by
  subst same
  refine ⟨isLive, count, old, new, next_freshEntry inv.versions careful step, ?_⟩
  intro a inChain recent
  obtain ⟨sameXmin, still | outdated⟩ :=
    next_kept inv.versions careful (next_notReplacing inv.noReplacement) step inChain
  · exact ⟨still, sameXmin⟩
  · exact absurd outdated ((Nat.le_trans (inv'.live _ isLive).horizon recent).not_gt)

theorem Undisturbed.ofSame (same : s'.versions = s.versions)
    (sameCount : s'.count = s.count) (isLive : reader.live ∈ s'.live)
    (old : ∀ i, (s'.entries i).xmin = (s.entries i).xmin ∧
      (s'.entries i).value = (s.entries i).value ∧
      ((s'.entries i).present → (s.entries i).present)) :
    Undisturbed reader s s' := by
  refine ⟨isLive, sameCount.symm.le, fun i _ => old i, ?_, ?_, ?_⟩
  · intro i isEntry isNew
    rw [sameCount] at isEntry
    exact absurd isEntry (isNew.not_gt)
  · rw [same]
  · intro a inChain _
    rw [same]
    exact ⟨inChain, rfl⟩

variable (inv : PivotInv typ s)
include inv

/-- A reader that has just read the aggregate holds everything that is in it. -/
theorem ReaderOk.begin (isLive : live ∈ s.live) :
    ReaderOk s ⟨live, live.snapshot.xip, typ.read s.agg, .findHead, s.count⟩ where
  isLive := isLive
  seen := le_rfl
  later i isEntry isLater := absurd isEntry (isLater.not_gt)
  entry := by simp [ReaderPc.entry]
  node := by simp [ReaderPc.node]
  hidden := by simp [subtracts]
  covers _ xid _ := Covers.whole (inv.live live isLive).ok xid
  alive := by simp
  held := by
    rw [AggType.read, Nat.mod_eq_of_lt inv.fits, inv.agg]
    apply Nat.le_trans _ (Nat.le_add_right _ _)
    apply Finset.sum_le_sum
    intro i _
    unfold holds Entry.presentValue
    split
    · next isHeld => rw [if_pos isHeld.1]
    · exact Nat.zero_le _
  fits := typ.read_lt _

/-- An entry that is added while a snapshot of another transaction reads is hidden from it. -/
theorem PivotInv.hides_running (isLive : live ∈ s.live) (isRunning : xmin ∈ s.running)
    (isReading : s.reader = some reader) (sameLive : reader.live = live)
    (notReading : s.readsFor xmin = false) : live.snapshot.Hides xmin := by
  apply (inv.live live isLive).hidden xmin isRunning
  rintro isOwn
  simp [readsFor, isReading, sameLive, ← isOwn] at notReading

theorem undisturbed_of_move (inv' : PivotInv typ s')
    (sound : Sound typ s label) (isReading : s.reader = some reader)
    (isLive : reader.live ∈ s.live) (move : PivotMove typ s label s')
    (notRead : label ≠ .readStep) (still : s'.reader = some reader) :
    Undisturbed reader s s' := by
  obtain ⟨-, careful, -, -, remembers, -⟩ := sound
  cases move with
  | start => exact .ofSame rfl rfl isLive fun _ => ⟨rfl, rfl, id⟩
  | finish isRunning noInserts => exact .ofSame rfl rfl isLive fun _ => ⟨rfl, rfl, id⟩
  | snapshot prepared => exact .ofSame rfl rfl (mem_cons_of_mem _ isLive) fun _ => ⟨rfl, rfl, id⟩
  | release unread =>
    refine .ofSame rfl rfl ?_ fun _ => ⟨rfl, rfl, id⟩
    simpa using ⟨isLive, unread reader isReading⟩
  | @add tid xmin value versions isRunning notWriting notReading begun =>
    refine .ofNext inv (by exact careful_of_quiet rfl nofun) begun rfl inv' isLive (Nat.le_succ _) ?_ ?_
    · intro i isEntry
      simp [addEntry, isEntry.ne]
    · intro i isEntry isNew
      have isLast : i = s.count := Nat.le_antisymm (Nat.le_of_lt_succ isEntry) isNew
      subst isLast
      simpa [addEntry] using inv.hides_running isLive isRunning isReading rfl notReading
  | @addDelta tid i a isWriter isReturned =>
    have agrees := Agrees.addDelta inv.versions.store a (s.entries i).value typ.wordRange
    refine ⟨isLive, le_rfl, ?_, ?_, agrees.freshEntry.symm.le, ?_⟩
    · intro other _
      rw [entries_addToVersion]
      exact ⟨rfl, rfl, id⟩
    · intro other isEntry isNew
      exact absurd isEntry (isNew.not_gt)
    · intro node inChain _
      exact ⟨(agrees.inChain_iff inv.versions.store).mpr inChain, Store.xminOf_addDelta⟩
  | store isInternal moved =>
    refine .ofNext inv (careful _ rfl) moved rfl inv' isLive le_rfl ?_ ?_
    · intro i _
      exact ⟨rfl, rfl, id⟩
    · intro i isEntry isNew
      exact absurd isEntry (isNew.not_gt)
  | @remove victim isRemovable =>
    refine .ofSame rfl rfl isLive fun i => ?_
    rw [entries_removeEntry]
    refine ⟨rfl, rfl, fun isPresent => ?_⟩
    split at isPresent
    · cases isPresent
    · exact isPresent
  | decrement isVacuum => exact .ofSame rfl rfl isLive fun _ => ⟨rfl, rfl, id⟩
  | removeDead => cases remembers
  | split noInsert noVacuum noReader isOldest replaced isDone =>
    cases noReader.symm.trans isReading
  | read isLive' notInserting => exact .ofSame rfl rfl isLive fun _ => ⟨rfl, rfl, id⟩
  | readStep isReading' => exact absurd rfl notRead
  | endRead => cases still

theorem pivotNext_reader (ok : ∀ reader ∈ s.reader, ReaderOk s reader)
    (counted : Counted typ s label) (step : pivotNext typ s label = some s') :
    ∀ reader ∈ s'.reader, ReaderOk s' reader := by
  obtain ⟨sound, counts⟩ := counted
  have inv' := pivotNext_inv inv sound step
  have move := pivotNext_move step
  -- Only the labels of the reader itself change it.
  have byOthers : label ≠ .readStep → s'.reader = s.reader →
      ∀ reader ∈ s'.reader, ReaderOk s' reader := by
    intro notRead same reader still
    have isReading : s.reader = some reader := same ▸ still
    have pre := ok reader isReading
    exact pre.stable (undisturbed_of_move inv inv' sound isReading pre.isLive move notRead still)
  cases move with
  | read isLive notInserting =>
    intro reader isReading
    cases isReading
    exact { ReaderOk.begin inv isLive with }
  | @readStep pre isReading =>
    intro reader isReading'
    cases isReading'
    have stepped := (ok pre isReading).step inv sound.1 fun a subtracts i isEntry =>
      counts rfl pre isReading a subtracts i (mem_range.mpr isEntry)
    exact { stepped with }
  | endRead =>
    intro reader isReading
    cases isReading
  | _ => exact byOthers (by simp) rfl

theorem ReaderOk.visible_le (window : Window s) (ok : ReaderOk s reader) :
    s.sum (Entry.visibleValue reader.live.snapshot) ≤ reader.agg := by
  have onlySeen : s.sum (Entry.visibleValue reader.live.snapshot) =
      ∑ i ∈ Finset.range reader.seen, (s.entries i).visibleValue reader.live.snapshot := by
    symm
    apply Finset.sum_subset (Finset.range_mono ok.seen)
    intro i mem notSeen
    have isEntry := Finset.mem_range.mp mem
    have hides := ok.later i isEntry (Nat.le_of_not_lt fun isSeen =>
      notSeen (Finset.mem_range.mpr isSeen))
    simp [Entry.visibleValue, (inv.xidInSnapshot_iff window ok.isLive isEntry).mpr hides]
  rw [onlySeen]
  apply Nat.le_trans _ ok.held
  apply Finset.sum_le_sum
  intro i mem
  have isEntry : i < s.count := (Finset.mem_range.mp mem).trans_le ok.seen
  unfold Entry.visibleValue holds
  split
  next isVisible =>
    have notHidden : ¬ reader.live.snapshot.Hides (s.entries i).xmin := by
      rw [← inv.xidInSnapshot_iff window ok.isLive isEntry, isVisible.2]
      simp
    rw [if_pos ⟨isVisible.1, .inl notHidden⟩]
  · exact Nat.zero_le _

end

/-- In every run whose readers subtract only values that were in the aggregate when they read it, a
reader never holds less than its snapshot sees, and what it subtracts next is not more than it
holds. -/
theorem reader_bounded {typ : AggType} {schedule : List PivotLabel} {s : Pivot}
    (meets : Run.Meets (pivotNext typ) (Counted typ) emptyPivot schedule)
    (reached : Run.run (pivotNext typ) emptyPivot schedule = some s) (window : Window s)
    {reader : Reader} (isReading : s.reader = some reader) :
    s.sum (Entry.visibleValue reader.live.snapshot) ≤ reader.agg ∧ reader.pc ≠ .crashed ∧
      ∀ a, reader.pc = .readDelta a → Counted typ s .readStep →
        typ.read (s.versions.store.nodes a).deltaVal ≤ reader.agg := by
  obtain ⟨inv, readers⟩ := Run.invariant
    (fun s => PivotInv typ s ∧ ∀ reader ∈ s.reader, ReaderOk s reader)
    (fun held counted step =>
      ⟨pivotNext_inv held.1 counted.1 step, pivotNext_reader held.1 held.2 counted step⟩)
    ⟨emptyPivot_inv typ, fun reader isReading => by cases isReading⟩ meets reached
  have ok := readers reader isReading
  refine ⟨ok.visible_le inv window, ok.alive, ?_⟩
  intro a atPc counted
  refine (ok.readDelta inv atPc fun i isEntry => ?_).1
  exact counted.2 rfl reader isReading a (by simp [atPc, ReaderPc.subtracts]) i
    (mem_range.mpr isEntry)

/-- Two transactions insert, one of them after a reader of a third has read the aggregate; the
reader subtracts the hidden version that it has counted. -/
def readsAmongInsertions : List PivotLabel :=
  [.start, .start] ++ insertion 0 3 10 3 ++ [.finish 3 false] ++ insertion 0 4 5 4 ++
    [.snapshot none, .read ⟨⟨4, 4, []⟩, none⟩, .start, .readStep, .readStep] ++ insertion 1 5 7 4 ++
    [.readStep, .readStep]

def readsAmongInsertionsEnd : Pivot := Run.last (pivotNext .int8) emptyPivot readsAmongInsertions

theorem readsAmongInsertions_bounded :
    readsAmongInsertionsEnd.agg = 22 ∧ ∃ reader, readsAmongInsertionsEnd.reader = some reader ∧
      reader.pc = .done ∧ reader.agg = 10 ∧
      readsAmongInsertionsEnd.sum (Entry.visibleValue reader.live.snapshot) ≤ reader.agg := by
  have reached : Run.run (pivotNext .int8) emptyPivot readsAmongInsertions =
      some readsAmongInsertionsEnd := Run.run_last (by decide)
  have isReading : readsAmongInsertionsEnd.reader =
      some ⟨⟨⟨4, 4, []⟩, none⟩, [], 10, .done, 2⟩ := by decide
  exact ⟨by decide, _, isReading, rfl, rfl,
    (reader_bounded (by decide) reached (by decide) isReading).1⟩

/-- An insertion adds to the aggregate and to its version between the two looks of a reader. -/
def insertsBetweenLooks : List PivotLabel :=
  [.start, .snapshot none, .read ⟨⟨3, 3, []⟩, none⟩] ++ insertion 0 3 10 3 ++
    replicate 4 .readStep

/-- The reader subtracts a value that it has never counted. -/
theorem insertsBetweenLooks_underflows :
    ∃ s reader, Run.run (pivotNext .int8) emptyPivot insertsBetweenLooks = some s ∧
      s.reader = some reader ∧ reader.pc = .done ∧ reader.agg = 18446744073709551606 ∧
      s.sum (Entry.visibleValue reader.live.snapshot) = 0 := by
  have reached : Run.run (pivotNext .int8) emptyPivot insertsBetweenLooks =
      some (Run.last (pivotNext .int8) emptyPivot insertsBetweenLooks) := Run.run_last (by decide)
  exact ⟨_, ⟨⟨⟨3, 3, []⟩, none⟩, [], 18446744073709551606, .done, 0⟩, reached, by decide, rfl, rfl,
    by decide⟩

end PgAqp.VersionStore
