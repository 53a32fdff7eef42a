import PgAqp.Wal.Dedup

/-!
# Passes over a leaf page

A pass over a page merges or starts anew at every item.  `DedupRun` allows either
where the primary could do it; the pass of the primary is such a run.  The intervals
that a run notes say which items it merged.
-/

namespace PgAqp.Wal

open Library Abtree List Option

inductive Starts (info : AggInfo) (limit : Int) (itup : IndexTuple) (offnum : Nat) : Pending → Prop
  | copied {parts : LeafParts} (small : itup.size ≤ limit)
      (read : itup.leafParts info true = some parts) :
      Starts info limit itup offnum (.start info itup offnum parts)
  | oversized : Starts info limit itup offnum (.oversized itup offnum)

inductive DedupRun (info : AggInfo) (limit : Int) :
    Pending → Page → Nat → List IndexTuple → Page → List DedupInterval → Prop
  | done {pending : Pending} {newpage res : Page} {offnum : Nat} {tup : IndexTuple}
      (formed : pending.result info true = some tup)
      (added : newpage.addItem tup (newpage.maxOffset + 1) = some res) :
      DedupRun info limit pending newpage offnum [] res pending.interval
  | merge {pending : Pending} {newpage res : Page} {offnum : Nat} {itup : IndexTuple}
      {items : List IndexTuple} {parts : LeafParts} {ivs : List DedupInterval}
      (copied : pending.parts.nhtids ≠ 0)
      (fits : pending.mergedSize info itup.leafCount ≤ limit)
      (read : itup.leafParts info true = some parts)
      (later : DedupRun info limit (pending.add parts) newpage (offnum + 1) items res ivs) :
      DedupRun info limit pending newpage offnum (itup :: items) res ivs
  | flush {pending next : Pending} {newpage flushed res : Page} {offnum : Nat}
      {tup itup : IndexTuple} {items : List IndexTuple} {ivs : List DedupInterval}
      (formed : pending.result info true = some tup)
      (added : newpage.addItem tup (newpage.maxOffset + 1) = some flushed)
      (starts : Starts info limit itup offnum next)
      (later : DedupRun info limit next flushed (offnum + 1) items res ivs) :
      DedupRun info limit pending newpage offnum (itup :: items) res
        (pending.interval ++ ivs)

/-! ## The primary -/

section

variable {info : AggInfo} {limit : Int} {s res : DedupState}

theorem startPending_starts (started : s.startPending info itup offnum = some res)
    (saveExtra : s.saveExtra) (small : s.maxpostingsize ≤ limit) :
    ∃ pending, res = { s with pending := some pending } ∧
      Starts info limit itup offnum pending := by
  unfold DedupState.startPending at started
  split at started
  next fits =>
    obtain ⟨parts, read, held⟩ := bind_eq_some_iff.mp started
    split at held
    · cases held
      rw [saveExtra] at read
      exact ⟨_, rfl, .copied (le_trans fits small) read⟩
    · cases held
  · cases started
    exact ⟨_, rfl, .oversized⟩

theorem saveHtid_merged (saved : s.saveHtid info itup = some (true, res)) :
    ∃ pending parts, s.pending = some pending ∧ pending.parts.nhtids ≠ 0 ∧
      pending.mergedSize info itup.leafCount ≤ s.maxpostingsize ∧
      itup.leafParts info s.saveExtra = some parts ∧
      res = { s with pending := some (pending.add parts) } := by
  obtain ⟨pending, isPending, rest⟩ := bind_eq_some_iff.mp saved
  split at rest
  · cases rest
  next some =>
    split at rest
    · cases rest
    next fits =>
      obtain ⟨parts, read, held⟩ := bind_eq_some_iff.mp rest
      split at held
      · cases held
        exact ⟨pending, parts, isPending, some, le_of_not_gt fits, read, rfl⟩
      · cases held

theorem saveHtid_refused (saved : s.saveHtid info itup = some (false, res)) :
    ∃ nmaxitems, res = { s with nmaxitems := nmaxitems } := by
  obtain ⟨pending, isPending, rest⟩ := bind_eq_some_iff.mp saved
  split at rest
  · cases rest
    split
    · exact ⟨_, rfl⟩
    · exact ⟨_, rfl⟩
  · split at rest
    · cases rest
      split
      · exact ⟨_, rfl⟩
      · exact ⟨_, rfl⟩
    · obtain ⟨parts, read, held⟩ := bind_eq_some_iff.mp rest
      split at held
      · cases held
      · cases held

theorem finishPending_eq {res : Page × DedupState}
    (finished : s.finishPending info newpage = some res) :
    ∃ pending tup, s.pending = some pending ∧ pending.result info s.saveExtra = some tup ∧
      newpage.addItem tup (newpage.maxOffset + 1) = some res.1 ∧
      res.2 = { s with
        pending := none
        intervals := s.intervals ++ pending.interval } := by
  obtain ⟨pending, isPending, rest⟩ := bind_eq_some_iff.mp finished
  obtain ⟨tup, formed, rest⟩ := bind_eq_some_iff.mp rest
  obtain ⟨page, added, rfl⟩ := map_eq_some_iff.mp rest
  exact ⟨pending, tup, isPending, formed, added, rfl⟩

theorem singlevalFillfactor_eq (s : DedupState) (newitemsz : Nat)
    (positive : 0 ≤ s.maxpostingsize) :
    ∃ maxpostingsize, 0 ≤ maxpostingsize ∧ maxpostingsize ≤ s.maxpostingsize ∧
      singlevalFillfactor s newitemsz = { s with maxpostingsize := maxpostingsize } := by
  unfold singlevalFillfactor
  dsimp only
  split
  · exact ⟨_, by omega, by omega, rfl⟩
  · exact ⟨_, le_rfl, positive, rfl⟩

/-- The single value strategy changes only the limits, and lowers them. -/
theorem singlevalStep_eq (newitemsz : Nat) (pass : DedupPass)
    (positive : 0 ≤ pass.state.maxpostingsize) :
    ∃ deduplicate maxpostingsize singlevalstrat, 0 ≤ maxpostingsize ∧
      maxpostingsize ≤ pass.state.maxpostingsize ∧
      singlevalStep newitemsz pass =
        ⟨{ pass.state with deduplicate := deduplicate, maxpostingsize := maxpostingsize },
          pass.newpage, singlevalstrat⟩ := by
  unfold singlevalStep
  split
  · split
    · obtain ⟨maxpostingsize, low, high, isState⟩ :=
        singlevalFillfactor_eq pass.state newitemsz positive
      exact ⟨_, maxpostingsize, _, low, high, by rw [isState]⟩
    · split
      · exact ⟨_, _, _, positive, le_rfl, rfl⟩
      · exact ⟨_, _, _, positive, le_rfl, rfl⟩
  · exact ⟨_, _, _, positive, le_rfl, rfl⟩

structure Bounded (limit : Int) (s : DedupState) : Prop where
  saveExtra : s.saveExtra = true
  positive : 0 ≤ s.maxpostingsize
  small : s.maxpostingsize ≤ limit

theorem dedupFlush_eq {pass res : DedupPass} (bounded : Bounded limit pass.state)
    (flushed : dedupFlush info newitemsz pass offnum itup = some res) :
    ∃ pending next tup, pass.state.pending = some pending ∧ pending.result info true = some tup ∧
      pass.newpage.addItem tup (pass.newpage.maxOffset + 1) = some res.newpage ∧
      Starts info limit itup offnum next ∧ res.state.pending = some next ∧
      res.state.intervals = pass.state.intervals ++ pending.interval ∧
      Bounded limit res.state := by
  simp only [dedupFlush, Option.pure_def, bind_eq_bind, bind_eq_some_iff, some.injEq] at flushed
  obtain ⟨finished, finish, started, start, rfl⟩ := flushed
  obtain ⟨pending, tup, isPending, formed, added, isState⟩ := finishPending_eq finish
  obtain ⟨deduplicate, maxpostingsize, singlevalstrat, low, high, isStep⟩ :=
    singlevalStep_eq newitemsz { pass with newpage := finished.1, state := finished.2 }
      (by rw [isState]; exact bounded.positive)
  rw [isStep] at start ⊢
  rw [isState] at start high
  obtain ⟨next, isStarted, starts⟩ := startPending_starts start bounded.saveExtra
    (le_trans high bounded.small)
  rw [bounded.saveExtra] at formed
  cases isStarted
  exact ⟨pending, next, tup, isPending, formed, added, starts, rfl, rfl,
    ⟨bounded.saveExtra, low, le_trans high bounded.small⟩⟩

/-- The loop of the primary, and what it ends with, as a run. -/
theorem dedupItems_run :
    ∀ {pass final : DedupPass} {offnum : Nat} {res : Page × DedupState} {pending : Pending},
      Bounded limit pass.state → pass.state.pending = some pending →
      dedupItems info request pass offnum items = some final →
      final.state.finishPending info final.newpage = some res →
      ∃ ivs, res.2.intervals = pass.state.intervals ++ ivs ∧
        DedupRun info limit pending pass.newpage offnum items res.1 ivs := by
  induction items with
  | nil =>
    intro pass final offnum res pending bounded isPending looped finished
    cases looped
    obtain ⟨last, tup, isLast, formed, added, isState⟩ := finishPending_eq finished
    rw [isPending] at isLast
    cases isLast
    rw [bounded.saveExtra] at formed
    exact ⟨_, by rw [isState], .done formed added⟩
  | cons itup items ih =>
    intro pass final offnum res pending bounded isPending looped finished
    obtain ⟨next, stepped, rest⟩ := bind_eq_some_iff.mp looped
    have flush : ∀ other : DedupPass,
        dedupFlush info (request.newitemsz + 4) other offnum itup = some next →
        Bounded limit other.state → other.state.pending = pass.state.pending →
        other.newpage = pass.newpage → other.state.intervals = pass.state.intervals →
        ∃ ivs, res.2.intervals = pass.state.intervals ++ ivs ∧
          DedupRun info limit pending pass.newpage offnum (itup :: items) res.1 ivs := by
      intro other flushed otherBounded samePending samePage sameIntervals
      obtain ⟨first, second, tup, isFirst, formed, added, starts, isSecond, isIntervals, nextBounded⟩ :=
        dedupFlush_eq otherBounded flushed
      rw [samePending, isPending] at isFirst
      cases isFirst
      obtain ⟨ivs, isResult, run⟩ := ih nextBounded isSecond rest finished
      rw [samePage] at added
      refine ⟨pending.interval ++ ivs, ?_, .flush formed added starts run⟩
      rw [isResult, isIntervals, sameIntervals, append_assoc]
    unfold dedupItem at stepped
    split at stepped
    · obtain ⟨saved, save, rest'⟩ := bind_eq_some_iff.mp stepped
      obtain ⟨merged, s⟩ := saved
      cases merged with
      | true =>
        cases rest'
        obtain ⟨first, parts, isFirst, copied, fits, read, isState⟩ := saveHtid_merged save
        rw [isPending] at isFirst
        cases isFirst
        cases isState
        rw [bounded.saveExtra] at read
        have nextBounded : Bounded limit { pass.state with pending := some (pending.add parts) } :=
          ⟨bounded.saveExtra, bounded.positive, bounded.small⟩
        obtain ⟨ivs, isResult, run⟩ := ih nextBounded rfl rest finished
        exact ⟨ivs, isResult, .merge copied (le_trans fits bounded.small) read run⟩
      | false =>
        obtain ⟨nmaxitems, rfl⟩ := saveHtid_refused save
        exact flush _ rest' ⟨bounded.saveExtra, bounded.positive, bounded.small⟩ rfl rfl rfl
    · exact flush pass stepped bounded rfl rfl rfl

theorem dedupPage_run {res : Page × DedupState} (merged : dedupPage info request page = some res) :
    ∃ first items newpage pending, page.items.drop (page.firstDataKey - 1) = first :: items ∧
      copyHikey page = some newpage ∧
      Starts info (min (maxItemSizeNoAgg / 2) 8191) first page.firstDataKey pending ∧
      DedupRun info (min (maxItemSizeNoAgg / 2) 8191) pending newpage (page.firstDataKey + 1) items
        res.1 res.2.intervals := by
  simp only [dedupPage, bind_eq_bind, bind_eq_some_iff] at merged
  obtain ⟨singlevalstrat, -, newpage, copied, rest⟩ := merged
  cases shape : page.items.drop (page.firstDataKey - 1) with
  | nil =>
    rw [shape] at rest
    cases rest
  | cons first items =>
    simp only [shape, bind_eq_some_iff] at rest
    obtain ⟨started, start, final, looped, finished⟩ := rest
    obtain ⟨pending, rfl, starts⟩ := startPending_starts start rfl le_rfl
    obtain ⟨ivs, isIntervals, run⟩ := dedupItems_run
      ⟨rfl, (by decide : 0 ≤ min (maxItemSizeNoAgg / 2) 8191), le_rfl⟩ rfl looped finished
    rw [isIntervals]
    exact ⟨first, items, newpage, pending, rfl, copied, starts, run⟩

end

/-! ## What a run leaves -/

section

variable {info : AggInfo} {limit : Int} {offnum : Nat} {pending : Pending} {res : Page}
  {ivs : List DedupInterval} {itup : IndexTuple}

theorem Starts.valid (starts : Starts info limit itup offnum pending) (item : itup.IsLeafItem info)
    (supported : info.Supported) (bound : limit < 8192) : pending.Valid info := by
  cases starts with
  | copied small read => exact Pending.valid_start item supported read (by omega) offnum
  | oversized => exact Pending.valid_oversized info itup offnum

theorem Starts.baseoff (starts : Starts info limit itup offnum pending) :
    pending.base = itup ∧ pending.baseoff = offnum ∧ pending.nitems = 1 := by
  cases starts with
  | copied small read => exact ⟨rfl, rfl, rfl⟩
  | oversized => exact ⟨rfl, rfl, rfl⟩

theorem merged_valid (valid : pending.Valid info) (item : itup.IsLeafItem info)
    (supported : info.Supported) (bound : limit < 8192) (copied : pending.parts.nhtids ≠ 0)
    (fits : pending.mergedSize info itup.leafCount ≤ limit)
    (read : itup.leafParts info true = some parts) :
    (pending.add parts).Valid info ∧ pending.count ≤ (pending.add parts).count ∧
      6 * ((pending.add parts).parts.nhtids : Int) ≤ limit := by
  obtain ⟨count, sized⟩ := IndexTuple.leafParts_sized read
  have small := valid.merged_le supported fits
  have positive := (item.leafCount_le supported).1
  rw [← count] at small positive
  refine ⟨valid.add sized copied positive (by omega), ?_, small⟩
  exact Nat.max_le.mpr ⟨(Nat.le_add_right _ _).trans (Nat.le_max_left _ _), Nat.le_max_right _ _⟩

theorem DedupRun.kept (run : DedupRun info limit pending newpage offnum items res ivs) :
    ∀ item ∈ newpage.items, item ∈ res.items := by
  induction run with
  | done formed added =>
    intro item mem
    rw [Page.addItem_last_items added]
    exact mem_append_left _ mem
  | merge copied fits read later ih => exact ih
  | flush formed added starts later ih =>
    intro item mem
    apply ih
    rw [Page.addItem_last_items added]
    exact mem_append_left _ mem

/-- The pending list ends up in a tuple with at least as many heap pointers. -/
theorem DedupRun.large (supported : info.Supported)
    (bound : limit < 8192) (run : DedupRun info limit pending newpage offnum items res ivs)
    (valid : pending.Valid info) (leaf : ∀ item ∈ items, item.IsLeafItem info) :
    ∃ item ∈ res.items, pending.count ≤ item.leafCount := by
  induction run with
  | done formed added =>
    refine ⟨_, ?_, (valid.result_leafCount formed).symm.le⟩
    rw [Page.addItem_last_items added]
    exact mem_append_right _ (mem_singleton_self _)
  | merge copied fits read later ih =>
    obtain ⟨nextValid, larger, -⟩ := merged_valid valid (leaf _ mem_cons_self) supported bound
      copied fits read
    obtain ⟨item, mem, count⟩ := ih nextValid fun item mem => leaf item (mem_cons_of_mem _ mem)
    exact ⟨item, mem, larger.trans count⟩
  | flush formed added starts later ih =>
    refine ⟨_, later.kept _ ?_, (valid.result_leafCount formed).symm.le⟩
    rw [Page.addItem_last_items added]
    exact mem_append_right _ (mem_singleton_self _)

structure Ahead (pending : Pending) (offnum : Nat) (ivs : List DedupInterval) : Prop where
  first : ∀ interval ∈ ivs.head?,
    interval.baseoff = pending.baseoff ∧ pending.nitems ≤ interval.nitems ∨ offnum ≤ interval.baseoff
  merged : 1 < pending.nitems → ∃ nitems rest, ivs = ⟨pending.baseoff, nitems⟩ :: rest ∧
    pending.nitems ≤ nitems

theorem DedupRun.ahead (run : DedupRun info limit pending newpage offnum items res ivs) :
    Ahead pending offnum ivs := by
  induction run with
  | @done pending newpage res offnum tup formed added =>
    unfold Pending.interval
    split
    next single =>
      exact ⟨fun interval mem => (by cases mem), fun many => absurd single (many.not_ge)⟩
    · refine ⟨?_, fun _ => ⟨_, [], rfl, le_rfl⟩⟩
      intro interval mem
      cases mem
      exact .inl ⟨rfl, le_rfl⟩
  | @merge pending newpage res offnum itup items parts ivs copied fits read later ih =>
    constructor
    · intro interval mem
      cases ih.first interval mem with
      | inl same => exact .inl ⟨same.1, Nat.le_of_succ_le same.2⟩
      | inr after => exact .inr (Nat.le_of_succ_le after)
    · intro many
      obtain ⟨nitems, rest, isIntervals, larger⟩ := ih.merged (Nat.lt_succ_of_lt many)
      exact ⟨nitems, rest, isIntervals, Nat.le_of_succ_le larger⟩
  | @flush pending next newpage flushed res offnum tup itup items ivs formed added starts later ih =>
    unfold Pending.interval
    split
    next single =>
      refine ⟨?_, fun many => absurd single (many.not_ge)⟩
      intro interval mem
      obtain ⟨-, baseoff, -⟩ := starts.baseoff
      cases ih.first interval mem with
      | inl same => exact .inr ((same.1.trans baseoff).symm.le)
      | inr after => exact .inr (Nat.le_of_succ_le after)
    · refine ⟨?_, fun _ => ⟨_, ivs, rfl, le_rfl⟩⟩
      intro interval mem
      cases mem
      exact .inl ⟨rfl, le_rfl⟩

end

end PgAqp.Wal
