import PgAqp.Wal.DedupRun

/-!
# Replay of a deduplication

Whatever a run did, its intervals make the loop of `abtree_xlog_dedup` do the same,
as long as the arrays of replay hold what they get.
-/

namespace PgAqp.Wal

open Library Abtree List Option Pending DedupState Bool

/-! ## Replay -/

section

variable {info : AggInfo} {limit : Int}

/-- Two of the arrays have room for what belongs to some heap pointers. -/
def HoldRows (info : AggInfo) (sizes : ArraySizes) (count : Nat) : Prop :=
  aggRoom info count ≤ sizes.aggs ∧ (4 * count : Nat) ≤ sizes.xmins
  deriving Decidable

variable {sizes : ArraySizes}

theorem HoldRows.mono (supported : info.Supported)
    (hold : HoldRows info sizes second) (le : first ≤ second) : HoldRows info sizes first := by
  obtain ⟨strideLow, -⟩ := supported.stride_bounds
  have smaller : (first : Int) * info.aggStride.toInt ≤ second * info.aggStride.toInt :=
    Int.mul_le_mul_of_nonneg_right (Int.ofNat_le.mpr le) strideLow
  obtain ⟨aggs, xmins⟩ := hold
  refine ⟨?_, by omega⟩
  unfold aggRoom at aggs ⊢
  split at aggs
  next stored =>
    rw [if_pos stored]
    exact le_trans smaller aggs
  next stored =>
    rw [if_neg stored]
    exact aggs

variable {parts : LeafParts} {pending other : Pending} {s : DedupState}
    {intervals : List DedupInterval}

theorem HoldRows.hold (hold : HoldRows info sizes parts.nhtids) (sized : parts.Sized info)
    (htids : 6 * (parts.nhtids : Int) ≤ sizes.htids) : sizes.Hold parts := by
  obtain ⟨aggs, xmins⟩ := hold
  refine ⟨?_, ?_, ?_⟩
  · rw [sized.htids]
    exact_mod_cast htids
  · rw [sized.aggs]
    exact aggs
  · rw [sized.xmins]
    exact xmins

/-- Replay has the same pending list; it may have copied from a tuple that was too large for the
primary. -/
inductive Follows (pending : Pending) : Pending → Prop
  | same : Follows pending pending
  | copied {other : Pending} (nothing : pending.parts.nhtids = 0) (base : other.base = pending.base)
      (baseoff : other.baseoff = pending.baseoff) (single : pending.nitems = 1)
      (nitems : other.nitems = 1) : Follows pending other

theorem Follows.place (follows : Follows pending other) :
    other.baseoff = pending.baseoff ∧ other.nitems = pending.nitems := by
  cases follows with
  | same => exact ⟨rfl, rfl⟩
  | copied nothing base baseoff single nitems => exact ⟨baseoff, nitems.trans single.symm⟩

theorem Follows.result (follows : Follows pending other) :
    other.result info true = pending.result info true ∧ other.interval = pending.interval := by
  cases follows with
  | same => exact ⟨rfl, rfl⟩
  | copied nothing base baseoff single nitems =>
    unfold Pending.result Pending.interval
    rw [single, nitems, base, if_pos le_rfl, if_pos le_rfl, if_pos le_rfl, if_pos le_rfl]
    exact ⟨rfl, rfl⟩

structure RedoLimits (limit : Int) (s : DedupState) : Prop where
  saveExtra : s.saveExtra = true
  larger : limit ≤ s.maxpostingsize
  htids : s.maxpostingsize ≤ s.sizes.htids

theorem startPending_follows (s : DedupState) (starts : Starts info limit itup offnum pending)
    (limits : RedoLimits limit s) (item : itup.IsLeafItem info) (supported : info.Supported)
    (hold : HoldRows info s.sizes itup.leafCount) :
    ∃ other, Follows pending other ∧
      s.startPending info itup offnum = some { s with pending := some other } := by
  unfold startPending
  obtain ⟨parts, read⟩ := item.leafParts supported
  obtain ⟨count, sized⟩ := IndexTuple.leafParts_sized read
  by_cases small : itup.size ≤ s.maxpostingsize
  · have bound := (item.leafCount_le supported).2
    have held : s.sizes.Hold parts := by
      refine HoldRows.hold (by rw [count]; exact hold) sized ?_
      have larger := limits.htids
      omega
    rw [if_pos small, limits.saveExtra, read, bind_some, if_pos held]
    refine ⟨_, ?_, rfl⟩
    cases starts with
    | copied fits read' =>
      rw [read] at read'
      cases read'
      exact .same
    | oversized => exact .copied rfl rfl rfl rfl rfl
  · rw [if_neg small]
    refine ⟨_, ?_, rfl⟩
    cases starts with
    | copied fits read' => exact absurd (le_trans fits limits.larger) small
    | oversized => exact .same

theorem finishPending_follows {next} (isOther : s.pending = some other)
    (follows : Follows pending other) (saveExtra : s.saveExtra)
    (formed : pending.result info true = some tup)
    (added : newpage.addItem tup (newpage.maxOffset + 1) = some next) :
    s.finishPending info newpage = some (next, { s with
      pending := none
      intervals := s.intervals ++ pending.interval }) := by
  obtain ⟨result, interval⟩ := follows.result
  unfold finishPending
  rw [isOther, bind_some, saveExtra, result, formed, bind_some, added, map_some, interval]

theorem saveHtid_follows (isPending : s.pending = some pending) (limits : RedoLimits limit s)
    (copied : pending.parts.nhtids ≠ 0) (fits : pending.mergedSize info itup.leafCount ≤ limit)
    (read : itup.leafParts info true = some parts)
    (held : s.sizes.Hold (pending.parts.append parts)) :
    s.saveHtid info itup = some (true, { s with pending := some (pending.add parts) }) := by
  unfold saveHtid
  rw [isPending, bind_some, if_neg copied, if_neg (not_lt_of_ge (le_trans fits limits.larger)),
    limits.saveExtra, read, bind_some, if_pos held]

/-- The intervals of a run tell replay whether the run merges the next item. -/
theorem expects_eq (isOther : s.pending = some other) (follows : Follows pending other)
    (isWhole : whole = s.intervals ++ intervals) :
    expects whole s = intervals.head?.any fun interval =>
      pending.baseoff == interval.baseoff && decide (pending.nitems < interval.nitems) := by
  obtain ⟨baseoff, nitems⟩ := follows.place
  unfold expects
  rw [isWhole, getElem?_append_right le_rfl, Nat.sub_self, head?_eq_getElem?]
  simp only [isOther, any_some, baseoff, nitems]

theorem expects_merge (positive : 1 ≤ pending.nitems)
    (ahead : Ahead (pending.add parts) offnum intervals) :
    (intervals.head?.any fun interval =>
      pending.baseoff == interval.baseoff && decide (pending.nitems < interval.nitems)) := by
  obtain ⟨nitems, rest, rfl, larger⟩ := ahead.merged (Nat.lt_succ_of_le positive)
  simp only [head?_cons, any_some, and_eq_true, decide_eq_true_eq]
  exact ⟨beq_self_eq_true _, larger⟩

theorem expects_flush {next} (pre : pending.baseoff < offnum) (baseoff : next.baseoff = offnum)
    (ahead : Ahead next (offnum + 1) intervals) :
    ((pending.interval ++ intervals).head?.any fun interval =>
      pending.baseoff == interval.baseoff && decide (pending.nitems < interval.nitems)) = false := by
  unfold interval
  split
  · rw [nil_append]
    cases intervals with
    | nil => rfl
    | cons interval intervals =>
      have apart : pending.baseoff ≠ interval.baseoff := by
        cases ahead.first interval rfl with
        | inl same => omega
        | inr after => omega
      simp only [head?_cons, any_some, beq_eq_false_iff_ne.mpr apart, Bool.false_and]
  · simp

/-- The loop of replay with the intervals of a run does what the run did. -/
theorem redoItems_follows (supported : info.Supported) (bound : limit < 8192)
    {newpage result : Page}
    (run : DedupRun info limit pending newpage offnum items result intervals) :
    ∀ (s : DedupState) {other : Pending} {whole : List DedupInterval},
      RedoLimits limit s → s.pending = some other → Follows pending other →
      pending.Valid info → pending.baseoff < offnum → whole = s.intervals ++ intervals →
      (∀ item ∈ items, item.IsLeafItem info) →
      (∀ item ∈ result.items, HoldRows info s.sizes item.leafCount) →
      ∃ final page last, redoItems info whole s newpage offnum items = some (final, page) ∧
        final.finishPending info page = some (result, last) := by
  induction run with
  | done formed added =>
    intro s other whole limits isOther follows valid pre isWhole leaf hold
    exact ⟨s, _, _, rfl, finishPending_follows isOther follows limits.saveExtra formed added⟩
  | @merge pending newpage result offnum itup items parts intervals copied fits read later ih =>
    intro s other whole limits isOther follows valid pre isWhole leaf hold
    have item := leaf itup mem_cons_self
    have others := fun item mem => leaf item (mem_cons_of_mem itup mem)
    obtain ⟨nextValid, -, small⟩ := merged_valid valid item supported bound copied fits read
    have positive : 1 ≤ pending.nitems := by
      by_cases several : 1 < pending.nitems
      · exact several.le
      · exact (valid.single (Nat.le_of_not_lt several)).1.symm.le
    have expected : expects whole s :=
      (expects_eq isOther follows isWhole).trans (expects_merge positive later.ahead)
    cases follows with
    | copied nothing => exact absurd nothing copied
    | same =>
      obtain ⟨large, isLarge, count⟩ := later.large supported bound nextValid others
      have rows : HoldRows info s.sizes (pending.add parts).parts.nhtids :=
        (hold large isLarge).mono supported ((Nat.le_max_left _ _).trans count)
      have held : s.sizes.Hold (pending.add parts).parts :=
        rows.hold nextValid.sized (le_trans small (le_trans limits.larger limits.htids))
      rw [redoItems, if_pos expected, saveHtid_follows isOther limits copied fits read held,
        bind_some, if_pos rfl]
      exact ih _ ⟨limits.saveExtra, limits.larger, limits.htids⟩ rfl .same nextValid
        (Nat.lt_succ_of_lt pre) isWhole others hold
  | @flush pending next newpage flushed result offnum tup itup items intervals formed added starts
      later ih =>
    intro s other whole limits isOther follows valid pre isWhole leaf hold
    have item := leaf itup mem_cons_self
    have others := fun item mem => leaf item (mem_cons_of_mem itup mem)
    have nextValid := starts.valid item supported bound
    obtain ⟨base, baseoff, -⟩ := starts.baseoff
    have expected : expects whole s = false :=
      (expects_eq isOther follows isWhole).trans (expects_flush pre baseoff later.ahead)
    obtain ⟨large, isLarge, count⟩ := later.large supported bound nextValid others
    have rows : HoldRows info s.sizes itup.leafCount := by
      refine (hold large isLarge).mono supported (Nat.le_trans ?_ count)
      rw [← base]
      exact Nat.le_max_right _ _
    obtain ⟨started, startedFollows, start⟩ := startPending_follows
      { s with pending := none, intervals := s.intervals ++ pending.interval }
      starts ⟨limits.saveExtra, limits.larger, limits.htids⟩ item supported rows
    rw [redoItems, if_neg (by rw [expected]; exact false_ne_true),
      finishPending_follows isOther follows limits.saveExtra formed added, bind_some, start,
      bind_some]
    exact ih _ ⟨limits.saveExtra, limits.larger, limits.htids⟩ rfl startedFollows nextValid
      (by omega) (by rw [isWhole, append_assoc]) others hold

end

/-! ## Without leaf aggregates the stride is not used -/

section

variable (typlen first second : Int16)

theorem leafParts_noAgg (saveExtra : Bool) (tup : IndexTuple) :
    tup.leafParts ⟨false, typlen, first⟩ saveExtra =
      tup.leafParts ⟨false, typlen, second⟩ saveExtra := by
  simp only [IndexTuple.leafParts, IndexTuple.readIf, Bool.and_false, false_eq_true, if_false]

theorem mergedSize_noAgg (pending : Pending) (nhtids : Nat) :
    pending.mergedSize ⟨false, typlen, first⟩ nhtids =
      pending.mergedSize ⟨false, typlen, second⟩ nhtids := by
  simp only [mergedSize, false_eq_true, if_false]

theorem start_noAgg (base : IndexTuple) (baseoff : Nat) (parts : LeafParts) :
    start ⟨false, typlen, first⟩ base baseoff parts =
      start ⟨false, typlen, second⟩ base baseoff parts := by
  simp only [start, AggInfo.extraSpaceForNonpivotTuple, false_eq_true, if_false]

theorem final_noAgg (saveExtra : Bool) (pending : Pending) :
    pending.final ⟨false, typlen, first⟩ saveExtra =
      pending.final ⟨false, typlen, second⟩ saveExtra := by
  simp only [final, formPosting, postingSize, AggInfo.extraSpaceForNonpivotTuple,
    Bool.and_false, false_eq_true, if_false]

theorem startPending_noAgg (s : DedupState) (base : IndexTuple) (baseoff : Nat) :
    s.startPending ⟨false, typlen, first⟩ base baseoff =
      s.startPending ⟨false, typlen, second⟩ base baseoff := by
  simp only [startPending, leafParts_noAgg typlen first second, start_noAgg typlen first second]

theorem saveHtid_noAgg (s : DedupState) (itup : IndexTuple) :
    s.saveHtid ⟨false, typlen, first⟩ itup = s.saveHtid ⟨false, typlen, second⟩ itup := by
  simp only [saveHtid, leafParts_noAgg typlen first second, mergedSize_noAgg typlen first second]

theorem finishPending_noAgg (s : DedupState) (newpage : Page) :
    s.finishPending ⟨false, typlen, first⟩ newpage =
      s.finishPending ⟨false, typlen, second⟩ newpage := by
  simp only [finishPending, result, final_noAgg typlen first second]

theorem redoItems_noAgg (intervals : List DedupInterval) (items : List IndexTuple) :
    ∀ (s : DedupState) (newpage : Page) (offnum : Nat),
      redoItems ⟨false, typlen, first⟩ intervals s newpage offnum items =
        redoItems ⟨false, typlen, second⟩ intervals s newpage offnum items := by
  induction items with
  | nil => intro s newpage offnum; rfl
  | cons itup items ih =>
    intro s newpage offnum
    simp only [redoItems, saveHtid_noAgg typlen first second,
      finishPending_noAgg typlen first second, startPending_noAgg typlen first second, ih]

theorem redoPage_noAgg (intervals : List DedupInterval) (page : Page) :
    redoPage ⟨false, typlen, first⟩ intervals page =
      redoPage ⟨false, typlen, second⟩ intervals page := by
  have s : redoState ⟨false, typlen, first⟩ = redoState ⟨false, typlen, second⟩ := by
    simp only [redoState, maxItemSize, AggInfo.extraSpaceWhenTidPresent, false_eq_true, if_false]
  unfold redoPage
  simp only [s, redoItems_noAgg typlen first second, finishPending_noAgg typlen first second,
    startPending_noAgg typlen first second]

end

/-! ## The record -/

section

variable {info : AggInfo} {limit : Int}

theorem intervalsOfArray_values (intervals : List DedupInterval) :
    intervalsOfArray (intervals.flatMap fun interval => [interval.baseoff, interval.nitems]) =
      intervals := by
  induction intervals with
  | nil => rfl
  | cons interval intervals ih => exact congrArg (interval :: ·) ih

theorem length_intervalValues (intervals : List DedupInterval) :
    (intervals.flatMap fun interval => [interval.baseoff, interval.nitems]).length =
      2 * intervals.length := by
  induction intervals with
  | nil => rfl
  | cons interval intervals ih =>
    rw [flatMap_cons, length_append, ih, length_cons]
    simp only [length_cons, length_nil]
    omega

theorem intervalsOfArray_record (info : AggInfo) {intervals : List DedupInterval}
    (small : ∀ interval ∈ intervals, interval.baseoff < 65536 ∧ interval.nitems < 65536) :
    intervalsOfArray (Bytes.takeArray 2 (2 * (dedupRecord info intervals).nintervals)
      (dedupRecord info intervals).block).1 = intervals := by
  have values : ∀ value ∈ intervals.flatMap fun interval => [interval.baseoff, interval.nitems],
      value < 256 ^ 2 := by
    intro value mem
    obtain ⟨interval, isInterval, isValue⟩ := mem_flatMap.mp mem
    obtain ⟨baseoff, nitems⟩ := small interval isInterval
    cases mem_cons.mp isValue with
    | inl isBase => rw [isBase]; exact baseoff
    | inr isCount => rw [mem_singleton.mp isCount]; exact nitems
  have array := Bytes.takeArray_ofArray values []
  rw [append_nil, length_intervalValues] at array
  unfold dedupRecord intervalsToBytes
  rw [array, intervalsOfArray_values]

theorem DedupRun.intervals_small {pending : Pending} {newpage result : Page}
    {intervals : List DedupInterval}
    (run : DedupRun info limit pending newpage offnum items result intervals) :
    ∀ bound : Nat, pending.baseoff < bound → pending.nitems + items.length < bound →
      offnum + items.length < bound →
      ∀ interval ∈ intervals, interval.baseoff < bound ∧ interval.nitems < bound := by
  have own : ∀ {pending : Pending} {bound : Nat}, pending.baseoff < bound → pending.nitems < bound →
      ∀ interval ∈ pending.interval, interval.baseoff < bound ∧ interval.nitems < bound := by
    intro pending bound baseoff nitems interval mem
    unfold Pending.interval at mem
    split at mem
    · cases mem
    · cases mem_singleton.mp mem
      exact ⟨baseoff, nitems⟩
  induction run with
  | done formed added =>
    intro bound baseoff nitems off
    exact own baseoff nitems
  | @merge pending newpage result offnum itup items parts intervals copied fits read later ih =>
    intro bound baseoff nitems off
    rw [length_cons] at nitems off
    refine ih bound baseoff ?_ (by omega)
    dsimp only [add]
    omega
  | @flush pending next newpage flushed result offnum tup itup items intervals formed added starts
      later ih =>
    intro bound baseoff nitems off interval mem
    rw [length_cons] at nitems off
    obtain ⟨-, isBaseoff, isNitems⟩ := starts.baseoff
    cases mem_append.mp mem with
    | inl here => exact own baseoff (by omega) interval here
    | inr there => exact ih bound (by omega) (by omega) (by omega) interval there

end

variable {info : AggInfo}

theorem redoPage_recovered (stride : info.leafHasAgg → raw.minAggInfo.aggStride = info.aggStride)
    (intervals : List DedupInterval) (page : Page) :
    redoPage (recoveredAggInfo raw info.leafHasAgg (loggedAggInfo info)) intervals page =
      redoPage info intervals page := by
  rw [recoveredAggInfo_logged]
  obtain ⟨leafHasAgg, typlen, aggStride⟩ := info
  cases leafHasAgg with
  | true => rw [stride rfl]
  | false => exact redoPage_noAgg typlen _ _ intervals page

theorem dedupOnePage_merged {prior result : Page}
    (done : dedupOnePage info request page = some ⟨prior, some (result, record)⟩) :
    ∃ merged, dedupPage info request prior = some merged ∧ result = clearGarbage merged.1 ∧
      record = dedupRecord info merged.2.intervals := by
  obtain ⟨cleaned, -, rest⟩ := bind_eq_some_iff.mp done
  split at rest
  · cases rest
  · obtain ⟨merged, isMerged, out⟩ := map_eq_some_iff.mp rest
    split at out
    · cases out
    · cases out
      exact ⟨merged, isMerged, rfl, rfl⟩

/-- With the intervals of a whole pass, replay makes the page of the pass. -/
theorem redoPage_follows (supported : info.Supported)
    (leaf : ∀ item ∈ page.items.drop (page.firstDataKey - 1), item.IsLeafItem info)
    (isMerged : dedupPage info request page = some merged)
    (hold : ∀ item ∈ merged.1.items, HoldRows info (redoState info).sizes item.leafCount) :
    ∃ last, redoPage info merged.2.intervals page = some (merged.1, last) := by
  obtain ⟨first, items, newpage, pending, shape, copied, starts, run⟩ := dedupPage_run isMerged
  have bound : min (maxItemSizeNoAgg / 2) 8191 < 8192 := by decide
  have isLeaf : ∀ item ∈ first :: items, item.IsLeafItem info := shape ▸ leaf
  have firstLeaf := isLeaf first mem_cons_self
  have others := fun item mem => isLeaf item (mem_cons_of_mem first mem)
  have valid := starts.valid firstLeaf supported bound
  obtain ⟨base, baseoff, -⟩ := starts.baseoff
  obtain ⟨large, isLarge, larger⟩ := run.large supported bound valid others
  have rows : HoldRows info (redoState info).sizes first.leafCount := by
    refine (hold large isLarge).mono supported (Nat.le_trans ?_ larger)
    rw [← base]
    exact Nat.le_max_right _ _
  have limits : RedoLimits (min (maxItemSizeNoAgg / 2) 8191) (redoState info) :=
    ⟨rfl, supported.maxItemSize_ge, le_rfl⟩
  obtain ⟨other, follows, start⟩ := startPending_follows (redoState info) starts limits firstLeaf
    supported rows
  obtain ⟨final, page', last, looped, finished⟩ := redoItems_follows supported bound run
    { redoState info with pending := some other }
    ⟨limits.saveExtra, limits.larger, limits.htids⟩ rfl follows valid (by omega) rfl others hold
  refine ⟨last, ?_⟩
  rw [redoPage, copied]
  simp only [bind_eq_bind, bind_some, shape, start]
  exact bind_eq_some_iff.mpr ⟨(final, page'), looped, finished⟩

/-- A page has room for fewer intervals and items than 16 bits can count. -/
theorem dedupPage_small (fits : page.lower ≤ page.upper)
    (isMerged : dedupPage info request page = some merged) :
    ∀ interval ∈ merged.2.intervals, interval.baseoff < 65536 ∧ interval.nitems < 65536 := by
  obtain ⟨first, items, newpage, pending, shape, -, starts, run⟩ := dedupPage_run isMerged
  obtain ⟨-, baseoff, single⟩ := starts.baseoff
  have count : page.firstDataKey + items.length < 65535 := by
    have few := storage_nonneg page.items
    have length := congrArg length shape
    have key : page.firstDataKey ≤ 2 := by
      unfold Page.firstDataKey
      split <;> decide
    unfold Page.lower Page.upper at fits
    rw [length_drop, length_cons] at length
    omega
  exact run.intervals_small 65536 (by omega) (by omega) (by omega)

/-- If the stride was known or is not needed, and no posting list is too long for the arrays of
replay, the record rebuilds the page. -/
theorem dedup_replays {raw : Uninitialised} {info : AggInfo} {request : DedupRequest}
    {page prior result : Page} {record : DedupRecord} (supported : info.Supported)
    (leaf : ∀ item ∈ prior.items.drop (prior.firstDataKey - 1), item.IsLeafItem info)
    (fits : prior.lower ≤ prior.upper)
    (done : dedupOnePage info request page = some ⟨prior, some (result, record)⟩)
    (stride : info.leafHasAgg = true → raw.minAggInfo.aggStride = info.aggStride)
    (hold : ∀ item ∈ result.items, HoldRows info (redoState info).sizes item.leafCount) :
    xlogDedup raw record prior = some result := by
  obtain ⟨merged, isMerged, rfl, rfl⟩ := dedupOnePage_merged done
  obtain ⟨last, redone⟩ := redoPage_follows supported leaf isMerged hold
  have intervals := intervalsOfArray_record info (dedupPage_small fits isMerged)
  have recovered := redoPage_recovered stride merged.2.intervals prior
  unfold xlogDedup
  rw [intervals]
  exact congrArg (Option.map fun result => clearGarbage result.1) (recovered.trans redone)

/-! ## Two passes that replay does not repeat -/

def manyRows (start count : Nat) : IndexTuple where
  tTid := ⟨16, UInt16.ofNat count ||| 0x2000⟩
  altTid := true
  hasVarwidths := false
  hasNulls := false
  data := Bytes.ofNat 8 7 ++
    (range count).flatMap (fun i => (⟨UInt32.ofNat (start + i), 1⟩ : ItemPointer).toBytes) ++
    replicate ((maxalign (6 * count : Nat)).toNat - 6 * count) 0 ++
    replicate ((maxalign (4 * count : Nat)).toNat - 4 * count) 0 ++
    Bytes.ofArray 4 (replicate count 3)

def twoRows : Page := { leafPage with items := [row 10 100 3, row 20 200 4] }

def duplicateItem : DedupRequest where
  sameKey _ _ := true
  newitem := row 99 1 9
  newitemsz := 32
  checkingunique := false
  deletable := []

/-- Replay loses the aggregates if it takes the stride for zero, and writes behind the end of an
array if the new list has 130 rows. -/
theorem dedups_not_replayed : ((dedupOnePage (bigintAgg true) duplicateItem
        twoRows).bind fun done =>
      done.merged.bind fun merged =>
        (xlogDedup zeroed merged.2 done.prior).map fun replayed =>
          (postingAggs merged.1 1, (merged.1.item 1).map IndexTuple.size,
            (replayed.item 1).map IndexTuple.size)) =
        some (some [100, 200], some 72, some 56) ∧
    ((dedupOnePage (bigintAgg false) duplicateItem
        { leafPage with items := [manyRows 100 65, manyRows 200 65] }).bind fun done =>
      done.merged.map fun merged =>
        ((merged.1.item 1).map IndexTuple.nPosting, xlogDedup zeroed merged.2 done.prior)) =
        some (some 130, none) := by
  decide +kernel

/-- Replay where the local variable held the stride. -/
theorem two_rows_dedup_replays :
    ∃ result record, dedupOnePage (bigintAgg true) duplicateItem twoRows =
        some ⟨twoRows, some (result, record)⟩ ∧
      xlogDedup ⟨⟨false, 0, 0⟩, ⟨0, 8⟩⟩ record twoRows = some result := by
  have checked : (dedupOnePage (bigintAgg true) duplicateItem twoRows).any (fun done =>
      decide (done.prior = twoRows) && done.merged.any fun merged =>
        decide (∀ item ∈ merged.1.items,
          HoldRows (bigintAgg true) (redoState (bigintAgg true)).sizes item.leafCount)) = true := by
    decide +kernel
  cases done : dedupOnePage (bigintAgg true) duplicateItem twoRows with
  | none => rw [done] at checked; cases checked
  | some out =>
    obtain ⟨prior, merged⟩ := out
    rw [done] at checked
    obtain ⟨same, rest⟩ := and_eq_true_iff.mp checked
    cases of_decide_eq_true same
    cases merged with
    | none => cases rest
    | some merged =>
      exact ⟨merged.1, merged.2, rfl, dedup_replays (by decide) (by decide +kernel) (by decide +kernel)
        done (fun _ => rfl) (of_decide_eq_true rest)⟩

end PgAqp.Wal
