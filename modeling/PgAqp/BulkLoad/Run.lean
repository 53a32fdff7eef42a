import PgAqp.BulkLoad.Add
import PgAqp.BulkLoad.Read

/-!
# Loading and closing the levels

The leaf tuples are added one after the other, and then every level is closed from the leaf
level up.  A closed level is a tier of the tree: all of its pages, the last of which has no
high key.
-/

namespace PgAqp.BulkLoad

open Abtree Library Sampling List Option Level LeafTuple

variable {ι α : Type} [LinearOrder α]

/-! ## Adding the tuples -/

structure Loading (ix : Index ι α) (load : LoadState ι α) (tuples : List (LeafTuple ι))
    (levels : List (Level ι α)) : Prop where
  states : levels.map state = load.levels
  ok : LevelsOk ix load.writer.written 0 levels
  stream : streamOf levels = leafPieces ix none tuples
  closed : (closedPages levels).Perm load.writer.written
  blocks : (blocksOf levels).Perm (range' 1 (load.writer.pagesAlloced - 1))
  started : ∀ lvl ∈ levels, lvl.pieces ≠ []
  alloced : 1 ≤ load.writer.pagesAlloced

def LoadError (ix : Index ι α) (tuples : List (LeafTuple ι)) (error : BuildError) : Prop :=
  (error = .oversized ∧ ∃ tup ∈ tuples, tup.TooLarge ix) ∨
    SumError ix (tuples.flatMap rows) error

omit [LinearOrder α] in
theorem rows_injective {first second : LeafTuple ι} (same : first.rows = second.rows) :
    first = second := by
  obtain ⟨image, tid, more⟩ := first
  obtain ⟨otherImage, otherTid, otherMore⟩ := second
  obtain ⟨head, tail⟩ := cons.inj same
  obtain ⟨rfl, rfl⟩ := Row.mk.inj head
  have tids : more = otherMore :=
    map_injective_iff.mpr (fun first second eq => (Row.mk.inj eq).2) tail
  rw [tids]

variable {ix : Index ι α} {pages : List (Nat × Page ι α)} {lvl : Level ι α}
    {levels : List (Level ι α)} {number : Nat} {above : List (Level ι α)} {writer : Writer ι α}

theorem last_item (ok : LevelOk ix pages 0 lvl) (stream : lvl.stream = leafPieces ix none tuples)
    (mem : item ∈ lvl.state.items.head?) : ∃ tup ∈ tuples.getLast?, item = .leaf tup := by
  have has := ok.onPage.has
  cases items : lvl.state.items with
  | nil => rw [items] at mem; cases mem
  | cons first rest =>
    rw [items] at mem has
    cases mem
    cases pieces : lvl.pieces with
    | nil => rw [pieces] at has; cases has
    | cons piece pre =>
      rw [pieces] at has
      have itemHas := (forall₂_cons.mp has).1
      have last : lvl.stream.getLast? = some piece := by
        rw [Level.stream, pieces, reverse_cons, ← append_assoc, getLast?_append]
        rfl
      rw [stream] at last
      cases eq_nil_or_concat tuples with
      | inl empty => rw [empty] at last; cases last
      | inr nonempty =>
        obtain ⟨init, tup, rfl⟩ := nonempty
        rw [concat_eq_append, leafPieces_concat, getLast?_append] at last
        cases last
        refine ⟨tup, by simp, ?_⟩
        cases item with
        | pivot _ => exact itemHas.elim
        | leaf other => exact congrArg Item.leaf (rows_injective itemHas.symm)

theorem tuple_arrives (ok : LevelsOk ix pages 0 levels)
    (stream : streamOf levels = leafPieces ix none tuples)
    (sorted : Sorted ix ((tuples ++ [tup]).flatMap rows)) :
    Arrives ix pages 0 levels (.leaf tup) ⟨lowAfter ix tuples.getLast? tup, tup.rows⟩ where
  has := rfl
  size := nofun
  low := by
    intro lvl levelMem prev prevMem between separates
    cases levels with
    | nil => cases levelMem
    | cons first above =>
      cases levelMem
      obtain ⟨last, lastMem, rfl⟩ := last_item ok.1 stream prevMem
      cases separates
      rw [mem_def.mp lastMem]
      exact SizedKey.reserve_key ix _
  first := by
    intro empty
    rw [stream] at empty
    cases tuples with
    | nil => rfl
    | cons _ _ => cases empty
  separated := by
    have pieces := leafPieces_concat ix none tuples tup
    rw [or_none] at pieces
    rw [stream, ← pieces]
    refine leafPieces_separated sorted fun first firstMem => ?_
    exact minusInfinity_lt _ _

variable {load : LoadState ι α}

theorem addTuple_outcome (loading : Loading ix load tuples levels)
    (sorted : Sorted ix ((tuples ++ [tup]).flatMap rows)) :
    Outcome (fun next => ∃ levels, Loading ix next (tuples ++ [tup]) levels)
      (LoadError ix (tuples ++ [tup])) (addTuple ix load tup) := by
  have arrives := tuple_arrives loading.ok loading.stream sorted
  have pieces := leafPieces_concat ix none tuples tup
  rw [or_none] at pieces
  have errors : ∀ error, AddError ix 0 levels (.leaf tup) error →
      LoadError ix (tuples ++ [tup]) error := by
    rintro error (⟨rfl, -, other, same, large⟩ | ⟨rfl, overflows⟩)
    · cases same
      exact .inl ⟨rfl, tup, mem_append_right _ (mem_singleton_self _), large⟩
    · refine .inr ⟨rfl, overflows.mono ?_⟩
      rw [loading.stream, rowsOf_leafPieces, flatMap_append]
      exact (prefix_append _ _).isInfix
  have values : ∀ added : PageState ι α × List (PageState ι α) × Writer ι α,
      AddedTo ix load.writer.written 0 levels (.leaf tup)
        ⟨lowAfter ix tuples.getLast? tup, tup.rows⟩ load.writer (added.1 :: added.2.1)
        added.2.2 →
      ∃ levels, Loading ix ⟨added.1 :: added.2.1, added.2.2⟩ (tuples ++ [tup]) levels := by
    rintro added ⟨after, new, count, states, res⟩
    refine ⟨after, states, ?_, ?_, ?_, ?_, ?_, ?_⟩
    · rw [res.written]
      exact res.ok _ (subset_append_left _ _) (subset_append_right _ _)
    · rw [res.stream, loading.stream, pieces]
    · rw [res.written]
      exact res.closed.trans (loading.closed.append_right _)
    · rw [res.alloced]
      refine res.blocks.trans ((loading.blocks.append_right _).trans ?_)
      have alloced := loading.alloced
      have start : 1 + (load.writer.pagesAlloced - 1) = load.writer.pagesAlloced := by omega
      have more : load.writer.pagesAlloced + count - 1 =
          load.writer.pagesAlloced - 1 + count := by omega
      rw [more, ← range'_append_1, start]
    · exact res.started fun lvl mem => loading.started lvl (mem_of_mem_tail mem)
    · rw [res.alloced]
      exact loading.alloced.trans (Nat.le_add_right _ _)
  unfold addTuple
  rw [← loading.states]
  cases levels with
  | nil => exact ((addFresh_outcome arrives _ load.writer _).mono (fun _ => id) errors).map values
  | cons lvl above =>
    exact ((buildAdd_outcome loading.ok arrives load.writer _).mono (fun _ => id) errors).map values

theorem addTuples_outcome (loading : Loading ix load tuples levels)
    (sorted : Sorted ix ((tuples ++ rest).flatMap rows)) :
    Outcome (fun next => ∃ levels, Loading ix next (tuples ++ rest) levels)
      (LoadError ix (tuples ++ rest)) (addTuples ix load rest) := by
  induction rest generalizing load tuples levels with
  | nil =>
    rw [append_nil]
    exact ⟨levels, loading⟩
  | cons tup rest ih =>
    have regroup : tuples ++ tup :: rest = (tuples ++ [tup]) ++ rest := by simp
    rw [regroup] at sorted ⊢
    have split : ((tuples ++ [tup]) ++ rest).flatMap rows =
        (tuples ++ [tup]).flatMap rows ++ rest.flatMap rows :=
      flatMap_append
    have first : Sorted ix ((tuples ++ [tup]).flatMap rows) :=
      (pairwise_append.mp (split ▸ sorted)).1
    refine Outcome.bind ((addTuple_outcome loading first).mono (fun _ => id) ?_) ?_
    · rintro error (⟨rfl, large, mem, tooLarge⟩ | ⟨rfl, overflows⟩)
      · exact .inl ⟨rfl, large, mem_append_left rest mem, tooLarge⟩
      · refine .inr ⟨rfl, overflows.mono ?_⟩
        rw [split]
        exact (prefix_append _ _).isInfix
    · rintro next ⟨nextLevels, nextLoading⟩
      exact ih nextLoading sorted

theorem Loading.start (ix : Index ι α) : Loading ix ⟨[], ⟨1, []⟩⟩ [] [] :=
  ⟨rfl, trivial, rfl, List.Perm.refl _, List.Perm.refl _, nofun, Nat.le_refl 1⟩

/-! ## Closing the levels -/

structure TierOk (ix : Index ι α) (pages : List (Nat × Page ι α)) (number : Nat)
    (stream : List (Piece ι α)) (links : List Nat) (tier : List (Closed ι α)) : Prop where
  closed : ∀ page ∈ tier, ClosedOk ix pages number page
  siblings : ∃ last, Links none tier last none none
  pieces : tier.flatMap Closed.pieces = stream
  downlinks : tier.flatMap Closed.downlinks = links
  separated : Separated ix stream

/-- The tiers of a tree from a level on.  The highest one is a single page. -/
def TiersOk (ix : Index ι α) (pages : List (Nat × Page ι α)) :
    Nat → List (Piece ι α) → List Nat → List (List (Closed ι α)) → Prop
  | _, _, _, [] => False
  | number, stream, links, [tier] =>
    TierOk ix pages number stream links tier ∧ tier.length = 1
  | number, stream, links, tier :: next :: above =>
    TierOk ix pages number stream links tier ∧
      TiersOk ix pages (number + 1) (tier.map Closed.piece) (tier.map Closed.blkno)
        (next :: above)

def tierPages (tier : List (Closed ι α)) : List (Nat × Page ι α) :=
  tier.map fun closed => (closed.blkno, closed.page)

def Level.lastClosed (lvl : Level ι α) : Closed ι α :=
  ⟨lvl.state.blkno, lvl.state.lastPage, lvl.pieces.reverse⟩

def Level.tier (lvl : Level ι α) : List (Closed ι α) :=
  lvl.closed ++ [lvl.lastClosed]

theorem lastClosed_ok (ok : LevelOk ix pages number lvl) (started : lvl.pieces ≠ [])
    (mem : (lvl.state.blkno, lvl.state.lastPage) ∈ pages) :
    ClosedOk ix pages number lvl.lastClosed := by
  refine ⟨ok.height, fun empty => started (reverse_eq_nil_iff.mp empty), ?_, mem⟩
  change OnPage ix pages number lvl.state.items.reverse.reverse lvl.pieces.reverse.reverse
  rw [reverse_reverse, reverse_reverse]
  exact ok.onPage

theorem tier_ok (ok : LevelOk ix pages number lvl) (started : lvl.pieces ≠ [])
    (subset : pages ⊆ more) (mem : (lvl.state.blkno, lvl.state.lastPage) ∈ more) :
    TierOk ix more number lvl.stream lvl.downlinks lvl.tier where
  closed := fun page pageMem => by
    cases mem_append.mp pageMem with
    | inl old => exact (ok.closed page old).mono subset
    | inr last =>
      rw [mem_singleton.mp last]
      exact lastClosed_ok (ok.mono subset) started mem
  siblings := by
    refine ⟨some lvl.state.blkno, Links.concat ?_ rfl rfl rfl⟩
    have links := ok.links
    cases pieces : lvl.pieces with
    | nil => exact absurd pieces started
    | cons first rest =>
      rw [pieces, gather_reverse_low, ← pieces] at links
      exact links
  pieces := by
    rw [tier, flatMap_append, stream]
    exact congrArg (_ ++ ·) (append_nil _)
  downlinks := by
    rw [tier, flatMap_append, downlinks]
    exact congrArg (_ ++ ·) (append_nil _)
  separated := ok.separated

theorem last_arrives (ok : LevelOk ix pages number lvl) (started : lvl.pieces ≠ [])
    (stream : streamOf above = lvl.closed.map Closed.piece)
    (low : lvl.state.lowkey = some lowkey) (sum : agg = total ix (rowsOf lvl.pieces.reverse)) :
    Arrives ix ((lvl.state.blkno, lvl.state.lastPage) :: pages) (number + 1) above
      (.pivot ⟨lowkey.key, lowkey.size, lvl.state.blkno, agg⟩) lvl.lastClosed.piece := by
  have subset : pages ⊆ (lvl.state.blkno, lvl.state.lastPage) :: pages := subset_cons_self ..
  refine page_arrives stream (fun page mem => (ok.closed page mem).mono subset)
    (lastClosed_ok (ok.mono subset) started (mem_cons_self ..)) ?_
    (ok.sized.lowkey lowkey low) sum ok.separated ok.leftmost
  have lowkeys := ok.lowkey
  cases pieces : lvl.pieces with
  | nil => exact absurd pieces started
  | cons first rest =>
    rw [low, pieces, gather_reverse_low, ← pieces] at lowkeys
    exact some.inj lowkeys

structure Shut (ix : Index ι α) (number : Nat) (levels : List (Level ι α))
    (writer : Writer ι α) (loaded : Loaded ι α) (tiers : List (List (Closed ι α)))
    (new : List (Nat × Page ι α)) (count : Nat) : Prop where
  pages : loaded.pages = writer.written ++ new
  ok : TiersOk ix loaded.pages number (streamOf levels) (linksOf levels) tiers
  written : (tiers.flatMap tierPages).Perm (closedPages levels ++ new)
  blocks : (tiers.flatMap fun tier => tier.map Closed.blkno).Perm
    (blocksOf levels ++ range' writer.pagesAlloced count)
  root : ∃ top, tiers.getLast? = some [top] ∧ loaded.root = some ⟨top.blkno, top.page.level⟩

theorem shut_root (ok : LevelsOk ix writer.written number [lvl]) (started : lvl.pieces ≠ []) :
    Shut ix number [lvl] writer ⟨some ⟨lvl.state.blkno, lvl.state.level⟩,
        writer.written ++ [(lvl.state.blkno, lvl.state.lastPage)]⟩
      [lvl.tier] [(lvl.state.blkno, lvl.state.lastPage)] 0 where
  pages := rfl
  ok := by
    refine ⟨tier_ok ok.1 started (subset_append_left _ _)
      (mem_append_right _ (mem_singleton_self _)), ?_⟩
    have none : lvl.closed = [] := map_eq_nil_iff.mp ok.2.1.stream.symm
    rw [tier, none]
    rfl
  written := by
    have shape : [lvl.tier].flatMap tierPages =
        closedPages [lvl] ++ [(lvl.state.blkno, lvl.state.lastPage)] := by
      simp [tierPages, tier, closedPages, lastClosed]
    rw [shape]
  blocks := by
    have shape : [lvl.tier].flatMap (fun tier => tier.map Closed.blkno) = blocksOf [lvl] := by
      simp [tier, blocksOf, lastClosed]
    rw [shape, range'_zero, append_nil]
  root := by
    have none : lvl.closed = [] := map_eq_nil_iff.mp ok.2.1.stream.symm
    refine ⟨lvl.lastClosed, ?_, rfl⟩
    rw [tier, none]
    rfl

theorem Shut.cons {after : List (Level ι α)}
    (ok : LevelOk ix writer.written number lvl) (started : lvl.pieces ≠ [])
    (covered : Covered lvl above)
    {count : Nat}
    (downlink : pivot.downlink = lvl.state.blkno)
    (added : Added ix ((lvl.state.blkno, lvl.state.lastPage) :: writer.written)
      (number + 1) above (.pivot pivot) lvl.lastClosed.piece writer after res new count)
   
   
    (shut : Shut ix (number + 1) after
      { res with written := res.written ++ [(lvl.state.blkno, lvl.state.lastPage)] }
      loaded tiers more others) :
    Shut ix number (lvl :: above) writer loaded (lvl.tier :: tiers)
      (new ++ [(lvl.state.blkno, lvl.state.lastPage)] ++ more) (count + others) where
  pages := by
    rw [shut.pages, added.written]
    simp
  ok := by
    have pages : loaded.pages =
        writer.written ++ (new ++ [(lvl.state.blkno, lvl.state.lastPage)] ++ more) := by
      rw [shut.pages, added.written]
      simp
    have tier : TierOk ix loaded.pages number lvl.stream lvl.downlinks lvl.tier := by
      refine tier_ok ok started ?_ ?_ <;> rw [pages]
      · exact subset_append_left _ _
      · simp
    have tiersOk := shut.ok
    rw [added.stream, added.links, covered.stream, covered.links, Item.downlinks, downlink]
      at tiersOk
    cases tiers with
    | nil => exact tiersOk.elim
    | cons next rest =>
      refine ⟨tier, ?_⟩
      rw [Level.tier, map_append, map_append]
      exact tiersOk
  written := by
    have shape : (lvl.tier :: tiers).flatMap tierPages =
        lvl.closed.map (fun closed => (closed.blkno, closed.page)) ++
          ([(lvl.state.blkno, lvl.state.lastPage)] ++ tiers.flatMap tierPages) := by
      simp [tierPages, tier, lastClosed]
    have old : closedPages (lvl :: above) =
        lvl.closed.map (fun closed => (closed.blkno, closed.page)) ++ closedPages above :=
      flatMap_cons
    rw [shape, old, append_assoc]
    refine List.Perm.append_left _ ?_
    refine ((shut.written.trans (added.closed.append_right _)).append_left _).trans ?_
    rw [← append_assoc, ← append_assoc, ← append_assoc, ← append_assoc]
    refine List.Perm.append_right _ ?_
    rw [append_assoc, append_assoc]
    exact perm_append_comm.trans (by rw [append_assoc])
  blocks := by
    have shape : (lvl.tier :: tiers).flatMap (fun tier => tier.map Closed.blkno) =
        (lvl.closed.map Closed.blkno ++ [lvl.state.blkno]) ++
          tiers.flatMap fun tier => tier.map Closed.blkno := by
      simp [tier, lastClosed]
    have old : blocksOf (lvl :: above) =
        (lvl.closed.map Closed.blkno ++ [lvl.state.blkno]) ++ blocksOf above :=
      flatMap_cons
    have allocated := shut.blocks
    rw [added.alloced] at allocated
    rw [shape, old, ← range'_append_1, append_assoc _ (blocksOf above),
      ← append_assoc (blocksOf above)]
    exact List.Perm.append_left _ (allocated.trans (added.blocks.append_right _))
  root := by
    obtain ⟨top, last, root⟩ := shut.root
    refine ⟨top, ?_, root⟩
    rw [getLast?_cons, last]
    rfl

omit [LinearOrder α] in
theorem rowsOf_tier (lvl : Level ι α) : rowsOf (lvl.tier.map Closed.piece) = rowsOf lvl.stream := by
  simp [rowsOf, tier, stream, lastClosed, Closed.piece, flatMap_assoc, flatMap_map]

theorem upperShutdown_root (ok : LevelsOk ix writer.written number [lvl])
    (started : lvl.pieces ≠ []) :
    Outcome (fun loaded => ∃ tiers new count, Shut ix number [lvl] writer loaded tiers new count)
      (SumError ix (rowsOf lvl.stream))
      (upperShutdown ix rounds ⟨[lvl.state], writer⟩) := by
  have step : upperShutdown ix rounds ⟨[lvl.state], writer⟩ = (accumLast ix lvl.state).map fun _ =>
        ⟨some ⟨lvl.state.blkno, lvl.state.level⟩,
          writer.written ++ [(lvl.state.blkno, lvl.state.lastPage)]⟩ := by
    cases rounds <;> rfl
  rw [step]
  exact (accumLast_outcome ok.1).map fun agg _ => ⟨_, _, _, shut_root ok started⟩

/-- `_abt_uppershutdown` makes all levels tiers of a tree.  Every round closes a level, and the
measure of the levels that are left goes down. -/
theorem upperShutdown_outcome (ok : LevelsOk ix writer.written number (lvl :: above))
    (started : ∀ next ∈ lvl :: above, next.pieces ≠ [])
    (fuel : heightOf ((lvl :: above).map state) ≤ rounds) :
    Outcome (fun loaded => ∃ tiers new count,
        Shut ix number (lvl :: above) writer loaded tiers new count)
      (SumError ix (rowsOf lvl.stream))
      (upperShutdown ix rounds ⟨(lvl :: above).map state, writer⟩) := by
  induction rounds generalizing lvl above number writer with
  | zero =>
    cases above with
    | nil => exact upperShutdown_root ok (started lvl (mem_cons_self ..))
    | cons next above =>
      change 2 + _ ≤ 0 at fuel
      omega
  | succ rounds ih =>
    cases above with
    | nil => exact upperShutdown_root ok (started lvl (mem_cons_self ..))
    | cons next above =>
      obtain ⟨levelOk, covered, aboveOk⟩ := ok
      have stream := covered.stream
      have nonempty := started lvl (mem_cons_self ..)
      obtain ⟨lowkey, low⟩ : ∃ lowkey, lvl.state.lowkey = some lowkey := by
        have lowkeys := levelOk.lowkey
        rw [getLast?_eq_some_getLast nonempty] at lowkeys
        obtain ⟨lowkey, low, -⟩ := map_eq_some_iff.mp lowkeys
        exact ⟨lowkey, low⟩
      refine Outcome.bind (accumLast_outcome levelOk) fun agg sum => ?_
      simp only [low]
      have arrives := last_arrives levelOk nonempty stream low (sum nonempty)
      have subset : writer.written ⊆ (lvl.state.blkno, lvl.state.lastPage) ::
          writer.written := subset_cons_self ..
      refine Outcome.bind ((buildAdd_outcome (aboveOk.mono subset) arrives writer 0).mono
        (fun _ => id) ?_) ?_
      · rintro error (⟨-, number, -⟩ | ⟨rfl, overflows⟩)
        · exact absurd number (Nat.succ_ne_zero _)
        · exact ⟨rfl, overflows.mono (rowsOf_above stream).isInfix⟩
      · rintro ⟨state, states, res⟩ ⟨after, new, count, same, added⟩
        cases after with
        | nil => cases same
        | cons first rest =>
          have rows : rowsOf first.stream = rowsOf lvl.stream := by
            have pieces : first.stream = lvl.tier.map Closed.piece := by
              rw [tier, map_append]
              exact added.stream.trans (congrArg (· ++ _) stream)
            rw [pieces, rowsOf_tier]
          have shorter : heightOf ((first :: rest).map Level.state) ≤ rounds := by
            have grown := added.height
            change 2 + heightOf ((next :: above).map Level.state) ≤ rounds + 1 at fuel
            omega
          have kept : LevelsOk ix ({ res with
              written := res.written ++ [(lvl.state.blkno, lvl.state.lastPage)] } :
              Writer ι α).written (number + 1) (first :: rest) := by
            refine added.ok _ (fun page mem => ?_) fun page mem => ?_
            · rw [added.written]
              cases mem_cons.mp mem with
              | inl last => exact mem_append_right _ (mem_singleton.mpr last)
              | inr old => exact mem_append_left _ (mem_append_left _ old)
            · rw [added.written]
              exact mem_append_left _ (mem_append_right _ mem)
          have done := ih kept (added.started fun other mem =>
            started other (mem_cons_of_mem _ (mem_of_mem_tail mem))) shorter
          rw [same, rows] at done
          refine done.mono ?_ fun _ => id
          rintro loaded ⟨tiers, more, others, shut⟩
          exact ⟨_, _, _, Shut.cons levelOk nonempty covered rfl added shut⟩

end PgAqp.BulkLoad
