import PgAqp.BulkLoad.Run

/-!
# The tree that is loaded

What is below a block is read from the pages that were written, by following the downlinks.
A loaded tree has tiers of pages, from the leaf level up to the root.
-/

namespace PgAqp.BulkLoad

open Abtree Library Sampling List Option Prod LeafTuple Closed

variable {ι α : Type}

/-! ## What is below a block -/

def itemsAt (pages : List (Nat × Page ι α)) (blkno : Nat) : List (Item ι α) :=
  ((pages.find? fun e => e.1 == blkno).map fun e => e.2.items).getD []

/-- The rows of an item, given those below a block. -/
def Item.rowsWith (lower : Nat → List (Row ι)) : Item ι α → List (Row ι)
  | .leaf tup => tup.rows
  | .pivot tup => lower tup.downlink

def below (pages : List (Nat × Page ι α)) : Nat → Nat → List (Row ι)
  | 0, _ => []
  | depth + 1, blkno => (itemsAt pages blkno).flatMap (Item.rowsWith (below pages depth))

variable {pages : List (Nat × Page ι α)} {ix : Index ι α}

theorem itemsAt_of_mem (diff : (pages.map fst).Nodup)
    {blkno : Nat} {page : Page ι α} (mem : (blkno, page) ∈ pages) :
    itemsAt pages blkno = page.items := by
  have found : pages.find? (fun e => e.1 == blkno) = some (blkno, page) := by
    induction pages with
    | nil => cases mem
    | cons e rest ih =>
      obtain ⟨notMem, distinctRest⟩ := nodup_cons.mp diff
      cases mem_cons.mp mem with
      | inl same =>
        rw [← same]
        exact find?_cons_of_pos (beq_self_eq_true blkno)
      | inr later =>
        have other : ¬ e.1 = blkno := fun eq => notMem (eq ▸ mem_map.mpr ⟨_, later, rfl⟩)
        rw [find?_cons_of_neg (by simpa using other)]
        exact ih distinctRest later
  rw [itemsAt, found]
  rfl

theorem Item.Has.below (diff : (pages.map fst).Nodup) {item : Item ι α}
    {rows : List (Row ι)} (has : item.Has ix pages lvl rows) :
    item.rowsWith (below pages lvl) = rows := by
  induction lvl generalizing item rows with
  | zero =>
    cases item with
    | leaf tup => exact has.symm
    | pivot tup => exact has.elim
  | succ lvl ih =>
    cases item with
    | leaf tup => exact has.elim
    | pivot tup =>
      obtain ⟨-, page, parts, mem, -, items, whole⟩ := has
      change BulkLoad.below pages (lvl + 1) tup.downlink = rows
      rw [BulkLoad.below, itemsAt_of_mem diff mem, whole]
      clear whole mem
      generalize page.items = list at items
      induction items with
      | nil => rfl
      | cons first rest tail => rw [flatMap_cons, flatten_cons, ih first, tail]

theorem rowsWith_of_onPage (diff : (pages.map fst).Nodup) {pieces : List (Piece ι α)}
    (has : List.Forall₂ (fun item piece => item.Has ix pages lvl piece.rows) items pieces) :
    items.flatMap (Item.rowsWith (below pages lvl)) = rowsOf pieces := by
  induction has with
  | nil => rfl
  | cons first rest tail =>
    rw [flatMap_cons, tail, first.below diff]
    rfl

variable {closed : Closed ι α} {piece : Piece ι α} {lvl num : Nat} {links : List Nat}
  {tiers : List (List (Closed ι α))}

theorem Links.at {next prev} (links : Links prev (left ++ closed :: right) last next low) :
    closed.page.prev = (left.getLast?.map blkno).or prev ∧
      closed.page.next = (right.head?.map blkno).or next ∧
      closed.page.hikey = (right.head?.map fun closed => closed.piece.low).or low := by
  induction left generalizing prev with
  | nil => exact ⟨links.1, links.2.1, links.2.2.1⟩
  | cons first rest ih =>
    obtain ⟨pagePrev, rest'⟩ := ih links.2.2.2
    refine ⟨?_, rest'⟩
    rw [pagePrev, getLast?_cons]
    cases rest.getLast? <;> rfl

theorem tierPages_split {e : Nat × Page ι α} (split : tierPages tier = left ++ e :: right) :
    ∃ first closed rest, tier = first ++ closed :: rest ∧ left = tierPages first ∧
      e = (closed.blkno, closed.page) ∧ right = tierPages rest := by
  obtain ⟨first, others, rfl, rfl, tail⟩ := map_eq_append_iff.mp split
  obtain ⟨closed, rest, rfl, rfl, rfl⟩ := map_eq_cons_iff.mp tail
  exact ⟨first, closed, rest, rfl, rfl, rfl, rfl⟩

theorem Item.Has.leaf_iff {item : Item ι α} {rows : List (Row ι)}
    (has : item.Has ix pages lvl rows) :
    (∃ tup, item = .leaf tup) ↔ lvl = 0 := by
  cases lvl with
  | zero =>
    cases item with
    | leaf tup => exact ⟨fun _ => rfl, fun _ => ⟨tup, rfl⟩⟩
    | pivot tup => exact has.elim
  | succ lvl =>
    cases item with
    | leaf tup => exact has.elim
    | pivot tup => exact ⟨nofun, nofun⟩

theorem forall₂_split {related : β → γ → Prop} {pre behind : List β} {item : β}
    {others : List γ} (all : List.Forall₂ related (pre ++ item :: behind) others) :
    ∃ earlier other later, others = earlier ++ other :: later ∧
      List.Forall₂ related pre earlier ∧ related item other ∧
      List.Forall₂ related behind later := by
  induction pre generalizing others with
  | nil =>
    cases all with
    | cons first rest => exact ⟨[], _, _, rfl, List.Forall₂.nil, first, rest⟩
  | cons head tail ih =>
    cases all with
    | cons first rest =>
      obtain ⟨earlier, other, later, rfl, pre, same, behind⟩ := ih rest
      exact ⟨_ :: earlier, other, later, rfl, List.Forall₂.cons first pre, same, behind⟩

theorem rowsOf_pieces (tier : List (Closed ι α)) :
    rowsOf (tier.map Closed.piece) = rowsOf (tier.flatMap Closed.pieces) := by
  simp [rowsOf, piece, flatMap_assoc, flatMap_map]

theorem flatten_tierPages (tiers : List (List (Closed ι α))) :
    (tiers.map tierPages).flatten = tiers.flatMap tierPages :=
  (flatMap_def ..).symm

theorem tierPages_blocks (tiers : List (List (Closed ι α))) :
    (tiers.flatMap tierPages).map fst = tiers.flatMap fun tier => tier.map blkno := by
  simp only [tierPages, map_flatMap, List.map_map]
  rfl

theorem heightOf_le (states : List (PageState ι α)) : heightOf states ≤ 2 * states.length + 2 := by
  induction states with
  | nil => exact Nat.le_succ 1
  | cons state above ih =>
    cases above with
    | nil =>
      change 1 + min state.items.length 2 ≤ 2 * 1 + 2
      omega
    | cons next above =>
      change 2 + heightOf (next :: above) ≤ _
      rw [length_cons]
      omega

variable [LinearOrder α]

theorem ClosedOk.below (diff : (pages.map fst).Nodup) (ok : ClosedOk ix pages lvl closed) :
    below pages (lvl + 1) closed.blkno = rowsOf closed.pieces := by
  rw [BulkLoad.below, itemsAt_of_mem diff ok.mem]
  have has := ok.onPage.has
  rw [forall₂_reverse_iff] at has
  exact rowsWith_of_onPage diff has

/-! ## Trees -/

def rowsBelow (pages : List (Nat × Page ι α)) (lvl : Nat) (es : List (Nat × Page ι α)) :
    List (Row ι) :=
  es.flatMap fun e => below pages (lvl + 1) e.1

def itemsBelow (pages : List (Nat × Page ι α)) (lvl : Nat) (items : List (Item ι α)) :
    List (Row ι) :=
  items.flatMap (Item.rowsWith (below pages lvl))

def Between (ix : Index ι α) (left : List (Row ι)) (key : Key α) (right : List (Row ι)) : Prop :=
  (∀ row ∈ left, ix.key row ≤ key) ∧ ∀ row ∈ right, key < ix.key row

structure IsTier (ix : Index ι α) (pages : List (Nat × Page ι α)) (rows : List (Row ι))
    (lvl : Nat) (tier : List (Nat × Page ι α)) : Prop where
  /-- The pages are of this level, and only those of level 0 have leaf tuples. -/
  height : ∀ e ∈ tier, e.2.level = lvl
  kinds : ∀ e ∈ tier, ∀ item ∈ e.2.items, (∃ tup, item = .leaf tup) ↔ lvl = 0
  /-- The rows are all rows in their order. -/
  whole : rowsBelow pages lvl tier = rows
  /-- The sibling links are those of the order, and only the last page has no high key. -/
  siblings : ∀ left e right, tier = left ++ e :: right →
    e.2.prev = left.getLast?.map fst ∧ e.2.next = right.head?.map fst ∧
      (e.2.hikey = none ↔ right = [])
  /-- The aggregates are the sums of what is below. -/
  aggs : ∀ e ∈ tier, ∀ tup, .pivot tup ∈ e.2.items →
    tup.agg = total ix (below pages lvl tup.downlink)
  /-- A high key separates the pages up to its own from those behind it. -/
  highKeys : ∀ left e right, tier = left ++ e :: right → ∀ key ∈ e.2.hikey,
    Between ix (rowsBelow pages lvl (left ++ [e])) key (rowsBelow pages lvl right)
  /-- The key of a downlink separates what is before it from what is below it and behind it.  The
  first downlink of a page has no key. -/
  downlinkKeys : ∀ left e right, tier = left ++ e :: right → ∀ pre tup behind,
    e.2.items = pre ++ .pivot tup :: behind →
      Between ix (if pre = [] then [] else rowsBelow pages lvl left ++
          itemsBelow pages lvl pre) tup.key
        (itemsBelow pages lvl (.pivot tup :: behind) ++ rowsBelow pages lvl right)

structure IsTree (ix : Index ι α) (rows : List (Row ι)) (root : Root)
    (pages : List (Nat × Page ι α)) (tiers : List (List (Nat × Page ι α))) : Prop where
  /-- Every page is on one tier, and no block is used twice. -/
  partition : pages.Perm tiers.flatten
  distinct : (pages.map fst).Nodup
  /-- The highest tier is the root. -/
  top : ∃ page, tiers.getLast? = some [(root.blkno, page)]
  height : tiers.length = root.level + 1
  isTier : ∀ lvl tier, tiers[lvl]? = some tier → IsTier ix pages rows lvl tier
  /-- The downlinks of a tier lead to the pages of the one below it, in their order. -/
  downlinks : ∀ lvl lower upper, tiers[lvl]? = some lower → tiers[lvl + 1]? = some upper →
    upper.flatMap (fun e => e.2.items.flatMap Item.downlinks) = lower.map fst

/-! ## The tiers of a load -/

theorem rowsBelow_tierPages (diff : (pages.map fst).Nodup)
    (ok : ∀ closed ∈ tier, ClosedOk ix pages lvl closed) :
    rowsBelow pages lvl (tierPages tier) = rowsOf (tier.flatMap pieces) := by
  induction tier with
  | nil => rfl
  | cons closed rest ih =>
    rw [flatMap_cons, rowsOf_append, ← ih fun page mem => ok page (mem_cons_of_mem _ mem),
      ← (ok closed (mem_cons_self ..)).below diff]
    rfl

theorem Separated.between {pre after : List (Piece ι α)}
    (separated : Separated ix (pre ++ piece :: after)) :
    Between ix (rowsOf pre) piece.low (rowsOf (piece :: after)) :=
  ⟨fun _ mem => separated.le_low mem, fun _ mem => separated.low_lt mem⟩

theorem LowKeys.at {prev} {pieces : List (Piece ι α)}
    (lows : LowKeys ix (behind ++ item :: prev :: pre) (others ++ piece :: pieces))
    (length : behind.length = others.length) (separates : separator ix prev item = .ok between) :
    between.low.key = piece.low := by
  induction behind generalizing others with
  | nil =>
    cases others with
    | nil => exact lows.1 between separates
    | cons _ _ => cases length
  | cons first rest ih =>
    cases others with
    | nil => cases length
    | cons other others =>
      refine ih ?_ (Nat.succ.inj length)
      cases rest with
      | nil => exact lows.2
      | cons _ _ => exact lows.2

theorem ClosedOk.item (ok : ClosedOk ix pages lvl closed) {item : Item ι α}
    (mem : item ∈ closed.page.items) : ∃ rows, item.Has ix pages lvl rows := by
  have has := ok.onPage.has
  rw [forall₂_reverse_iff] at has
  generalize closed.page.items = items at mem has
  generalize closed.pieces = pieces at has
  induction has with
  | nil => cases mem
  | cons first rest ih =>
    cases mem_cons.mp mem with
    | inl same => exact ⟨_, same ▸ first⟩
    | inr later => exact ih later

theorem TierOk.highKey (diff : (pages.map fst).Nodup)
    (ok : TierOk ix pages lvl stream links (left ++ closed :: right))
    (high : key ∈ closed.page.hikey) :
    Between ix (rowsBelow pages lvl (tierPages (left ++ [closed]))) key
      (rowsBelow pages lvl (tierPages right)) := by
  obtain ⟨last, siblings⟩ := ok.siblings
  obtain ⟨-, -, hikey⟩ := siblings.at
  cases right with
  | nil =>
    rw [hikey] at high
    cases high
  | cons next rest =>
    rw [hikey] at high
    cases high
    have regroup : left ++ closed :: next :: rest = (left ++ [closed]) ++ next :: rest := by simp
    have separated := ok.separated
    rw [← ok.pieces, regroup, flatMap_append, flatMap_cons] at separated
    have closedOk := ok.closed
    rw [regroup] at closedOk
    rw [rowsBelow_tierPages diff fun page mem => closedOk page (mem_append_left _ mem),
      rowsBelow_tierPages diff fun page mem => closedOk page (mem_append_right _ mem),
      flatMap_cons]
    have nonempty := (closedOk next (mem_append_right _ (mem_cons_self ..))).nonempty
    change Between ix _ (gather next.pieces).low _
    cases pieces : next.pieces with
    | nil => exact absurd pieces nonempty
    | cons first others =>
      rw [pieces] at separated
      exact separated.between

theorem TierOk.downlinkKey (diff : (pages.map fst).Nodup)
    (ok : TierOk ix pages lvl stream links (left ++ closed :: right)) {tup : PivotTuple α}
    (items : closed.page.items = pre ++ .pivot tup :: behind) :
    Between ix (if pre = [] then [] else rowsBelow pages lvl (tierPages left) ++
        itemsBelow pages lvl pre) tup.key
      (itemsBelow pages lvl (.pivot tup :: behind) ++ rowsBelow pages lvl (tierPages right)) := by
  have closedOk := ok.closed closed (mem_append_right _ (mem_cons_self ..))
  have onPage := closedOk.onPage
  have has := onPage.has
  rw [forall₂_reverse_iff, items] at has
  obtain ⟨earlier, piece, later, pieces, hasBefore, hasItem, hasBehind⟩ := forall₂_split has
  have separated := ok.separated
  rw [← ok.pieces, flatMap_append, flatMap_cons, pieces, append_assoc,
    ← append_assoc, cons_append] at separated
  have leftRows := rowsBelow_tierPages diff fun page mem =>
    ok.closed page (mem_append_left (closed :: right) mem)
  have rightRows := rowsBelow_tierPages diff fun page mem =>
    ok.closed page (mem_append_right left (mem_cons_of_mem closed mem))
  have beforeRows : itemsBelow pages lvl pre = rowsOf earlier := rowsWith_of_onPage diff hasBefore
  have behindRows : itemsBelow pages lvl (.pivot tup :: behind) = rowsOf (piece :: later) :=
    rowsWith_of_onPage diff (List.Forall₂.cons hasItem hasBehind)
  rw [leftRows, rightRows, beforeRows, behindRows]
  cases eq_nil_or_concat pre with
  | inl empty =>
    have first : tup.key = minusInfinity := by
      refine onPage.first tup ?_
      rw [items, empty]
      simp
    rw [empty, first]
    exact ⟨nofun, fun row _ => minusInfinity_lt _ _⟩
  | inr nonempty =>
    obtain ⟨init, prev, rfl⟩ := nonempty
    have key : tup.key = piece.low := by
      have lows := onPage.lows
      rw [items, pieces] at lows
      simp only [concat_eq_append, reverse_append, reverse_cons, append_assoc,
        cons_append, nil_append] at lows
      have length : behind.reverse.length = later.reverse.length := by
        rw [length_reverse, length_reverse, hasBehind.length_eq]
      obtain ⟨rows, prevHas⟩ := closedOk.item (show prev ∈ closed.page.items by
        rw [items]
        simp)
      cases prev with
      | leaf other =>
        have leaf := prevHas.leaf_iff.mp ⟨other, rfl⟩
        obtain ⟨none, same⟩ := hasItem.leaf_iff.mpr leaf
        cases same
      | pivot other =>
        have separates : separator ix (.pivot other) (.pivot tup : Item ι α) =
            .ok ⟨_, ⟨tup.key, tup.size⟩⟩ := rfl
        exact lows.at length separates
    rw [if_neg (by simp), key, ← rowsOf_append, ← rowsOf_append]
    exact separated.between

theorem TierOk.isTier (diff : (pages.map fst).Nodup) {tier : List (Closed ι α)}
    (ok : TierOk ix pages lvl stream links tier) :
    IsTier ix pages (rowsOf stream) lvl (tierPages tier) where
  height := by
    intro e mem
    obtain ⟨closed, closedMem, rfl⟩ := mem_map.mp mem
    exact (ok.closed closed closedMem).height
  kinds := by
    intro e mem item itemMem
    obtain ⟨closed, closedMem, rfl⟩ := mem_map.mp mem
    obtain ⟨rows, has⟩ := (ok.closed closed closedMem).item itemMem
    exact has.leaf_iff
  whole := by rw [rowsBelow_tierPages diff ok.closed, ok.pieces]
  siblings := by
    intro left e right split
    obtain ⟨first, closed, rest, rfl, rfl, rfl, rfl⟩ := tierPages_split split
    obtain ⟨last, siblings⟩ := ok.siblings
    obtain ⟨prev, next, hikey⟩ := siblings.at
    rw [or_none] at prev next hikey
    refine ⟨?_, ?_, ?_⟩
    · rw [prev, tierPages, getLast?_map, Option.map_map]
      rfl
    · rw [next, tierPages, head?_map, Option.map_map]
      rfl
    · rw [hikey]
      cases rest with
      | nil => exact ⟨fun _ => rfl, fun _ => rfl⟩
      | cons _ _ => constructor <;> intro equal <;> cases equal
  aggs := by
    intro e mem tup tupleMem
    obtain ⟨closed, closedMem, rfl⟩ := mem_map.mp mem
    obtain ⟨rows, has⟩ := (ok.closed closed closedMem).item tupleMem
    have rowsEq : below pages lvl tup.downlink = rows := has.below diff
    rw [rowsEq]
    exact has.sums
  highKeys := by
    intro left e right split key high
    obtain ⟨first, closed, rest, rfl, rfl, rfl, rfl⟩ := tierPages_split split
    have between := ok.highKey diff high
    rw [tierPages, map_append] at between
    exact between
  downlinkKeys := by
    intro left e right split pre tup behind items
    obtain ⟨first, closed, rest, rfl, rfl, rfl, rfl⟩ := tierPages_split split
    exact ok.downlinkKey diff items

theorem TiersOk.at (ok : TiersOk ix pages num stream links tiers) (get : tiers[lvl]? = some tier) :
    ∃ pieces downlinks, TierOk ix pages (num + lvl) pieces downlinks tier ∧
      rowsOf pieces = rowsOf stream := by
  induction tiers generalizing num stream links lvl with
  | nil => exact ok.elim
  | cons first rest ih =>
    have firstOk : TierOk ix pages num stream links first := by
      cases rest with
      | nil => exact ok.1
      | cons _ _ => exact ok.1
    cases lvl with
    | zero =>
      cases get
      exact ⟨stream, links, firstOk, rfl⟩
    | succ lvl =>
      cases rest with
      | nil => cases get
      | cons second others =>
        obtain ⟨pieces, downlinks, tierOk, rows⟩ := ih ok.2 get
        refine ⟨pieces, downlinks, ?_, ?_⟩
        · rw [Nat.add_comm lvl, ← Nat.add_assoc]
          exact tierOk
        · rw [rows, rowsOf_pieces, firstOk.pieces]

theorem TiersOk.downlinks_at (ok : TiersOk ix pages num stream links tiers)
    (getLower : tiers[lvl]? = some lower) (getUpper : tiers[lvl + 1]? = some upper) :
    upper.flatMap downlinks = lower.map blkno := by
  induction tiers generalizing num stream links lvl with
  | nil => exact ok.elim
  | cons first rest ih =>
    cases rest with
    | nil => cases getUpper
    | cons second others =>
      cases lvl with
      | zero =>
        cases getLower
        cases getUpper
        cases others with
        | nil => exact ok.2.1.downlinks
        | cons _ _ => exact ok.2.1.downlinks
      | succ lvl => exact ih ok.2 getLower getUpper

theorem Shut.isTree {load : LoadState ι α} (loading : Loading ix load tuples levels)
    {count : Nat} (shut : Shut ix 0 levels load.writer loaded tiers new count) :
    ∃ root, loaded.root = some root ∧
      IsTree ix (tuples.flatMap rows) root loaded.pages (tiers.map tierPages) := by
  have partition : loaded.pages.Perm (tiers.map tierPages).flatten := by
    rw [shut.pages, flatten_tierPages]
    exact ((loading.closed.append_right new).symm).trans shut.written.symm
  have diff : (loaded.pages.map fst).Nodup := by
    have blocks : (loaded.pages.map fst).Perm (range' 1 (load.writer.pagesAlloced - 1) ++
          range' load.writer.pagesAlloced count) := by
      refine (partition.map fst).trans ?_
      rw [flatten_tierPages, tierPages_blocks]
      exact shut.blocks.trans (loading.blocks.append_right _)
    have start : 1 + (load.writer.pagesAlloced - 1) = load.writer.pagesAlloced := by
      have alloced := loading.alloced
      omega
    have whole := range'_append_1 (s := 1) (m := load.writer.pagesAlloced - 1) (n := count)
    rw [start] at whole
    rw [whole] at blocks
    exact blocks.symm.nodup (nodup_range' ..)
  obtain ⟨top, last, root⟩ := shut.root
  have rows : rowsOf (streamOf levels) = tuples.flatMap rows := by
    rw [loading.stream, rowsOf_leafPieces]
  refine ⟨_, root, partition, diff, ⟨top.page, ?_⟩, ?_, ?_, ?_⟩
  · rw [getLast?_map, last]
    rfl
  · have nonempty : tiers ≠ [] := by
      rintro rfl
      cases last
    have get : tiers[tiers.length - 1]? = some [top] := by rw [← getLast?_eq_getElem?, last]
    obtain ⟨pieces, downlinks, ok, -⟩ := shut.ok.at get
    have height := (ok.closed top (mem_singleton_self _)).height
    have positive := length_pos_iff.mpr nonempty
    change (tiers.map tierPages).length = top.page.level + 1
    rw [length_map, height]
    omega
  · intro lvl tier get
    rw [getElem?_map] at get
    obtain ⟨closed, getClosed, rfl⟩ := map_eq_some_iff.mp get
    obtain ⟨pieces, downlinks, ok, same⟩ := shut.ok.at getClosed
    rw [Nat.zero_add] at ok
    rw [← rows, ← same]
    exact ok.isTier diff
  · intro lvl lower upper getLower getUpper
    rw [getElem?_map] at getLower getUpper
    obtain ⟨lowerClosed, lowerGet, rfl⟩ := map_eq_some_iff.mp getLower
    obtain ⟨upperClosed, upperGet, rfl⟩ := map_eq_some_iff.mp getUpper
    have links := shut.ok.downlinks_at lowerGet upperGet
    simp only [tierPages, flatMap_map, List.map_map]
    exact links

/-! ## Loading -/

def IsLoaded (ix : Index ι α) (rows : List (Row ι)) (loaded : Loaded ι α) : Prop :=
  (rows = [] ∧ loaded = ⟨none, []⟩) ∨
    ∃ root tiers, loaded.root = some root ∧ IsTree ix rows root loaded.pages tiers

theorem shutdown_outcome {load : LoadState ι α} (loading : Loading ix load tuples levels) :
    Outcome (IsLoaded ix (tuples.flatMap rows)) (SumError ix (tuples.flatMap rows))
      (upperShutdown ix (2 * load.levels.length + 2) load) := by
  obtain ⟨states, writer⟩ := load
  obtain rfl : levels.map Level.state = states := loading.states
  have rows : rowsOf (streamOf levels) = tuples.flatMap rows := by
    rw [loading.stream, rowsOf_leafPieces]
  cases levels with
  | nil =>
    have none : writer.written = [] := perm_nil.mp loading.closed.symm
    refine .inl ⟨rows.symm, ?_⟩
    rw [none]
  | cons lvl above =>
    refine (upperShutdown_outcome loading.ok loading.started (heightOf_le _)).mono ?_ ?_
    · rintro loaded ⟨tiers, new, count, shut⟩
      obtain ⟨root, same, tree⟩ := shut.isTree loading
      exact .inr ⟨root, _, same, tree⟩
    · rintro error bad
      exact rows ▸ bad

theorem loadTuples_outcome (ix : Index ι α) (tuples : List (LeafTuple ι))
    (sorted : Sorted ix (tuples.flatMap rows)) :
    Outcome (IsLoaded ix (tuples.flatMap rows)) (LoadError ix tuples)
      ((addTuples ix ⟨[], ⟨1, []⟩⟩ tuples).bind fun loaded =>
        upperShutdown ix (2 * loaded.levels.length + 2) loaded) := by
  refine Outcome.bind (addTuples_outcome (Loading.start ix) sorted) ?_
  rintro load ⟨levels, loading⟩
  exact (shutdown_outcome loading).mono (fun _ => id) fun _ => .inr

def LoadSpec (ix : Index ι α) (rows : List (Row ι)) : Except BuildError (Loaded ι α) → Prop
  | .ok loaded => IsLoaded ix rows loaded
  | .error .oversized => ∃ row ∈ rows, TooLargeRow ix row
  | .error .outOfRange => Overflows ix rows
  | .error _ => False

/-- For every sorted input the bulk load builds a tree in which the leaf level has every input row
once and in order, every aggregate is the sum of what is below it, and every high key and downlink
key separates the pages on its two sides.  It fails only if a row is too large for the index or
the sum of some consecutive rows is out of range for the type of the aggregate. -/
theorem load_builds_tree [DecidableEq ι] (ix : Index ι α) (spools : Spools ι)
    (sorted : spools.Sorted ix) :
    (spools.rows ix).Perm spools.input ∧ Sorted ix (spools.rows ix) ∧
      LoadSpec ix (spools.rows ix) (load ix spools) := by
  have order := Spools.rows_sorted sorted
  have rows := spools.leafTuples_rows ix
  refine ⟨spools.rows_perm ix, order, ?_⟩
  have out := loadTuples_outcome ix (spools.leafTuples ix) (rows.symm ▸ order)
  rw [rows] at out
  change Outcome _ _ (load ix spools) at out
  cases res : load ix spools with
  | ok loaded =>
    rw [res] at out
    exact out
  | error error =>
    rw [res] at out
    rcases out with ⟨rfl, tup, mem, large⟩ | ⟨rfl, overflows⟩
    · exact Spools.tooLarge mem large
    · exact rows ▸ overflows

/-- Five rows, two of them in a posting list, on two pages below a root. -/
theorem load_builds_tree_of_five :
    load wideIndex (.one [⟨1, 1⟩, ⟨1, 2⟩, ⟨2, 3⟩, ⟨3, 4⟩, ⟨4, 5⟩] true) = .ok ⟨some ⟨3, 1⟩,
      [(1, ⟨0, none, some 2, some ⟨[3], none⟩, [.leaf ⟨1, 1, [2]⟩, .leaf ⟨2, 3, []⟩]⟩),
        (2, ⟨0, some 1, none, none, [.leaf ⟨3, 4, []⟩, .leaf ⟨4, 5, []⟩]⟩),
        (3, ⟨1, none, none, none,
          [.pivot ⟨⟨[], none⟩, 24, 1, 3⟩, .pivot ⟨⟨[3], none⟩, 2704, 2, 2⟩]⟩)]⟩ ∧
      LoadSpec wideIndex (Spools.rows wideIndex (.one [⟨1, 1⟩, ⟨1, 2⟩, ⟨2, 3⟩, ⟨3, 4⟩, ⟨4, 5⟩] true))
        (load wideIndex (.one [⟨1, 1⟩, ⟨1, 2⟩, ⟨2, 3⟩, ⟨3, 4⟩, ⟨4, 5⟩] true)) := by
  refine ⟨by decide +kernel,
    (load_builds_tree wideIndex (.one [⟨1, 1⟩, ⟨1, 2⟩, ⟨2, 3⟩, ⟨3, 4⟩, ⟨4, 5⟩] true) ?_).2.2⟩
  change List.Pairwise _ _
  decide

end PgAqp.BulkLoad
