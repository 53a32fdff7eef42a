import PgAqp.BulkLoad.Level

/-!
# Adding an item keeps the levels

An item that arrives at a level is placed on its open page.  A page that must be finished
first arrives at the level above as one item, so the argument is the same on all levels.
-/

namespace PgAqp.BulkLoad

open Abtree Library Sampling List Option Level

variable {ι α : Type} [LinearOrder α]

structure Arrives (ix : Index ι α) (pages : List (Nat × Page ι α)) (num : Nat)
    (levels : List (Level ι α)) (item : Item ι α) (piece : Piece ι α) : Prop where
  has : item.Has ix pages num piece.rows
  size : ∀ tup, item = .pivot tup → PivotSize tup.size
  low : ∀ lvl ∈ levels.head?, ∀ prev ∈ lvl.state.items.head?, ∀ between,
    separator ix prev item = .ok between → between.low.key = piece.low
  first : streamOf levels = [] → piece.low = minusInfinity
  separated : Separated ix (streamOf levels ++ [piece])

variable {ix : Index ι α} {pages more : List (Nat × Page ι α)} {num : Nat} {item : Item ι α}
  {piece : Piece ι α} {lvl : Level ι α} {above levels : List (Level ι α)} {last : Item ι α}
  {group : List (Piece ι α)} {writer res : Writer ι α}

theorem Arrives.mono (subset : pages ⊆ more) (arrives : Arrives ix pages num levels item piece) :
    Arrives ix more num levels item piece :=
  { arrives with has := arrives.has.mono subset }

/-! ## Placing an item -/

section

variable {α : Type}

def stored (ix : Index ι α) (state : PageState ι α) (item : Item ι α) : Item ι α :=
  if state.level ≠ 0 ∧ state.items = [] then item.truncateFirst ix else item

def placed (ix : Index ι α) (state : PageState ι α) (item : Item ι α) (truncextra agg : Int) :
    PageState ι α :=
  { state with
    items := stored ix state item :: state.items
    lowkey :=
      if state.items = [] then some ⟨minusInfinity, minusInfinitySize ix⟩ else state.lowkey
    agg := agg
    lastextra := truncextra }

theorem stored_of_nonempty (ix : Index ι α) {state : PageState ι α} (item : Item ι α)
    (nonempty : state.items ≠ []) : stored ix state item = item :=
  if_neg fun both => nonempty both.2

variable {ix : Index ι α}

theorem stored_sized (state : PageState ι α) {item : Item ι α}
    (sized : item.Sized ix) : (stored ix state item).Sized ix := by
  unfold stored
  split
  · exact sized.truncateFirst
  · exact sized

theorem truncateFirst_downlinks (ix : Index ι α) (item : Item ι α) :
    (item.truncateFirst ix).downlinks = item.downlinks := by
  cases item <;> rfl

theorem stored_downlinks (ix : Index ι α) (state : PageState ι α) (item : Item ι α) :
    (stored ix state item).downlinks = item.downlinks := by
  unfold stored
  split
  · exact truncateFirst_downlinks ix item
  · rfl

variable {state : PageState ι α}

theorem placeItem_eq {item : Item ι α}
    (room : 4 + maxalign ((stored ix state item).size ix) ≤ pageSpace ix state.items) :
    placeItem ix state item truncextra =
      (accumLast ix state).map (placed ix state item truncextra) := by
  have fits : ¬ pageSpace ix state.items < 4 + maxalign ((stored ix state item).size ix) :=
    not_lt.mpr room
  unfold placeItem
  cases accumLast ix state with
  | error error => rfl
  | ok agg => exact if_neg fits

theorem room_of_stored {item : Item ι α} (sized : item.Sized ix)
    (room : 4 + maxalign (item.size ix) ≤ pageSpace ix state.items) :
    4 + maxalign ((stored ix state item).size ix) ≤ pageSpace ix state.items := by
  by_cases empty : state.items = []
  · have bounds := (stored_sized state sized).bounds
    rw [empty, pageSpace_nil]
    omega
  · rw [stored_of_nonempty ix item empty]
    exact room

end

theorem LevelOk.place (ok : LevelOk ix pages num lvl)
    (arrives : Arrives ix pages num (lvl :: above) item piece) (sized : item.Sized ix)
    (room : 4 + maxalign (item.size ix) ≤ pageSpace ix lvl.state.items) (truncextra : Int)
    {agg : Int} (sum : lvl.pieces ≠ [] → agg = total ix (rowsOf lvl.pieces.reverse)) :
    LevelOk ix pages num
      ⟨placed ix lvl.state item truncextra agg, lvl.closed, piece :: lvl.pieces⟩ := by
  have fits := room_of_stored sized room
  have stream : stream ⟨placed ix lvl.state item truncextra agg, lvl.closed, piece :: lvl.pieces⟩ =
        lvl.stream ++ [piece] := by
    unfold stream
    rw [reverse_cons, append_assoc]
  have both : lvl.state.items = [] ↔ lvl.pieces = [] := by
    rw [← length_eq_zero_iff, ok.onPage.has.length_eq, length_eq_zero_iff]
  have empty : lvl.pieces = [] → lvl.stream = [] := fun none => by
    rw [Level.stream, ok.started none, none]
    rfl
  refine
    { height := ok.height
      sized := ⟨?_, ?_, ?_⟩
      onPage := ⟨?_, ?_, ?_⟩
      lowkey := ?_
      agg := ?_
      links := ?_
      closed := ok.closed
      separated := stream ▸ arrives.separated
      leftmost := ?_
      started := fun none => absurd none (cons_ne_nil _ _) }
  · change 0 ≤ pageSpace ix (stored ix lvl.state item :: lvl.state.items)
    rw [pageSpace_cons]
    omega
  · exact forall_mem_cons.mpr ⟨stored_sized lvl.state sized, ok.sized.items⟩
  · change ∀ low ∈ (if lvl.state.items = [] then _ else _), _
    split
    · rintro low ⟨⟩
      exact minusInfinitySize_sized ix
    · exact ok.sized.lowkey
  · refine List.Forall₂.cons ?_ ok.onPage.has
    unfold stored
    split
    · exact arrives.has.truncateFirst
    · exact arrives.has
  · change LowKeys ix (stored ix lvl.state item :: lvl.state.items) _
    have lows := ok.onPage.lows
    have low := arrives.low lvl rfl
    cases items : lvl.state.items with
    | nil => exact trivial
    | cons prev rest =>
      rw [stored_of_nonempty ix item (items ▸ cons_ne_nil _ _)]
      rw [items] at lows low
      exact ⟨low prev rfl, lows⟩
  · intro tup
    change (stored ix lvl.state item :: lvl.state.items).getLast? = _ → _
    cases items : lvl.state.items with
    | nil =>
      intro last
      have last : stored ix lvl.state item = .pivot tup := some.inj last
      have has := arrives.has
      unfold stored at last
      by_cases inner : lvl.state.level = 0
      · rw [if_neg fun both => both.1 inner] at last
        rw [last, ← ok.height, inner] at has
        exact has.elim
      · rw [if_pos ⟨inner, items⟩] at last
        cases item with
        | leaf _ => cases last
        | pivot _ => cases last; rfl
    | cons prev rest =>
      rw [getLast?_cons_cons, ← items]
      exact ok.onPage.first tup
  · change Option.map _ (if lvl.state.items = [] then _ else _) = _
    by_cases none : lvl.state.items = []
    · have start := arrives.first (empty (both.mp none))
      rw [if_pos none, both.mp none]
      exact congrArg some start.symm
    · rw [if_neg none, ok.lowkey]
      cases pieces : lvl.pieces with
      | nil => exact absurd (both.mpr pieces) none
      | cons other rest => rw [getLast?_cons_cons]
  · rintro last pre ⟨⟩ nonempty
    exact sum nonempty
  · have links := ok.links
    cases pieces : lvl.pieces with
    | nil =>
      rw [ok.started pieces] at links ⊢
      exact links
    | cons other rest =>
      rw [pieces] at links
      exact links
  · rw [stream]
    intro head mem
    cases old : lvl.stream with
    | nil =>
      rw [old] at mem
      cases mem
      exact arrives.first old
    | cons other rest =>
      refine ok.leftmost head ?_
      rw [old] at mem ⊢
      exact mem

theorem placeItem_outcome (ok : LevelOk ix pages num lvl) (sized : item.Sized ix)
    (room : 4 + maxalign (item.size ix) ≤ pageSpace ix lvl.state.items) (truncextra : Int) :
    Outcome (fun state => ∃ agg, state = placed ix lvl.state item truncextra agg ∧
        (lvl.pieces ≠ [] → agg = total ix (rowsOf lvl.pieces.reverse)))
      (SumError ix (rowsOf lvl.stream)) (placeItem ix lvl.state item truncextra) := by
  rw [placeItem_eq (room_of_stored sized room)]
  exact (accumLast_outcome ok).map fun agg sum => ⟨agg, rfl, sum⟩

/-! ## Finishing a page -/

def Level.finish (lvl : Level ι α) (finished : Finished ι α) : Level ι α where
  state := finished.state
  closed := lvl.closed ++ [⟨lvl.state.blkno, finished.page, lvl.pieces.tail.reverse⟩]
  pieces := lvl.pieces.take 1

theorem LevelOk.two_items (ok : LevelOk ix pages num lvl) (two : 2 ≤ lvl.state.items.length) :
    ∃ last prev pre piece prevPiece group,
      lvl.state.items = last :: prev :: pre ∧ lvl.pieces = piece :: prevPiece :: group := by
  have length := ok.onPage.has.length_eq
  obtain ⟨last, prev, pre, items⟩ : ∃ last prev pre, lvl.state.items = last :: prev :: pre := by
    match lvl.state.items, two with
    | last :: prev :: pre, _ => exact ⟨last, prev, pre, rfl⟩
  obtain ⟨piece, prevPiece, group, pieces⟩ : ∃ piece prevPiece group,
      lvl.pieces = piece :: prevPiece :: group := by
    match lvl.pieces, length ▸ two with
    | piece :: prevPiece :: group, _ => exact ⟨piece, prevPiece, group, rfl⟩
  exact ⟨last, prev, pre, piece, prevPiece, group, items, pieces⟩

def finishedBy (ix : Index ι α) (state : PageState ι α) (lowkey : SizedKey α)
    (between : Separator α) (nblkno : Nat) : Finished ι α where
  page := ⟨state.level, state.prev, some nblkno, some between.high.key, state.items.tail.reverse⟩
  parent := ⟨lowkey.key, lowkey.size, state.blkno, state.agg⟩
  state :=
    { state with
      blkno := nblkno
      prev := some state.blkno
      items := (state.items.take 1).map fun last =>
        if state.level = 0 then last else last.truncateFirst ix
      lowkey := some between.low }

structure FinishOk (ix : Index ι α) (pages : List (Nat × Page ι α)) (num : Nat)
    (lvl : Level ι α) (above : List (Level ι α)) (nblkno : Nat) (finished : Finished ι α) :
    Prop where
  blkno : finished.state.blkno = nblkno
  downlink : finished.parent.downlink = lvl.state.blkno
  single : finished.state.items.length = 1
  moved : ∀ first ∈ finished.state.items.head?, ∃ last ∈ lvl.state.items.head?,
    first = last ∨ first = last.truncateFirst ix
  stream : (lvl.finish finished).stream = lvl.stream
  links : (lvl.finish finished).downlinks = lvl.downlinks
  ok : ∀ more, pages ⊆ more → (lvl.state.blkno, finished.page) ∈ more →
    LevelOk ix more num (lvl.finish finished)
  arrives : ∀ more, pages ⊆ more → (lvl.state.blkno, finished.page) ∈ more →
    Arrives ix more (num + 1) above (.pivot finished.parent) (gather lvl.pieces.tail.reverse)

omit [LinearOrder α] in
theorem gather_reverse_low :
    (first :: rest).getLast?.map Piece.low = some (gather (first :: rest).reverse).low := by
  rw [← head?_reverse]
  cases reversed : (first :: rest).reverse with
  | nil => exact absurd (reverse_eq_nil_iff.mp reversed) (cons_ne_nil _ _)
  | cons head tail => rfl

theorem OnPage.tail {prev} (onPage : OnPage ix pages num (last :: prev :: pre) (piece :: group)) :
    OnPage ix pages num (prev :: pre) group :=
  ⟨(forall₂_cons.mp onPage.has).2, onPage.lows.2, fun tup => by
    have first := onPage.first tup
    rwa [getLast?_cons_cons] at first⟩

theorem OnPage.moved (has : last.Has ix pages num piece.rows) :
    OnPage ix pages num [if num = 0 then last else last.truncateFirst ix] [piece] := by
  refine ⟨List.Forall₂.cons ?_ List.Forall₂.nil, trivial, fun tup same => ?_⟩
  · split
    · exact has
    · exact has.truncateFirst
  · have same : (if num = 0 then last else last.truncateFirst ix) = .pivot tup := some.inj same
    by_cases leaf : num = 0
    · rw [if_pos leaf] at same
      rw [same, leaf] at has
      exact has.elim
    · rw [if_neg leaf] at same
      cases last with
      | leaf _ => cases same
      | pivot _ => cases same; rfl

theorem page_arrives {closed : List (Closed ι α)}
    (stream : streamOf above = closed.map Closed.piece)
    (closedOk : ∀ page ∈ closed, ClosedOk ix pages num page)
    (ok : ClosedOk ix pages num ⟨pivot.downlink, page, group⟩)
    (key : pivot.key = (gather group).low) (size : PivotSize pivot.size)
    (agg : pivot.agg = total ix (rowsOf group))
    (separated : Separated ix (closed.flatMap Closed.pieces ++ group))
    (leftmost : ∀ piece ∈ (closed.flatMap Closed.pieces ++ group).head?,
      piece.low = minusInfinity) :
    Arrives ix pages (num + 1) above (.pivot pivot) (gather group) := by
  refine ⟨⟨?_, page, group.map Piece.rows, ok.mem, ok.height, ?_, ?_⟩, ?_, ?_, ?_, ?_⟩
  · rw [gather_rows]
    exact agg
  · have has := ok.onPage.has
    rw [forall₂_reverse_iff] at has
    rw [forall₂_map_right_iff]
    exact has
  · rw [gather_rows]
    exact flatMap_def ..
  · rintro tup ⟨⟩
    exact size
  · intro next nextMem prev prevMem between separates
    cases prev with
    | leaf _ => cases separates
    | pivot _ =>
      cases separates
      exact key
  · intro empty
    rw [stream, map_eq_nil_iff] at empty
    rw [empty] at leftmost
    cases group with
    | nil => exact absurd rfl ok.nonempty
    | cons head tail => exact leftmost head rfl
  · have groups : streamOf above ++ [gather group] =
        (closed.map Closed.pieces ++ [group]).map gather := by
      rw [stream, map_append, List.map_map]
      rfl
    rw [groups]
    refine Separated.gathered ?_ ?_
    · intro part partMem
      cases mem_append.mp partMem with
      | inl old =>
        obtain ⟨page, pageMem, rfl⟩ := mem_map.mp old
        exact (closedOk page pageMem).nonempty
      | inr new =>
        rw [mem_singleton.mp new]
        exact ok.nonempty
    · rw [flatten_append, flatten_singleton, ← flatMap_def]
      exact separated

section

variable (ok : LevelOk ix pages num lvl) {last prev : Item ι α}
  {pre : List (Item ι α)} {piece prevPiece : Piece ι α} {group : List (Piece ι α)}
  (items : lvl.state.items = last :: prev :: pre)
  (pieces : lvl.pieces = piece :: prevPiece :: group)
include ok items pieces

theorem finishPage_eq (nblkno : Nat) : ∃ lowkey between, lvl.state.lowkey = some lowkey ∧
      separator ix prev last = .ok between ∧ between.Fits ix last ∧
      finishPage ix lvl.state nblkno = .ok (finishedBy ix lvl.state lowkey between nblkno) := by
  have sized : last.Sized ix := ok.sized.items last (items ▸ mem_cons_self ..)
  have has := ok.onPage.has
  have space := ok.sized.space
  have lowkey := ok.lowkey
  rw [items, pieces] at has
  rw [pieces, getLast?_eq_some_getLast (cons_ne_nil _ _)] at lowkey
  obtain ⟨lastHas, others⟩ := forall₂_cons.mp has
  obtain ⟨prevHas, -⟩ := forall₂_cons.mp others
  obtain ⟨between, separates, fits⟩ := prevHas.separator lastHas sized
  obtain ⟨lowkey, low, -⟩ := map_eq_some_iff.mp lowkey
  refine ⟨lowkey, between, low, separates, fits, ?_⟩
  have moved : Item.Sized ix (if lvl.state.level = 0 then last else last.truncateFirst ix) := by
    split
    · exact sized
    · exact sized.truncateFirst
  have bounds := moved.bounds
  have high := fits.high
  unfold finishPage finishedBy
  simp only [items, low, separates, Except.bind]
  rw [items] at space
  rw [if_neg (by rw [pageSpace_nil]; omega), if_neg (by omega)]
  rfl

theorem finished_closed (pageLevel : page.level = num)
    (pageItems : page.items = lvl.state.items.tail.reverse)
    (mem : (lvl.state.blkno, page) ∈ pages) :
    ClosedOk ix pages num ⟨lvl.state.blkno, page, lvl.pieces.tail.reverse⟩ := by
  have onPage := ok.onPage
  rw [items, pieces] at onPage
  refine ⟨pageLevel, ?_, ?_, mem⟩
  · rw [pieces]
    exact fun empty => cons_ne_nil _ _ (reverse_eq_nil_iff.mp empty)
  · rw [pageItems, reverse_reverse, reverse_reverse, items, pieces]
    exact onPage.tail

theorem finished_level (separates : separator ix prev last = .ok between)
    (fits : between.Fits ix last)
    (finishes : finished = finishedBy ix lvl.state lowkey between nblkno)
    (stream : (lvl.finish finished).stream = lvl.stream) (subset : pages ⊆ more)
    (mem : (lvl.state.blkno, finished.page) ∈ more) :
    LevelOk ix more num (lvl.finish finished) := by
  have onPage := ok.onPage.mono subset
  rw [items, pieces] at onPage
  have key : between.low.key = piece.low := onPage.lows.1 between separates
  have sized : last.Sized ix := ok.sized.items last (items ▸ mem_cons_self ..)
  have single : lvl.pieces.take 1 = [piece] := by rw [pieces]; rfl
  have itemsEq : finished.state.items = [if num = 0 then last else last.truncateFirst ix] := by
    rw [finishes, finishedBy, items, ok.height]
    rfl
  have small : ∀ item ∈ finished.state.items, item.Sized ix := by
    rw [itemsEq]
    refine forall_mem_singleton.mpr ?_
    split
    · exact sized
    · exact sized.truncateFirst
  refine
    { height := ?_
      sized := ⟨?_, small, ?_⟩
      onPage := ?_
      lowkey := ?_
      agg := ?_
      links := ?_
      closed := ?_
      separated := stream ▸ ok.separated
      leftmost := stream ▸ ok.leftmost
      started := fun none => absurd (single.symm.trans none) (cons_ne_nil _ _) }
  · rw [finish, finishes]
    exact ok.height
  · have room := room_of_few (by rw [itemsEq]; exact Nat.le_refl 1) small
    change 0 ≤ pageSpace ix finished.state.items
    omega
  · rw [finish, finishes]
    rintro low ⟨⟩
    exact fits.low
  · change OnPage ix more num finished.state.items (lvl.pieces.take 1)
    rw [itemsEq, single]
    exact OnPage.moved (forall₂_cons.mp onPage.has).1
  · change Option.map _ finished.state.lowkey = (lvl.pieces.take 1).getLast?.map Piece.low
    rw [single, finishes]
    exact congrArg some key
  · intro last pre whole nonempty
    rw [finish, single] at whole
    cases whole
    exact absurd rfl nonempty
  · have links := ok.links
    rw [pieces, getLast?_cons_cons, gather_reverse_low] at links
    change Links none _ finished.state.prev (some finished.state.blkno)
      ((lvl.pieces.take 1).getLast?.map Piece.low)
    rw [single, finishes, finish, pieces]
    refine Links.concat links rfl rfl ?_
    exact congrArg some (fits.same.trans key)
  · intro closed closedMem
    cases mem_append.mp closedMem with
    | inl old => exact (ok.closed closed old).mono subset
    | inr new =>
      rw [mem_singleton.mp new]
      refine finished_closed (ok.mono subset) items pieces ?_ ?_ mem
      · rw [finishes]
        exact ok.height
      · rw [finishes]
        rfl

end

theorem finishPage_ok (ok : LevelOk ix pages num lvl)
    (stream : streamOf above = lvl.closed.map Closed.piece)
    (two : 2 ≤ lvl.state.items.length) (nblkno : Nat) :
    ∃ finished, finishPage ix lvl.state nblkno = .ok finished ∧
      FinishOk ix pages num lvl above nblkno finished := by
  obtain ⟨last, prev, pre, piece, prevPiece, group, items, pieces⟩ := ok.two_items two
  obtain ⟨lowkey, between, low, separates, fits, finishes⟩ := finishPage_eq ok items pieces nblkno
  have same : (lvl.finish (finishedBy ix lvl.state lowkey between nblkno)).stream = lvl.stream := by
    unfold Level.stream Level.finish
    rw [pieces]
    simp
  have links : (lvl.finish (finishedBy ix lvl.state lowkey between nblkno)).downlinks =
      lvl.downlinks := by
    unfold downlinks finish finishedBy
    rw [items]
    by_cases leaf : lvl.state.level = 0 <;>
      simp [leaf, Closed.downlinks, truncateFirst_downlinks]
  refine ⟨_, finishes, rfl, rfl, ?_, ?_, same, links, fun more subset mem => ?_,
    fun more subset mem => ?_⟩
  · rw [finishedBy, items]
    rfl
  · rw [finishedBy, items]
    rintro first ⟨⟩
    refine ⟨last, rfl, ?_⟩
    split
    · exact .inl rfl
    · exact .inr rfl
  · exact finished_level ok items pieces separates fits rfl same subset mem
  · have split : lvl.stream =
        (lvl.closed.flatMap Closed.pieces ++ lvl.pieces.tail.reverse) ++ [piece] := by
      rw [Level.stream, pieces, reverse_cons, append_assoc]
      rfl
    refine page_arrives stream (fun page pageMem => (ok.closed page pageMem).mono subset)
      (finished_closed (ok.mono subset) items pieces ok.height rfl mem) ?_
      (ok.sized.lowkey lowkey low) ?_ (split ▸ ok.separated).left ?_
    · have lowkey := ok.lowkey
      rw [low, pieces, getLast?_cons_cons, gather_reverse_low] at lowkey
      rw [pieces]
      exact some.inj lowkey
    · have agg := ok.agg piece _ pieces (cons_ne_nil _ _)
      rw [pieces]
      exact agg
    · intro first firstMem
      refine ok.leftmost first ?_
      rw [split, head?_append, firstMem]
      rfl

/-! ## Adding -/

def closedPages (levels : List (Level ι α)) : List (Nat × Page ι α) :=
  levels.flatMap fun lvl => lvl.closed.map fun closed => (closed.blkno, closed.page)

def blocksOf (levels : List (Level ι α)) : List Nat :=
  levels.flatMap fun lvl => lvl.closed.map Closed.blkno ++ [lvl.state.blkno]

/-- A measure of the number of levels: the highest one grows only if it has two items. -/
def heightOf : List (PageState ι α) → Nat
  | [] => 1
  | [state] => 1 + min state.items.length 2
  | _ :: next :: above => 2 + heightOf (next :: above)

structure Added (ix : Index ι α) (pages : List (Nat × Page ι α)) (num : Nat)
    (pre : List (Level ι α)) (item : Item ι α) (piece : Piece ι α) (writer : Writer ι α)
    (after : List (Level ι α)) (res : Writer ι α) (new : List (Nat × Page ι α)) (count : Nat) :
    Prop where
  written : res.written = writer.written ++ new
  alloced : res.pagesAlloced = writer.pagesAlloced + count
  ok : ∀ more, pages ⊆ more → new ⊆ more → LevelsOk ix more num after
  stream : streamOf after = streamOf pre ++ [piece]
  closed : (closedPages after).Perm (closedPages pre ++ new)
  blocks : (blocksOf after).Perm (blocksOf pre ++ range' writer.pagesAlloced count)
  started : (∀ lvl ∈ pre.tail, lvl.pieces ≠ []) → ∀ lvl ∈ after, lvl.pieces ≠ []
  height : heightOf (after.map state) ≤ heightOf (pre.map state) + 1
  links : linksOf after = linksOf pre ++ item.downlinks

def AddedTo (ix : Index ι α) (pages : List (Nat × Page ι α)) (num : Nat)
    (pre : List (Level ι α)) (item : Item ι α) (piece : Piece ι α) (writer : Writer ι α)
    (states : List (PageState ι α)) (res : Writer ι α) : Prop :=
  ∃ after new count, after.map state = states ∧
    Added ix pages num pre item piece writer after res new count

/-- How adding an item fails: a leaf tuple is too large, or a sum is out of range. -/
def AddError (ix : Index ι α) (num : Nat) (levels : List (Level ι α)) (item : Item ι α)
    (error : BuildError) : Prop :=
  (error = .oversized ∧ num = 0 ∧ ∃ tup, item = .leaf tup ∧ tup.TooLarge ix) ∨
    SumError ix (rowsOf (streamOf levels)) error

theorem checkSize_outcome (arrives : Arrives ix pages num levels item piece) :
    Outcome (fun _ => item.Sized ix) (AddError ix num levels item) (checkSize ix num item) := by
  have has := arrives.has
  have size := arrives.size
  cases num with
  | zero =>
    cases item with
    | pivot tup => exact has.elim
    | leaf tup =>
      cases checkSize_leaf ix tup with
      | inl small =>
        rw [small.1]
        exact small.2
      | inr large =>
        rw [large.1]
        exact .inl ⟨rfl, rfl, tup, rfl, large.2⟩
  | succ num =>
    cases item with
    | leaf tup => exact has.elim
    | pivot tup =>
      rw [checkSize_pivot (Nat.succ_ne_zero num) (size tup rfl)]
      exact size tup rfl

theorem separator_truncateFirst (ix : Index ι α) (prev item : Item ι α) :
    separator ix (prev.truncateFirst ix) item = separator ix prev item := by
  cases prev with
  | leaf _ => rfl
  | pivot _ => cases item <;> rfl

theorem Arrives.finish (arrives : Arrives ix pages num (lvl :: above) item piece)
    (finish : FinishOk ix pages num lvl above nblkno finished) (subset : pages ⊆ more)
    (others : List (Level ι α)) :
    Arrives ix more num (lvl.finish finished :: others) item piece := by
  have stream : streamOf (lvl.finish finished :: others) = streamOf (lvl :: above) := finish.stream
  refine ⟨arrives.has.mono subset, arrives.size, ?_, stream ▸ arrives.first,
    stream ▸ arrives.separated⟩
  rintro next ⟨⟩ prev prevMem between separates
  obtain ⟨last, lastMem, moved⟩ := finish.moved prev prevMem
  refine arrives.low lvl rfl last lastMem between ?_
  cases moved with
  | inl same => rw [← same, separates]
  | inr truncated => rw [← separator_truncateFirst, ← truncated, separates]

/-- The level after its page was finished, the page was added above, and the item was placed on
the new page. -/
def Level.replaced (ix : Index ι α) (lvl : Level ι α) (finished : Finished ι α)
    (item : Item ι α) (piece : Piece ι α) (truncextra agg : Int) : Level ι α :=
  ⟨placed ix finished.state item truncextra agg, (lvl.finish finished).closed,
    piece :: (lvl.finish finished).pieces⟩

theorem Added.finished {after : List (Level ι α)} {finished : Finished ι α}
    {new : List (Nat × Page ι α)} {count : Nat} (covered : Covered lvl above)
    (two : 2 ≤ lvl.state.items.length)
    (done : FinishOk ix pages num lvl above writer.pagesAlloced finished)
    (added : Added ix ((lvl.state.blkno, finished.page) :: pages) (num + 1) above
      (.pivot finished.parent) (gather lvl.pieces.tail.reverse)
      { writer with pagesAlloced := writer.pagesAlloced + 1 } after res new count)
    (arrives : Arrives ix pages num (lvl :: above) item piece)
    (sized : item.Sized ix)
    (room : 4 + maxalign (item.size ix) ≤ pageSpace ix finished.state.items)
    (truncextra : Int) {agg : Int}
    (sum : (lvl.finish finished).pieces ≠ [] →
      agg = total ix (rowsOf (lvl.finish finished).pieces.reverse)) :
    Added ix pages num (lvl :: above) item piece writer
      (lvl.replaced ix finished item piece truncextra agg :: after)
      { res with written := res.written ++ [(lvl.state.blkno, finished.page)] }
      (new ++ [(lvl.state.blkno, finished.page)]) (count + 1) where
  written := by rw [added.written, append_assoc]
  alloced := by rw [added.alloced, Nat.add_assoc, Nat.add_comm 1 count]
  ok := fun more subset newSubset => by
    have written : (lvl.state.blkno, finished.page) ∈ more :=
      newSubset (mem_append_right new (mem_singleton_self _))
    refine ⟨(done.ok more subset written).place (arrives.finish done subset after) sized
      room truncextra sum, ?_, added.ok more (cons_subset.mpr ⟨written, subset⟩)
        fun page mem => newSubset (mem_append_left _ mem)⟩
    constructor
    · rw [added.stream, covered.stream, replaced, finish, map_append]
      rfl
    · rw [added.links, covered.links, replaced, finish, map_append, Item.downlinks, done.downlink]
      rfl
  stream := by
    change Level.stream _ = lvl.stream ++ [piece]
    rw [← done.stream, Level.replaced, Level.stream, Level.stream, reverse_cons, append_assoc]
  closed := by
    have shape : closedPages (lvl.replaced ix finished item piece truncextra agg :: after) =
        (lvl.closed.map (fun closed => (closed.blkno, closed.page)) ++
          [(lvl.state.blkno, finished.page)]) ++ closedPages after := by
      rw [closedPages, flatMap_cons, replaced, finish, map_append]
      rfl
    have old : closedPages (lvl :: above) =
        lvl.closed.map (fun closed => (closed.blkno, closed.page)) ++ closedPages above :=
      flatMap_cons
    rw [shape, old, append_assoc, append_assoc]
    refine List.Perm.append_left _ ?_
    rw [← append_assoc]
    exact perm_append_comm.trans (added.closed.append_right _)
  blocks := by
    have shape : blocksOf (lvl.replaced ix finished item piece truncextra agg :: after) =
        ((lvl.closed.map Closed.blkno ++ [lvl.state.blkno]) ++ [writer.pagesAlloced]) ++
          blocksOf after := by
      rw [blocksOf, flatMap_cons, ← done.blkno, replaced, finish, map_append]
      rfl
    have old : blocksOf (lvl :: above) =
        (lvl.closed.map Closed.blkno ++ [lvl.state.blkno]) ++ blocksOf above :=
      flatMap_cons
    rw [shape, old, append_assoc, append_assoc _ (blocksOf above), range'_succ]
    refine List.Perm.append_left _ ?_
    exact (added.blocks.cons _).trans perm_middle.symm
  started := fun started => forall_mem_cons.mpr
    ⟨cons_ne_nil _ _, added.started fun next mem => started next (mem_of_mem_tail mem)⟩
  height := by
    have height := added.height
    have nonempty : after ≠ [] := by
      rintro rfl
      exact absurd added.stream.symm (append_ne_nil_of_right_ne_nil _ (cons_ne_nil _ _))
    cases after with
    | nil => exact absurd rfl nonempty
    | cons first rest =>
      change 2 + heightOf ((first :: rest).map state) ≤ _
      cases above with
      | nil =>
        change _ ≤ 1 + min lvl.state.items.length 2 + 1
        change _ ≤ 1 + 1 at height
        omega
      | cons next above =>
        change _ ≤ 2 + heightOf ((next :: above).map state) + 1
        omega
  links := by
    change downlinks _ = lvl.downlinks ++ item.downlinks
    rw [← done.links]
    simp [downlinks, replaced, placed, stored_downlinks, finish]

omit [LinearOrder α] in
theorem rowsOf_above (stream : streamOf above = lvl.closed.map Closed.piece) :
    rowsOf (streamOf above) <+: rowsOf lvl.stream := by
  have rows : rowsOf (lvl.closed.map Closed.piece) = rowsOf (lvl.closed.flatMap Closed.pieces) := by
    simp [rowsOf, Closed.piece, flatMap_assoc, flatMap_map]
  rw [stream, rows, Level.stream, rowsOf_append]
  exact prefix_append _ _

/-- One level of `_abt_buildadd` keeps the invariant if adding to the levels above does. -/
theorem addWith_outcome (ok : LevelsOk ix pages num (lvl :: above))
    (arrives : Arrives ix pages num (lvl :: above) item piece)
    (parent : 2 ≤ lvl.state.items.length → ∀ more writer pivot group, LevelsOk ix more (num
      + 1) above → Arrives ix more (num + 1) above (.pivot pivot) group → Outcome (fun added
      => AddedTo ix more (num + 1) above (.pivot pivot) group writer added.1 added.2)
      (AddError ix (num + 1) above (.pivot pivot)) (toParent writer pivot))
    (writer : Writer ι α) (truncextra : Int) :
    Outcome (fun added => AddedTo ix pages num (lvl :: above) item piece writer
        (added.1 :: added.2.1) added.2.2)
      (AddError ix num (lvl :: above) item)
      (addWith ix toParent (above.map state) lvl.state writer item truncextra) := by
  obtain ⟨levelOk, covered, aboveOk⟩ := ok
  have stream := covered.stream
  unfold addWith
  rw [levelOk.height]
  refine Outcome.bind (checkSize_outcome arrives) fun _ sized => ?_
  split
  next finish =>
    have two := two_items_of_mustFinish levelOk.sized sized finish
    obtain ⟨finished, finishes, done⟩ := finishPage_ok levelOk stream two writer.pagesAlloced
    have few : finished.state.items.length ≤ 1 := done.single.le
    have finishedOk := done.ok ((lvl.state.blkno, finished.page) :: pages)
      (subset_cons_self ..) (mem_cons_self ..)
    have room := room_of_few few finishedOk.sized.items
    have bounds := sized.bounds
    have fits : 4 + maxalign (item.size ix) ≤ pageSpace ix finished.state.items := by omega
    rw [finishes]
    change Outcome _ _ (Except.bind (toParent _ finished.parent) _)
    refine Outcome.bind ((parent two _ _ _ _ (aboveOk.mono (subset_cons_self ..))
      (done.arrives _ (subset_cons_self ..) (mem_cons_self ..))).mono (fun _ => id) ?_) ?_
    · intro error bad
      cases bad with
      | inl large => exact absurd large.2.1 (Nat.succ_ne_zero num)
      | inr range => exact .inr ⟨range.1, range.2.mono (rowsOf_above stream).isInfix⟩
    rintro ⟨states, res⟩ ⟨after, new, count, rfl, added⟩
    refine Outcome.map ((placeItem_outcome finishedOk sized fits truncextra).mono
      (fun _ => id) ?_) ?_
    · intro error bad
      rw [done.stream] at bad
      exact .inr bad
    rintro state ⟨agg, rfl, sum⟩
    exact ⟨_, _, _, rfl, Added.finished covered two done added arrives sized fits truncextra sum⟩
  next stays =>
    have room := room_of_not_mustFinish sized stays
    refine Outcome.map ((placeItem_outcome levelOk sized room truncextra).mono
      (fun _ => id) fun _ => .inr) ?_
    rintro state ⟨agg, rfl, sum⟩
    refine ⟨⟨placed ix lvl.state item truncextra agg, lvl.closed, piece :: lvl.pieces⟩ ::
      above, [], 0, rfl, ?_⟩
    exact
      { written := (append_nil _).symm
        alloced := rfl
        ok := fun more subset _ =>
          ⟨(levelOk.mono subset).place (arrives.mono subset) sized room truncextra sum,
            ⟨covered.stream, covered.links⟩, aboveOk.mono subset⟩
        stream := by
          change Level.stream _ = lvl.stream ++ [piece]
          unfold Level.stream
          rw [reverse_cons, append_assoc]
        closed := by rw [append_nil]; exact List.Perm.refl _
        blocks := by rw [range'_zero, append_nil]; exact List.Perm.refl _
        started := fun started => forall_mem_cons.mpr ⟨cons_ne_nil _ _, started⟩
        height := by
          cases above with
          | nil =>
            change 1 + min (lvl.state.items.length + 1) 2 ≤
              1 + min lvl.state.items.length 2 + 1
            omega
          | cons next above => exact Nat.le_succ _
        links := by
          change downlinks _ = lvl.downlinks ++ item.downlinks
          simp [downlinks, placed, stored_downlinks] }

def freshLevel (num blkno : Nat) : Level ι α :=
  ⟨freshState num blkno, [], []⟩

theorem freshLevel_ok (ix : Index ι α) (pages : List (Nat × Page ι α)) (num blkno : Nat) :
    LevelsOk ix pages num [freshLevel num blkno] := by
  refine ⟨?_, ⟨rfl, rfl⟩, trivial⟩
  exact
    { height := rfl
      sized := freshState_sized ix num blkno
      onPage := ⟨List.Forall₂.nil, trivial, nofun⟩
      lowkey := rfl
      agg := nofun
      links := rfl
      closed := nofun
      separated := ⟨List.Pairwise.nil, nofun⟩
      leftmost := nofun
      started := fun _ => rfl }

theorem Arrives.fresh (arrives : Arrives ix pages num [] item piece)
    (blkno : Nat) : Arrives ix pages num [freshLevel num blkno] item piece :=
  ⟨arrives.has, arrives.size, by rintro lvl ⟨⟩; exact nofun, arrives.first, arrives.separated⟩

theorem AddedTo.fresh (added : AddedTo ix pages num [freshLevel num writer.pagesAlloced] item piece
      { writer with pagesAlloced := writer.pagesAlloced + 1 } states res) :
    AddedTo ix pages num [] item piece writer states res := by
  obtain ⟨after, new, count, same, added⟩ := added
  refine ⟨after, new, count + 1, same, ?_⟩
  exact
    { written := added.written
      alloced := by rw [added.alloced, Nat.add_assoc, Nat.add_comm 1 count]
      ok := added.ok
      stream := added.stream
      closed := added.closed
      blocks := by
        exact added.blocks
      started := added.started
      height := added.height
      links := added.links }

theorem addFresh_outcome (arrives : Arrives ix pages num [] item piece)
    (toParent : Writer ι α → PivotTuple α → Except BuildError (List (PageState ι α) × Writer ι α))
    (writer : Writer ι α) (truncextra : Int) :
    Outcome
      (fun added => AddedTo ix pages num [] item piece writer (added.1 :: added.2.1) added.2.2)
      (AddError ix num [] item)
      (addWith ix toParent [] (freshState num writer.pagesAlloced)
        { writer with pagesAlloced := writer.pagesAlloced + 1 } item truncextra) := by
  refine (addWith_outcome (freshLevel_ok ix pages num writer.pagesAlloced)
    (arrives.fresh writer.pagesAlloced) ?_ _ truncextra).mono (fun _ added => added.fresh)
    fun _ bad => bad
  intro two
  exact absurd two (Nat.not_succ_le_zero 1)

/-- `_abt_buildadd` adds the piece to its level and keeps the invariant of all levels.  It fails
only if a leaf tuple is too large or a sum is out of range. -/
theorem buildAdd_outcome (ok : LevelsOk ix pages num (lvl :: above))
    (arrives : Arrives ix pages num (lvl :: above) item piece) (writer : Writer ι α)
    (truncextra : Int) :
    Outcome (fun added => AddedTo ix pages num (lvl :: above) item piece writer
        (added.1 :: added.2.1) added.2.2)
      (AddError ix num (lvl :: above) item)
      (buildAdd ix (above.map state) lvl.state writer item truncextra) := by
  induction above generalizing lvl num pages item piece writer truncextra with
  | nil =>
    refine addWith_outcome ok arrives (fun _ more next pivot group _ parent => ?_) writer truncextra
    rw [ok.1.height]
    exact (addFresh_outcome parent _ next 0).map fun added res => res
  | cons next above ih =>
    refine addWith_outcome ok arrives (fun _ more res pivot group aboveOk parent => ?_) writer
      truncextra
    exact (ih aboveOk parent res 0).map fun added done => done

end PgAqp.BulkLoad
