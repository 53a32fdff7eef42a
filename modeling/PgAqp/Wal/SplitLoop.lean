import PgAqp.Wal.Split

/-!
# The loops of a page split

On the left of the split point, the loop of `abtree_xlog_split` adds the same items
as the loop of `_abt_split`, as long as it knows the same new item, posting list
and aggregate.
-/

namespace PgAqp.Wal

open Library Abtree List Option IndexTuple SplitArgs Page

namespace SplitArgs

structure PointValid (args : SplitArgs) : Prop where
  /-- A new item on the left comes before the first tuple of the right page, an old one. -/
  onLeft : args.newitemonleft = true →
    args.newitemoff ≤ args.firstrightoff ∧ args.firstrightoff ≤ args.page.maxOffset
  onRight : args.newitemonleft = false → args.firstrightoff ≤ args.newitemoff
  inside : args.firstrightoff ≤ args.page.maxOffset + 1

variable {args : SplitArgs} {halves res : Halves} {item : IndexTuple} {record : SplitRecord}
    {locals : SplitLocals} {off : Nat}

theorem addRight_left (added : args.addRight halves item = some res) : res.left = halves.left := by
  obtain ⟨item, -, appended⟩ := bind_eq_some_iff.mp added
  obtain ⟨right, -, rfl⟩ := map_eq_some_iff.mp appended
  rfl

/-- From the split point on, once the new item is placed, the left page stays as it is. -/
theorem distribute_left (items : List IndexTuple) :
    ∀ {off : Nat} {halves res : Halves}, args.firstrightoff ≤ off →
      (args.newitemonleft → args.newitemoff < off) →
      args.distribute off items halves = some res → res.left = halves.left := by
  induction items with
  | nil =>
    intro off halves res _ _ done
    unfold distribute at done
    split at done
    · exact addRight_left done
    · cases done
      rfl
  | cons item items ih =>
    intro off halves res behind placed done
    obtain ⟨first, new, done⟩ := bind_eq_some_iff.mp done
    obtain ⟨second, old, done⟩ := bind_eq_some_iff.mp done
    have firstLeft : first.left = halves.left := by
      unfold placeNew at new
      split at new
      · split at new
        next onLeft =>
          have pre := placed onLeft
          omega
        · exact addRight_left new
      · cases new
        rfl
    have secondLeft : second.left = first.left := by
      obtain ⟨changed, -, old⟩ := bind_eq_some_iff.mp old
      rw [if_neg (by omega)] at old
      exact addRight_left old
    have later : args.newitemonleft → args.newitemoff < off + 1 :=
      fun onLeft => Nat.lt_succ_of_lt (placed onLeft)
    rw [ih (by omega) later done, secondLeft, firstLeft]

/-- What replay has to know to place the items of the left page as the primary did. -/
structure Agrees (args : SplitArgs) (record : SplitRecord) (locals : SplitLocals) : Prop where
  firstrightoff : record.firstrightoff = args.firstrightoff
  newitemoff : record.newitemoff = args.newitemoff
  newitemonleft : record.newitemonleft = args.newitemonleft
  newitem : args.newitemonleft = true → locals.newitem = some args.newitem
  posting : ∀ off, 1 ≤ off → off < args.firstrightoff →
    (off = locals.replacepostingoff ↔ off = args.origpagepostingoff)
  nposting : ∀ off item, 1 ≤ off → off < args.firstrightoff →
    off = args.origpagepostingoff →
      locals.nposting = some (args.dataItem off item) ∧
        args.withNewagg off (args.dataItem off item) = some (args.dataItem off item)
  previtem : ∀ off item, 1 ≤ off → off < args.firstrightoff →
    args.page.item off = some item →
      (if off = locals.previtemOff then item.write (item.aggPtr locals.info) locals.newvalue
        else some item) = args.withNewagg off item

theorem addLeft_eq (added : addLeft halves item = some res) :
    appendItem halves.left item = some res.left ∧ res.right = halves.right := by
  obtain ⟨left, appended, rfl⟩ := map_eq_some_iff.mp added
  exact ⟨appended, rfl⟩

theorem Agrees.placeNew (agrees : args.Agrees record locals)
    (onLeft : off = args.newitemoff → args.newitemonleft)
    (other : off ≠ args.origpagepostingoff) (new : args.placeNew off halves = some res) :
    xlogPlaceNew record locals off halves.left = some res.left := by
  unfold SplitArgs.placeNew at new
  unfold xlogPlaceNew
  rw [agrees.newitemonleft, agrees.newitemoff]
  by_cases here : off = args.newitemoff
  · rw [if_pos ⟨other, here⟩, if_pos (onLeft here)] at new
    rw [if_pos ⟨onLeft here, here⟩, agrees.newitem (onLeft here), bind_some]
    exact (addLeft_eq new).1
  · rw [if_neg fun both => here both.2] at new
    cases new
    rw [if_neg fun both => here both.2]

theorem origpagepostingoff_ne (positive : 1 ≤ off)
    (here : off = args.newitemoff) : off ≠ args.origpagepostingoff := by
  unfold origpagepostingoff
  split
  · omega
  · omega

/-- Where replay leaves its loop, at the split point, it may still have to add the new item. -/
theorem Agrees.finish (agrees : args.Agrees record locals) (valid : args.PointValid)
    {items : List IndexTuple} (positive : 1 ≤ off)
    (rest : off + items.length = args.page.maxOffset + 1) (behind : args.firstrightoff ≤ off)
    (done : args.distribute off items halves = some res) :
    xlogPlaceNew record locals off halves.left = some res.left := by
  by_cases here : args.newitemonleft ∧ off = args.newitemoff
  · have bounds := valid.onLeft here.1
    cases items with
    | nil =>
      rw [length_nil] at rest
      omega
    | cons item items =>
      obtain ⟨first, new, done⟩ := bind_eq_some_iff.mp done
      obtain ⟨second, old, done⟩ := bind_eq_some_iff.mp done
      obtain ⟨changed, -, old⟩ := bind_eq_some_iff.mp old
      rw [if_neg (by omega)] at old
      rw [distribute_left items (by omega) (fun _ => by omega) done, addRight_left old]
      exact agrees.placeNew (fun _ => here.1) (origpagepostingoff_ne positive here.2) new
  · have placed : args.newitemonleft → args.newitemoff < off := by
      intro onLeft
      have bounds := valid.onLeft onLeft
      have other : off ≠ args.newitemoff := fun same => here ⟨onLeft, same⟩
      omega
    have skip : ¬ (record.newitemonleft ∧ off = record.newitemoff) := by
      rw [agrees.newitemonleft, agrees.newitemoff]
      exact here
    rw [xlogPlaceNew, if_neg skip, distribute_left items behind placed done]

theorem head_of_drop {items : List IndexTuple} (positive : 1 ≤ off)
    (shape : item :: items = args.page.items.drop (off - 1)) :
    args.page.item off = some item ∧ items = args.page.items.drop (off + 1 - 1) := by
  have next : off + 1 - 1 = off - 1 + 1 := by omega
  rw [Page.item, if_neg (by omega), next, ← tail_drop, ← shape, tail_cons, ← head?_drop, ← shape]
  exact ⟨rfl, rfl⟩

/-- Replay fills the left page as the primary does. -/
theorem Agrees.distribute
    (agrees : args.Agrees record locals) (valid : args.PointValid) (items : List IndexTuple) :
    ∀ {off : Nat} {halves res : Halves}, 1 ≤ off →
      off ≤ args.page.maxOffset + 1 → items = args.page.items.drop (off - 1) →
      args.distribute off items halves = some res →
      xlogDistribute record locals off items halves.left = some res.left := by
  induction items with
  | nil =>
    intro off halves res positive bound shape done
    have length := congrArg length shape
    rw [length_nil, length_drop] at length
    have inside := valid.inside
    have rest : off + ([] : List IndexTuple).length = args.page.maxOffset + 1 := by
      rw [maxOffset, length_nil] at *
      omega
    rw [xlogDistribute, agrees.firstrightoff, if_neg (by rw [length_nil] at rest; omega)]
    exact agrees.finish valid positive rest (by rw [length_nil] at rest; omega) done
  | cons item items ih =>
    intro off halves res positive bound shape done
    have length := congrArg length shape
    rw [length_cons, length_drop] at length
    have rest : off + (item :: items).length = args.page.maxOffset + 1 := by
      rw [maxOffset, length_cons] at *
      omega
    rw [xlogDistribute, agrees.firstrightoff]
    by_cases pre : off < args.firstrightoff
    · obtain ⟨head, tail⟩ := head_of_drop positive shape
      obtain ⟨first, new, done⟩ := bind_eq_some_iff.mp done
      obtain ⟨second, old, done⟩ := bind_eq_some_iff.mp done
      obtain ⟨changed, change, old⟩ := bind_eq_some_iff.mp old
      rw [if_pos pre] at old ⊢
      have appended := (addLeft_eq old).1
      have later := ih (Nat.le_add_left 1 off) (by rw [length_cons] at rest; omega) tail done
      by_cases posting : off = locals.replacepostingoff
      · have orig := (agrees.posting off positive pre).mp posting
        obtain ⟨nposting, keep⟩ := agrees.nposting off item positive pre orig
        rw [keep] at change
        cases change
        rw [SplitArgs.placeNew, if_neg fun both => both.1 orig] at new
        cases new
        rw [if_pos posting, nposting, bind_some, appended, bind_some]
        exact later
      · have other : off ≠ args.origpagepostingoff :=
          fun orig => posting ((agrees.posting off positive pre).mpr orig)
        have onLeft : off = args.newitemoff → args.newitemonleft := by
          intro here
          cases side : args.newitemonleft with
          | true => rfl
          | false =>
            have right := valid.onRight side
            omega
        rw [dataItem, if_neg other] at change
        rw [if_neg posting, agrees.placeNew onLeft other new, bind_some,
          agrees.previtem off item positive pre head, change, bind_some, appended,
          bind_some]
        exact later
    · rw [if_neg pre]
      exact agrees.finish valid positive rest (Nat.le_of_not_lt pre) done

/-- What `_abt_insertonpg` passes to `_abt_split`. -/
structure CallValid (args : SplitArgs) : Prop where
  page : args.page.Live
  /-- The posting list, if there is one to split, was split before. -/
  prepared : ∃ off, preparePosting args.info args.page args.orignewitem off args.postingoff =
    some ⟨args.nposting, args.newitem, args.newitemoff⟩
  orignewitem : args.orignewitem.Sized
  truncate : ∀ lastleft firstright, (args.truncate lastleft firstright).Sized
  /-- Posting lists are on leaf pages only. -/
  posting : args.postingoff ≠ 0 → args.page.isLeaf = true
  /-- An aggregate has at most eight bytes. -/
  typlen : 0 ≤ args.info.aggTyplen.toInt ∧ args.info.aggTyplen.toInt ≤ 8
  newagg : (args.newagg.length : Int) = args.info.aggTyplen.toInt

theorem CallValid.plain (call : args.CallValid) (plain : args.postingoff = 0) :
    args.newitem = args.orignewitem ∧ args.nposting = none := by
  obtain ⟨off, prepare⟩ := call.prepared
  rw [preparePosting, if_pos plain] at prepare
  injection some.inj prepare with nposting newitem
  exact ⟨newitem.symm, nposting.symm⟩

theorem CallValid.swapped (call : args.CallValid) (posting : args.postingoff ≠ 0) :
    ∃ oposting nposting, args.page.item (args.newitemoff - 1) = some oposting ∧
      args.nposting = some nposting ∧
      swapPosting args.info args.orignewitem oposting args.postingoff =
        some (nposting, args.newitem) := by
  obtain ⟨off, prepare⟩ := call.prepared
  rw [preparePosting, if_neg posting] at prepare
  obtain ⟨oposting, found, res⟩ := bind_eq_some_iff.mp prepare
  obtain ⟨swapped, swap, same⟩ := map_eq_some_iff.mp res
  injection same with nposting newitem newitemoff
  refine ⟨oposting, swapped.1, ?_, nposting.symm, ?_⟩
  · rw [← newitemoff]
    exact found
  · rw [swap, ← newitem]

theorem CallValid.newitem_sized (call : args.CallValid) : args.newitem.Sized := by
  by_cases plain : args.postingoff = 0
  · rw [(call.plain plain).1]
    exact call.orignewitem
  · obtain ⟨oposting, nposting, -, -, swap⟩ := call.swapped plain
    exact sized_of_length (swapPosting_length swap).2 call.orignewitem

theorem CallValid.dataItem_sized (call : args.CallValid) (sized : item.Sized) :
    (args.dataItem off item).Sized := by
  unfold dataItem
  split
  · by_cases plain : args.postingoff = 0
    · rw [(call.plain plain).2]
      exact sized
    · obtain ⟨oposting, nposting, found, stored, swap⟩ := call.swapped plain
      rw [stored]
      exact sized_of_length (swapPosting_length swap).1 (call.page.sized oposting (item_mem found))
  · exact sized

theorem withNewagg_sized {res : IndexTuple}
    (sized : item.Sized) (changed : args.withNewagg off item = some res) :
    res.Sized := by
  unfold withNewagg at changed
  split at changed
  · exact sized_of_length (write_sameLayout changed).length sized
  · cases changed
    exact sized

theorem CallValid.truncateFirst_sized (call : args.CallValid)
    {item res : IndexTuple} (truncated : item.truncateFirst args.info = some res) :
    res.Sized := by
  obtain ⟨value, -, written⟩ := bind_eq_some_iff.mp truncated
  have length := (write_sameLayout written).length
  have bounds := call.typlen
  have size : res.data.length = args.info.extraSpaceWhenTidMissing.toNat := by
    rw [length]
    exact length_replicate
  have extra : args.info.extraSpaceWhenTidMissing.toNat ≤ 16 ∧
      8 ∣ args.info.extraSpaceWhenTidMissing.toNat := by
    unfold AggInfo.extraSpaceWhenTidMissing maxalign intalign typealign
    omega
  rw [← size] at extra
  exact ⟨extra.2, by rw [IndexTuple.size]; omega⟩

/-- The right page is made by adding items of an aligned size one behind the other. -/
def RightOk (halves : Halves) : Prop :=
  Page.Built halves.right ∧ ∀ item ∈ halves.right, item.Sized

theorem RightOk.append (ok : RightOk halves) (sized : item.Sized)
    (appended : appendItem halves.right item = some right) :
    RightOk { halves with right := right } := by
  refine ⟨ok.1.append appended, ?_⟩
  intro other mem
  rw [appendItem_eq appended] at mem
  cases mem_append.mp mem with
  | inl old => exact ok.2 other old
  | inr new =>
    rw [mem_singleton.mp new]
    exact sized

theorem RightOk.addRight (call : args.CallValid) (ok : RightOk halves) (sized : item.Sized)
    (added : args.addRight halves item = some res) : RightOk res := by
  obtain ⟨stored, truncated, rest⟩ := bind_eq_some_iff.mp added
  obtain ⟨right, appended, rfl⟩ := map_eq_some_iff.mp rest
  split at truncated
  · exact ok.append (call.truncateFirst_sized truncated) appended
  · cases truncated
    exact ok.append sized appended

theorem RightOk.addLeft (ok : RightOk halves)
    (added : addLeft halves item = some res) : RightOk res := by
  have same := (addLeft_eq added).2
  unfold RightOk at ok ⊢
  rw [same]
  exact ok

theorem RightOk.distribute (call : args.CallValid) (items : List IndexTuple) :
    ∀ {off : Nat} {halves res : Halves}, (∀ item ∈ items, item.Sized) → RightOk halves →
      args.distribute off items halves = some res → RightOk res := by
  induction items with
  | nil =>
    intro off halves res _ ok done
    unfold SplitArgs.distribute at done
    split at done
    · exact ok.addRight call call.newitem_sized done
    · cases done
      exact ok
  | cons item items ih =>
    intro off halves res sized ok done
    obtain ⟨first, new, done⟩ := bind_eq_some_iff.mp done
    obtain ⟨second, old, done⟩ := bind_eq_some_iff.mp done
    have firstOk : RightOk first := by
      unfold placeNew at new
      split at new
      · split at new
        · exact ok.addLeft new
        · exact ok.addRight call call.newitem_sized new
      · cases new
        exact ok
    have secondOk : RightOk second := by
      obtain ⟨changed, change, old⟩ := bind_eq_some_iff.mp old
      have changedSized := withNewagg_sized (call.dataItem_sized (sized item mem_cons_self)) change
      split at old
      · exact firstOk.addLeft old
      · exact firstOk.addRight call changedSized old
    exact ih (fun other mem => sized other (mem_cons_of_mem item mem)) secondOk done

end SplitArgs

end PgAqp.Wal
