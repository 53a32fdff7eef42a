import PgAqp.Wal.Insert

/-!
# Vacuum of a leaf page, and its replay

`_abt_delitems_vacuum` first makes every shortened posting list, then stores them,
and then deletes the dead items.  `abtree_xlog_vacuum` makes and stores one list
after the other, from the places of the dead rows in the record.
-/

namespace PgAqp.Wal

open Library Abtree List Option Bytes

/-- `ABTVacuumPostingData`, whose tuple is the one at the offset. -/
structure VacuumPosting where
  updatedoffset : UInt16
  deletetids : List UInt16
  /-- `ndeletedtids` has 16 bits. -/
  few : deletetids.length < 65536

namespace VacuumPosting

/-- `xl_abtree_update` with the places that follow it. -/
def toBytes (posting : VacuumPosting) : Bytes :=
  ofNat 2 posting.deletetids.length ++
    ofArray 2 (posting.deletetids.map UInt16.toNat)

end VacuumPosting

/-- What vacuum does to a page: whole items to delete and lists to shorten, no list twice. -/
structure VacuumRequest where
  deletable : List UInt16
  updatable : List VacuumPosting
  distinct : (updatable.map VacuumPosting.updatedoffset).Nodup

/-- `xl_abtree_vacuum` with the data of its block. -/
structure VacuumRecord where
  ndeleted : Nat
  nupdated : Nat
  /-- What follows the fixed part. -/
  aggInfo : Bytes
  block : Bytes
  deriving DecidableEq, Repr

def updatePostings (info : AggInfo) (page : Page) :
    List VacuumPosting → Option (List IndexTuple)
  | [] => some []
  | posting :: updatable =>
    (page.item posting.updatedoffset.toNat).bind fun orig =>
      (updatePosting info orig (posting.deletetids.map UInt16.toNat)).bind fun tup =>
        (updatePostings info page updatable).map (tup :: ·)

def overwritePostings (page : Page) : List VacuumPosting → List IndexTuple → Option Page
  | posting :: updatable, tup :: tuples =>
    (page.overwrite posting.updatedoffset.toNat tup).bind fun page =>
      overwritePostings page updatable tuples
  | _, _ => some page

variable (info : AggInfo) (page : Page) (request : VacuumRequest)

/-- `PageIndexMultiDelete`, if there is something to delete. -/
def deleteItems (deletable : List Nat) : Option Page :=
  if deletable = [] then some page else page.multiDelete deletable

/-- Clear `ABTP_HAS_GARBAGE`. -/
def clearGarbage : Page :=
  { page with special := { page.special with
      flags := { page.special.flags with hasGarbage := false } } }

def clearCycleid : Page :=
  { page with special := { page.special with cycleid := 0 } }

/-- The record that `_abt_delitems_vacuum` writes. -/
def vacuumRecord : VacuumRecord where
  ndeleted := request.deletable.length
  nupdated := request.updatable.length
  aggInfo := if info.leafHasAgg ∧ request.updatable ≠ [] then loggedAggInfo info else []
  block := ofArray 2 (request.deletable.map UInt16.toNat) ++
    (ofArray 2 (request.updatable.map fun posting => posting.updatedoffset.toNat) ++
      request.updatable.flatMap VacuumPosting.toBytes)

/-- `_abt_delitems_vacuum`: the page and the record. -/
def delitemsVacuum :
    Option (Page × VacuumRecord) := do
  let tuples ← updatePostings info page request.updatable
  let updated ← overwritePostings page request.updatable tuples
  let deleted ← deleteItems updated (request.deletable.map UInt16.toNat)
  return (clearGarbage (clearCycleid deleted), vacuumRecord info request)

/-- The description of the aggregate in `abtree_xlog_vacuum`, or the null pointer. -/
def vacuumAggInfo (raw : Uninitialised) (record : VacuumRecord) : Option AggInfo :=
  if record.aggInfo.length = sizeOfMinimalAggInfo then
    some (recoveredAggInfo raw true record.aggInfo)
  else none

/-- The loop of `abtree_xlog_vacuum` over the updated tuples.  Every update reads the description
of the aggregate. -/
def xlogUpdates (info : Option AggInfo) : List Nat → Bytes → Page → Option Page
  | [], _, page => some page
  | updatedoffset :: updatedoffsets, updates, page => do
    let ndeletedtids := toNat (updates.take 2)
    let deletetids := takeArray 2 ndeletedtids (updates.drop 2)
    let origtuple ← page.item updatedoffset
    let info' ← info
    let tup ← updatePosting info' origtuple deletetids.1
    let page ← page.overwrite updatedoffset tup
    xlogUpdates info updatedoffsets deletetids.2 page

/-- `abtree_xlog_vacuum`. -/
def xlogVacuum (raw : Uninitialised) (record : VacuumRecord) (page : Page) :
    Option Page := do
  let deleted := takeArray 2 record.ndeleted record.block
  let updatedoffsets := takeArray 2 record.nupdated deleted.2
  let updated ← xlogUpdates (vacuumAggInfo raw record) updatedoffsets.1 updatedoffsets.2
    page
  let res ← deleteItems updated deleted.1
  return clearGarbage res

theorem item_setItem_ne {page : Page} (diff : off ≠ other) (valid : off ≠ 0) (tup : IndexTuple) :
    (page.setItem off tup).item other = page.item other := by
  unfold Page.item Page.setItem
  by_cases zero : other = 0
  · rw [if_pos zero, if_pos zero]
  · rw [if_neg zero, if_neg zero]
    exact getElem?_set_ne (by omega)

theorem item_of_overwrite {page res : Page}
    (stored : page.overwrite off tup = some res) (diff : off ≠ other) :
    res.item other = page.item other := by
  obtain ⟨old, found, rest⟩ := bind_eq_some_iff.mp stored
  have valid : off ≠ 0 := by
    rintro rfl
    cases found
  split at rest
  · cases rest
    exact item_setItem_ne diff valid tup
  · cases rest

theorem toNat_lt_width (values : List UInt16) :
    ∀ value ∈ values.map UInt16.toNat, value < 256 ^ 2 := by
  intro value mem
  obtain ⟨word, -, rfl⟩ := mem_map.mp mem
  exact word.toNat_lt

theorem takeArray_updates (posting : VacuumPosting) (rest : Bytes) :
    toNat ((posting.toBytes ++ rest).take 2) = posting.deletetids.length ∧
      takeArray 2 posting.deletetids.length ((posting.toBytes ++ rest).drop 2) =
        (posting.deletetids.map UInt16.toNat, rest) := by
  have width := length_ofNat 2 posting.deletetids.length
  have count : (posting.deletetids.map UInt16.toNat).length = posting.deletetids.length :=
    length_map _
  rw [VacuumPosting.toBytes, append_assoc, take_left' width, drop_left' width,
    toNat_ofNat_of_lt posting.few]
  refine ⟨rfl, ?_⟩
  have array := takeArray_ofArray (toNat_lt_width posting.deletetids) rest
  rw [count] at array
  exact array

/-- Making all lists first and then storing them is the same as making and storing one after the
other, as no list is updated twice. -/
theorem xlogUpdates_eq {info : AggInfo}
    (diff : (updatable.map VacuumPosting.updatedoffset).Nodup) (rest : Bytes) :
    ∀ {page : Page} {tuples : List IndexTuple}, (∀ posting ∈ updatable,
        page.item posting.updatedoffset.toNat = pre.item posting.updatedoffset.toNat) →
      updatePostings info pre updatable = some tuples →
      xlogUpdates (some info) (updatable.map fun posting => posting.updatedoffset.toNat)
        (updatable.flatMap VacuumPosting.toBytes ++ rest) page =
          overwritePostings page updatable tuples := by
  induction updatable with
  | nil =>
    intro page tuples _ made
    cases made
    rfl
  | cons posting updatable ih =>
    intro page tuples same made
    obtain ⟨orig, found, madeHere⟩ := bind_eq_some_iff.mp made
    obtain ⟨tup, updated, madeRest⟩ := bind_eq_some_iff.mp madeHere
    obtain ⟨later, madeLater, rfl⟩ := map_eq_some_iff.mp madeRest
    obtain ⟨fresh, diff⟩ := nodup_cons.mp diff
    have here : page.item posting.updatedoffset.toNat = some orig :=
      (same posting mem_cons_self).trans found
    have array := takeArray_updates posting (updatable.flatMap VacuumPosting.toBytes ++ rest)
    rw [map_cons, flatMap_cons, append_assoc, xlogUpdates, overwritePostings, array.1, array.2]
    simp only [here, updated, bind_eq_bind, bind_some]
    cases stored : page.overwrite posting.updatedoffset.toNat tup with
    | none => rfl
    | some next =>
      apply ih diff _ madeLater
      intro other mem
      have apart : posting.updatedoffset.toNat ≠ other.updatedoffset.toNat := by
        intro equal
        apply fresh
        rw [UInt16.toNat_inj.mp equal]
        exact mem_map_of_mem mem
      rw [item_of_overwrite stored apart]
      exact same other (mem_cons_of_mem posting mem)

/-- The loop does not look at the description of the aggregate if there is nothing to update. -/
theorem xlogUpdates_recovered {info : AggInfo} {page : Page} {request : VacuumRequest}
    (known : request.updatable = [] ∨ info.leafHasAgg ∧ raw.minAggInfo.aggStride = info.aggStride)
    (made : updatePostings info page request.updatable = some tuples) :
    xlogUpdates (vacuumAggInfo raw (vacuumRecord info request))
      (request.updatable.map fun posting => posting.updatedoffset.toNat)
      (request.updatable.flatMap VacuumPosting.toBytes) page =
        overwritePostings page request.updatable tuples := by
  by_cases nothing : request.updatable = []
  · rw [nothing] at made ⊢
    cases made
    rfl
  · obtain ⟨leafHasAgg, stride⟩ := known.resolve_left nothing
    have logged : (vacuumRecord info request).aggInfo = loggedAggInfo info :=
      if_pos ⟨leafHasAgg, nothing⟩
    have length : (loggedAggInfo info).length = sizeOfMinimalAggInfo := rfl
    have recovered : vacuumAggInfo raw (vacuumRecord info request) = some info := by
      rw [vacuumAggInfo, logged, if_pos length, recoveredAggInfo_eq leafHasAgg stride]
    have replayed := xlogUpdates_eq request.distinct [] (fun _ _ => rfl) made
    rw [append_nil] at replayed
    rw [recovered, replayed]

theorem takeArray_vacuumRecord :
    takeArray 2 (vacuumRecord info request).ndeleted (vacuumRecord info request).block =
        (request.deletable.map UInt16.toNat,
          ofArray 2 (request.updatable.map fun posting => posting.updatedoffset.toNat) ++
            request.updatable.flatMap VacuumPosting.toBytes) ∧
      takeArray 2 (vacuumRecord info request).nupdated
          (ofArray 2 (request.updatable.map fun posting => posting.updatedoffset.toNat) ++
            request.updatable.flatMap VacuumPosting.toBytes) =
        (request.updatable.map fun posting => posting.updatedoffset.toNat,
          request.updatable.flatMap VacuumPosting.toBytes) := by
  have deletable : (request.deletable.map UInt16.toNat).length = request.deletable.length :=
    length_map _
  have updatable : (request.updatable.map fun posting => posting.updatedoffset.toNat).length =
      request.updatable.length := length_map _
  have small : ∀ value ∈ request.updatable.map fun posting => posting.updatedoffset.toNat,
      value < 256 ^ 2 := by
    intro value mem
    obtain ⟨posting, -, rfl⟩ := mem_map.mp mem
    exact posting.updatedoffset.toNat_lt
  constructor
  · rw [vacuumRecord, ← deletable]
    exact takeArray_ofArray (toNat_lt_width request.deletable) _
  · rw [vacuumRecord, ← updatable]
    exact takeArray_ofArray small _

theorem mask_clearCycleid : (clearGarbage (clearCycleid page)).mask = (clearGarbage page).mask := by
  rfl

/-- If no list was shortened, or the leaf level has aggregates and the stride was known, the
record rebuilds the page; only the vacuum cycle id is not cleared. -/
theorem vacuum_replays {raw : Uninitialised} {info : AggInfo} {page : Page}
    {request : VacuumRequest} {res : Page × VacuumRecord}
    (done : delitemsVacuum info page request = some res)
    (known : request.updatable = [] ∨
      info.leafHasAgg = true ∧ raw.minAggInfo.aggStride = info.aggStride) :
    ∃ replayed, xlogVacuum raw res.2 page = some replayed ∧
      replayed.items = res.1.items ∧ replayed.mask = res.1.mask := by
  simp only [delitemsVacuum, Option.pure_def, bind_eq_bind, bind_eq_some_iff,
    Option.some.injEq] at done
  obtain ⟨tuples, made, updated, stored, deleted, delete, rfl⟩ := done
  obtain ⟨arrays, offsets⟩ := takeArray_vacuumRecord info request
  have updates := (xlogUpdates_recovered known made).trans stored
  refine ⟨clearGarbage deleted, ?_, rfl, (mask_clearCycleid deleted).symm⟩
  simp only [xlogVacuum, arrays, offsets, updates, delete, Option.pure_def, bind_eq_bind,
    bind_some]

/-! ## Two vacuums that replay does not repeat -/

def secondRowDead : VacuumRequest where
  deletable := []
  updatable := [⟨1, [1], by decide⟩]
  distinct := by decide

/-- Three rows with one key, where the leaf level has no aggregates. -/
def plainRowList : IndexTuple where
  tTid := ⟨16, 0x2003⟩
  altTid := true
  hasVarwidths := false
  hasNulls := false
  data := ofNat 8 7 ++ (⟨10, 1⟩ : ItemPointer).toBytes ++ (⟨20, 1⟩ : ItemPointer).toBytes ++
    (⟨30, 1⟩ : ItemPointer).toBytes ++ ofNat 6 0 ++ ofNat 4 0 ++
    ofArray 4 [3, 4, 5]

/-- Replay crashes if the leaf level has no aggregates, and loses the aggregates otherwise. -/
theorem vacuums_not_replayed :
    ((delitemsVacuum (bigintAgg false) { leafPage with items := [plainRowList] } secondRowDead).map
      fun res => xlogVacuum zeroed res.2 { leafPage with items := [plainRowList] }) = some none ∧
    ((delitemsVacuum (bigintAgg true) leafPage secondRowDead).bind fun res =>
      (xlogVacuum zeroed res.2 leafPage).map fun replayed =>
        (postingAggs res.1 1, (replayed.item 1).map IndexTuple.size)) =
        some (some [100, 300], some 40) := by
  decide +kernel

/-- Replay where the local variable held the stride. -/
theorem second_row_vacuum_replays :
    ∃ res, delitemsVacuum (bigintAgg true) leafPage secondRowDead = some res ∧
      ∃ replayed, xlogVacuum ⟨⟨false, 0, 0⟩, ⟨0, 8⟩⟩ res.2 leafPage = some replayed ∧
        replayed.items = res.1.items ∧ replayed.mask = res.1.mask := by
  have some : (delitemsVacuum (bigintAgg true) leafPage secondRowDead).isSome = true := by
    decide +kernel
  obtain ⟨res, done⟩ := isSome_iff_exists.mp some
  exact ⟨res, done, vacuum_replays done (.inr ⟨rfl, rfl⟩)⟩

end PgAqp.Wal
