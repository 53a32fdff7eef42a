import PgAqp.Abtree.IndexTuple

/-!
# Pages

A page is its items, in item-number order, and its special area.  Line pointer flags,
checksums and log positions are left out.
-/

namespace PgAqp.Abtree

open Library List Option IndexTuple

/-- The bits of `abtpo_flags`. -/
structure PageFlags where
  leaf : Bool
  root : Bool
  deleted : Bool
  metapage : Bool
  halfDead : Bool
  splitEnd : Bool
  hasGarbage : Bool
  incompleteSplit : Bool
  hadGarbageRemoved : Bool
  deriving DecidableEq, Repr

def PageFlags.clear : PageFlags :=
  ⟨false, false, false, false, false, false, false, false, false⟩

/-- `ABTPageOpaqueData`. -/
structure PageSpecial where
  /-- Zero for none. -/
  prev : Nat
  /-- Zero for none. -/
  next : Nat
  level : Nat
  flags : PageFlags
  cycleid : Nat
  lastUpdateId : UInt16
  deriving DecidableEq, Repr

/-- `ABTAdvanceLastUpdateId`: the sum is an `int`, and is then stored in 16 bits. -/
def advanceLastUpdateId (lastUpdateId : UInt16) : UInt16 :=
  UInt16.ofNat (if lastUpdateId.toNat + 1 = 0 then 1 else lastUpdateId.toNat + 1)

theorem advanceLastUpdateId_ne (lastUpdateId : UInt16) :
    advanceLastUpdateId lastUpdateId ≠ lastUpdateId := by
  intro same
  have value := congrArg UInt16.toNat same
  rw [advanceLastUpdateId, if_neg (Nat.succ_ne_zero _), UInt16.toNat_ofNat'] at value
  omega

structure Page where
  items : List IndexTuple
  special : PageSpecial
  deriving DecidableEq, Repr

def storage : List IndexTuple → Int
  | [] => 0
  | item :: items => maxalign item.size + storage items

theorem storage_nonneg (items : List IndexTuple) : 0 ≤ storage items := by
  induction items with
  | nil => exact Int.le_refl 0
  | cons item items ih =>
    have positive : 0 ≤ maxalign item.size := by
      unfold maxalign typealign
      omega
    exact Int.add_nonneg positive ih

namespace Page

/-- `_abt_pageinit`: all zero. -/
def init : Page := ⟨[], ⟨0, 0, 0, PageFlags.clear, 0, 0⟩⟩

def isLeaf (page : Page) : Bool := page.special.flags.leaf

/-- `ABT_P_RIGHTMOST`. -/
def isRightmost (page : Page) : Bool := page.special.next == 0

/-- `ABT_P_FIRSTDATAKEY`. -/
def firstDataKey (page : Page) : Nat := if page.isRightmost then 1 else 2

/-- `PageGetMaxOffsetNumber`. -/
def maxOffset (page : Page) : Nat := page.items.length

/-- `PageGetItem` at an offset number, which starts with one. -/
def item (page : Page) (off : Nat) : Option IndexTuple :=
  if off = 0 then none else page.items[off - 1]?

/-- `pd_lower`: the header and the line pointers. -/
def lower (page : Page) : Int := 24 + 4 * page.items.length

/-- `pd_upper`: before the items and the special area. -/
def upper (page : Page) : Int := 8192 - 24 - storage page.items

/-- `PageGetFreeSpace`. -/
def freeSpace (page : Page) : Int :=
  if page.upper - page.lower < 4 then 0 else page.upper - page.lower - 4

/-- `PageAddItem`; without an offset the item goes behind the others. -/
def addItem (page : Page) (item : IndexTuple) (off : Nat) : Option Page :=
  if off ≤ page.maxOffset + 1 ∧ page.lower + 4 ≤ page.upper - maxalign item.size then
    some { page with
      items := page.items.insertIdx (if off = 0 then page.maxOffset else off - 1) item }
  else none

/-- `PageAddItem` behind the last item, on the items alone. -/
def appendItem (items : List IndexTuple) (item : IndexTuple) : Option (List IndexTuple) :=
  if 24 + 4 * items.length + 4 ≤ 8192 - 24 - storage items - maxalign item.size then
    some (items ++ [item])
  else none

def setItem (page : Page) (off : Nat) (item : IndexTuple) : Page :=
  { page with items := page.items.set (off - 1) item }

/-- `PageIndexTupleOverwrite`. -/
def overwrite (page : Page) (off : Nat) (item : IndexTuple) : Option Page :=
  (page.item off).bind fun old =>
    if maxalign item.size ≤ maxalign old.size + (page.upper - page.lower) then
      some (page.setItem off item)
    else none

/-- `PageIndexTupleDelete`. -/
def tupleDelete (page : Page) (off : Nat) : Option Page :=
  (page.item off).map fun _ => { page with items := page.items.eraseIdx (off - 1) }

def keepItems : Nat → List IndexTuple → List Nat → Option (List IndexTuple)
  | _, [], [] => some []
  | _, [], _ :: _ => none
  | off, item :: items, [] => (keepItems (off + 1) items []).map (item :: ·)
  | off, item :: items, next :: itemnos =>
    if off = next then keepItems (off + 1) items itemnos
    else (keepItems (off + 1) items (next :: itemnos)).map (item :: ·)

/-- `PageIndexMultiDelete`. -/
def multiDelete (page : Page) (itemnos : List Nat) : Option Page :=
  if itemnos.length ≤ 2 then itemnos.reverse.foldlM tupleDelete page
  else (keepItems 1 page.items itemnos).map fun items => { page with items := items }

def addItems (page : Page) (off : Nat) : List IndexTuple → Option Page
  | [] => some page
  | item :: items =>
    (page.addItem item off).bind fun page => page.addItems (off + 1) items

/-- The upper part of a page whose items were added in item-number order: the last one is first
in memory. -/
def upperPart (page : Page) : Bytes := page.items.reverse.flatMap toBytes

/-- The loop of `_abt_restore_page` that finds where each tuple starts. -/
def splitTuples : Nat → Bytes → List IndexTuple
  | 0, _ => []
  | fuel + 1, bytes =>
    if bytes = [] then []
    else (take bytes).1 :: splitTuples fuel (take bytes).2

/-- `_abt_restore_page` on a page without items. -/
def restore (page : Page) (bytes : Bytes) : Option Page :=
  page.addItems 1 (splitTuples bytes.length bytes).reverse

/-- `abtree_mask`: what the consistency check of a replayed page compares. -/
def mask (page : Page) : Page :=
  if page.special.flags.deleted then init
  else
    { page with special := { page.special with
        flags := { page.special.flags with hasGarbage := false, splitEnd := false }
        cycleid := 0 } }

def withUpdateId (page : Page) (lastUpdateId : UInt16) : Page :=
  { page with special := { page.special with lastUpdateId := lastUpdateId } }

structure Live (page : Page) : Prop where
  leaf : page.isLeaf = (page.special.level == 0)
  deleted : page.special.flags.deleted = false
  metapage : page.special.flags.metapage = false
  halfDead : page.special.flags.halfDead = false
  incompleteSplit : page.special.flags.incompleteSplit = false
  sized : ∀ item ∈ page.items, item.Sized

variable {page res : Page} {item : IndexTuple} {items : List IndexTuple}

@[simp] theorem addItem_special
    (added : page.addItem item off = some res) : res.special = page.special := by
  obtain ⟨-, ⟨⟩⟩ := ite_none_right_eq_some.mp added
  rfl

theorem item_mem (found : page.item off = some item) : item ∈ page.items := by
  obtain ⟨-, found⟩ := ite_none_left_eq_some.mp found
  exact mem_of_getElem? found

theorem sized_of_addItem
    (aligned : 8 ∣ item.data.length) (added : page.addItem item off = some res) :
    item.Sized := by
  have nonneg := storage_nonneg page.items
  obtain ⟨room, added⟩ := ite_none_right_eq_some.mp added
  have bound := room.2
  unfold lower upper maxalign typealign at bound
  exact ⟨aligned, by omega⟩

theorem addItem_last (page : Page) (item : IndexTuple) : page.addItem item (page.maxOffset + 1) =
      (appendItem page.items item).map fun items => { page with items := items } := by
  unfold addItem appendItem lower upper
  by_cases room :
      24 + 4 * page.items.length + 4 ≤ 8192 - 24 - storage page.items - maxalign item.size
  · rw [if_pos ⟨le_rfl, room⟩, if_pos room, if_neg (Nat.succ_ne_zero _), Nat.add_sub_cancel]
    exact congrArg (fun items => some { page with items := items }) insertIdx_length_self
  · rw [if_neg fun both => room both.2, if_neg room, map_none]

theorem appendItem_eq {res : List IndexTuple}
    (added : appendItem items item = some res) : res = items ++ [item] := by
  obtain ⟨-, ⟨⟩⟩ := ite_none_right_eq_some.mp added
  rfl

theorem addItem_last_items (added : page.addItem item (page.maxOffset + 1) = some res) :
    res.items = page.items ++ [item] := by
  rw [addItem_last] at added
  obtain ⟨items, appended, rfl⟩ := map_eq_some_iff.mp added
  exact appendItem_eq appended

/-- The items fit on a page, each of them when it is added behind the ones before it. -/
def Built (items : List IndexTuple) : Prop := items.foldlM appendItem [] = some items

theorem Built.append {res : List IndexTuple} (built : Built items)
    (added : appendItem items item = some res) : Built res := by
  obtain ⟨room, ⟨⟩⟩ := ite_none_right_eq_some.mp added
  unfold Built at built ⊢
  rw [foldlM_append, built, bind_eq_bind, bind_some, foldlM_cons, appendItem, if_pos room]
  rfl

theorem Built.addItem_last (built : Built page.items)
    (added : page.addItem item (page.maxOffset + 1) = some res) : Built res.items := by
  rw [Page.addItem_last] at added
  obtain ⟨items, appended, rfl⟩ := map_eq_some_iff.mp added
  exact built.append appended

theorem addItems_foldlM (items : List IndexTuple) : ∀ (page : Page) (res : List IndexTuple),
    items.foldlM appendItem page.items = some res →
      page.addItems (page.maxOffset + 1) items = some { page with items := res } := by
  induction items with
  | nil =>
    intro page res folded
    cases folded
    rfl
  | cons item items ih =>
    intro page res folded
    obtain ⟨next, appended, rest⟩ := bind_eq_some_iff.mp folded
    have length : next.length = page.maxOffset + 1 := by
      rw [appendItem_eq appended]
      exact length_append
    rw [addItems, addItem_last, appended, map_some, bind_some, ← length]
    exact ih { page with items := next } res rest

theorem splitTuples_toBytes (sized : ∀ item ∈ items, item.Sized) :
    ∀ fuel, (items.flatMap toBytes).length ≤ fuel →
      splitTuples fuel (items.flatMap toBytes) = items := by
  induction items with
  | nil =>
    intro fuel _
    cases fuel with
    | zero => rfl
    | succ fuel => rfl
  | cons item items ih =>
    intro fuel enough
    have parts : (item :: items).flatMap toBytes =
        item.toBytes ++ items.flatMap toBytes := flatMap_cons
    have length : (item.toBytes ++ items.flatMap toBytes).length =
        item.size + (items.flatMap toBytes).length := by
      rw [length_append, length_toBytes]
    have positive : 8 ≤ item.size := Nat.le_add_right 8 _
    rw [parts, length] at enough
    cases fuel with
    | zero => omega
    | succ fuel =>
      have nonempty : item.toBytes ++ items.flatMap toBytes ≠ [] := by
        intro empty
        rw [empty, length_nil] at length
        omega
      rw [parts, splitTuples, if_neg nonempty, take_toBytes (sized item mem_cons_self)]
      rw [ih (fun other mem => sized other (mem_cons_of_mem item mem)) fuel (by omega)]

/-- The items of a logged page come back in their order. -/
theorem restore_upperPart (page : Page) {logged : Page}
    (sized : ∀ item ∈ logged.items, item.Sized) :
    page.restore logged.upperPart = page.addItems 1 logged.items := by
  unfold restore upperPart
  rw [splitTuples_toBytes (fun item mem => sized item (mem_reverse.mp mem)) _ le_rfl,
    reverse_reverse]

theorem restore_built {logged : Page} (empty : page.items = [])
    (built : Built logged.items) (sized : ∀ item ∈ logged.items, item.Sized) :
    page.restore logged.upperPart = some { page with items := logged.items } := by
  rw [restore_upperPart page sized]
  have first : page.maxOffset + 1 = 1 := by rw [maxOffset, empty, length_nil]
  rw [← first]
  apply addItems_foldlM
  rw [empty]
  exact built

end Page

end PgAqp.Abtree
