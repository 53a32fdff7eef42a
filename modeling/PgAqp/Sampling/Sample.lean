import Mathlib.Data.Rat.Init
import Mathlib.Algebra.Field.Rat
import PgAqp.Sampling.Page
import PgAqp.VersionStore.ReadAgg

/-!
# Drawing one sample

`_abt_sample_extended` without a locked path.  On the first page with more than one
candidate it draws a cutoff below the sum of the candidates' weights, and the cutoff decides
at every further level.  A step locks one page and works on it until the next page is
locked.
-/

namespace PgAqp.Sampling

open VersionStore (Xid AbtSnapshot AggType xidInSnapshot readAgg sub64)
open Library List

/-- `random_number`, a number from 0 to 1. -/
structure Draw where
  num : Nat
  den : Nat
  pos : 0 < den
  le : num ≤ den
  deriving DecidableEq

def add64 (first second : Nat) : Nat := (first + second) % 18446744073709551616

namespace Draw

/-- `floor(total * random_number)`. -/
def scale (random : Draw) (total : Nat) : Nat := total * random.num / random.den

/-- The cutoff, which is made smaller if it is the total itself. -/
def cutoff (random : Draw) (total : Nat) : Nat :=
  if random.scale total = total then sub64 total 1 else random.scale total

def ofCutoff {total : Nat} (cutoff : Fin total) : Draw where
  num := cutoff
  den := total
  pos := Nat.zero_lt_of_lt cutoff.isLt
  le := Nat.le_of_lt cutoff.isLt

end Draw

/-- `so->inv_prob`. -/
inductive InvProb where
  | infinity
  | nan
  | finite (value : ℚ)
  deriving DecidableEq

/-- `so->inv_prob /= w`. -/
def InvProb.div : InvProb → Nat → InvProb
  | .finite value, weight =>
    if weight = 0 then (if value = 0 then .nan else .infinity) else .finite (value / weight)
  | .infinity, _ => .infinity
  | .nan, _ => .nan

/-- The conditions of a scan as `_abt_preprocess_keys` and `_abt_build_start_inskey` leave them:
what passes `_abt_checkkeys` is between the two insertion scan keys. -/
structure Range (α : Type) [LinearOrder α] where
  qualOk : Bool
  inskeyLow : Option (ScanInsert α)
  inskeyHigh : Option (ScanInsert α)
  checkkeys : List α → Bool
  lowBound : ∀ key ∈ inskeyLow, key.IsBound
  highBound : ∀ key ∈ inskeyHigh, key.IsBound
  satisfiable : ∀ attrs, checkkeys attrs = true → qualOk = true
  aboveLow : ∀ attrs heapTid, checkkeys attrs = true →
    ∀ key ∈ inskeyLow, key.passes (key.compareKey ⟨attrs, some heapTid⟩) = false
  belowHigh : ∀ attrs heapTid, checkkeys attrs = true →
    ∀ key ∈ inskeyHigh, key.passes (key.compareKey ⟨attrs, some heapTid⟩) = true

/-- The fields of the scan and of the index that the sampler reads. -/
structure Scan (α : Type) [LinearOrder α] where
  range : Range α
  ignoreKilledTuples : Bool
  snapshot : Option AbtSnapshot
  leafHasAgg : Bool
  aggMapVal : Nat
  aggType : AggType
  /-- The version chain of the pivot with a child. -/
  versions : Nat → List (Xid × Nat)

structure Index (α : Type) where
  root : Option Nat
  pages : Nat → Option (Page α)

/-- `ABT_OFFSET_GET_ITEMINDEX`. -/
def offsetGetItemindex (off : UInt32) : UInt32 := off &&& 0xffff

/-- `ABT_OFFSET_AND_POSTING_OFF_GET_ITEMINDEX`. -/
def offsetAndPostingOffGetItemindex (off postingOff : UInt32) : UInt32 :=
  offsetGetItemindex off ||| ((postingOff &&& 0xffff0000) <<< 16)

/-- `ABT_ITEMINDEX_GET_OFFSET`. -/
def itemindexGetOffset (itemIndex : UInt32) : UInt32 := itemIndex &&& 0xffff

/-- `ABT_ITEMINDEX_GET_POSTING_OFF`. -/
def itemindexGetPostingOff (itemIndex : UInt32) : UInt32 := (itemIndex &&& 0xffff0000) >>> 16

/-- What a call of the sampler returns, with `so->inv_prob` as it leaves it. -/
inductive Outcome where
  /-- `xs_heaptid` of the sample. -/
  | selected (heapTid : Nat) (invProb : InvProb)
  | rejected (invProb : InvProb)
  deriving DecidableEq

/-- The page to lock next, with what was read in its parent. -/
structure Child (α : Type) where
  blkno : Nat
  /-- `expected_hikey`. -/
  hikey : Option (Key α)
  cutoff : Nat
  /-- `_abt_moveright_to_next_live_page` has left a page that is to be ignored. -/
  moved : Bool
  deriving DecidableEq

inductive Sampler (α : Type) where
  | start
  /-- Below a single pivot that covers the range. -/
  | quick (child : Child α) (invProb : InvProb)
  /-- Below a pivot that was chosen; `acc` is what was passed on the level. -/
  | descend (child : Child α) (acc : Nat) (invProb : InvProb)
  | finished (out : Outcome)
  | crashed
  deriving DecidableEq

/-- `prefix_sums` after the loop that adds them up. -/
def runningSums : Nat → List Nat → List Nat
  | _, [] => []
  | acc, weight :: ws => add64 acc weight :: runningSums (add64 acc weight) ws

/-- The binary search for the first sum above the cutoff. -/
def cutoffIndex (sums : List Nat) (cutoff : Nat) : Nat :=
  Bisect.first (fun i => decide (cutoff < sums.getD i 0)) 0 sums.length

def residual (sums : List Nat) (i cutoff : Nat) : Nat :=
  if i = 0 then cutoff else sub64 cutoff (sums.getD (i - 1) 0)

def accumulate {β : Type} (cutoff : Nat) : Nat → List (β × Nat) → (β × Nat) ⊕ Nat
  | acc, [] => .inr acc
  | acc, (label, weight) :: es =>
    if cutoff < add64 acc weight then .inl (label, sub64 cutoff acc)
    else accumulate cutoff (add64 acc weight) es

variable {α : Type} [LinearOrder α]

namespace Scan

variable (scan : Scan α) (random : Draw) (page : Page α)

/-- `_abt_xid_in_snapshot`: the snapshot does not see the row. -/
def hides (row : Row) : Bool := xidInSnapshot row.xmin scan.snapshot

/-- `_abt_read_agg`. -/
def readAgg (scan : Scan α) (pivot : PivotTuple α) : Nat :=
  VersionStore.readAgg scan.aggType scan.snapshot pivot.agg (scan.versions pivot.downlink)

/-- The visible rows of a posting list with the weights that are read for them; `agg_ptr` is not
moved over a row that is skipped. -/
def postingWeights (scan : Scan α) : List Row → List Nat → Nat → List (Nat × Nat)
  | [], _, _ => []
  | row :: rows, aggs, i =>
    if scan.hides row then scan.postingWeights rows aggs (i + 1)
    else (i, aggs.headD 0) :: scan.postingWeights rows aggs.tail (i + 1)

def rowWeights (constant : Nat) (tup : LeafTuple α) : List (Nat × Nat) :=
  match tup.data with
  | .plain row =>
    if scan.hides row then [] else [(0, if scan.leafHasAgg then row.agg else constant)]
  | .posting rows =>
    scan.postingWeights rows
      (if scan.leafHasAgg then rows.map Row.agg else replicate rows.length constant) 0

def leafEntries (constant : Nat) (page : Page α) (minoff maxoff : Nat) : List ((Nat × Nat) × Nat) :=
  (range' minoff (maxoff + 1 - minoff)).flatMap fun off =>
    (page.leafAt off).elim [] fun tup =>
      (scan.rowWeights constant tup).map fun e => ((off, e.1), e.2)

def pivotEntries (minoff maxoff : Nat) : List (Nat × Nat) :=
  (range' minoff (maxoff + 1 - minoff)).filterMap fun off =>
    (page.pivotAt off).map fun pivot => (off, scan.readAgg pivot)

def minoff : Nat :=
  scan.range.inskeyLow.elim page.firstDataKey page.binsrch

def maxoff : Nat :=
  scan.range.inskeyHigh.elim page.maxOffset fun key =>
    if page.isLeaf then page.binsrch key - 1 else page.binsrch key

/-- From `done_sampling` on: the row at an offset of a leaf page and of a posting list. -/
def doneSampling (off postingOff : Nat) (invProb : InvProb) : Sampler α :=
  match page.leafAt off with
  | none => .crashed
  | some tup =>
    match tup.rowAt postingOff with
    | none => .crashed
    | some row =>
      let invProb := if scan.leafHasAgg then invProb.div row.agg else invProb
      if (scan.ignoreKilledTuples && tup.dead) || !scan.range.checkkeys tup.attrs then
        .finished (.rejected invProb)
      else .finished (.selected row.heapTid invProb)

/-- Draw among the visible rows between two offsets of a leaf page. -/
def chooseLeaf (minoff maxoff : Nat) : Sampler α :=
  let es := scan.leafEntries 1 page minoff maxoff
  let itemIndexes := es.map fun e =>
    offsetAndPostingOffGetItemindex (.ofNat e.1.1) (.ofNat e.1.2)
  if es = [] then .finished (.rejected .infinity)
  else
    let done (i total : Nat) : Sampler α :=
      scan.doneSampling page (itemindexGetOffset (itemIndexes.getD i 0)).toNat
        (itemindexGetPostingOff (itemIndexes.getD i 0)).toNat (.finite total)
    if scan.leafHasAgg then
      let sums := runningSums 0 (es.map Prod.snd)
      done (cutoffIndex sums (random.cutoff (sums.getLastD 0))) (sums.getLastD 0)
    else done (random.cutoff es.length) es.length

def choosePivot (minoff maxoff : Nat) : Sampler α :=
  let es := (scan.pivotEntries page minoff maxoff).filter fun e => e.2 ≠ 0
  let itemIndexes := es.map fun e => offsetGetItemindex (.ofNat e.1)
  if es = [] then .finished (.rejected .infinity)
  else
    let sums := runningSums 0 (es.map Prod.snd)
    let cutoff := random.cutoff (sums.getLastD 0)
    let i := cutoffIndex sums cutoff
    let off := (itemindexGetOffset (itemIndexes.getD i 0)).toNat
    match page.pivotAt off with
    | none => .crashed
    | some pivot =>
      .descend ⟨pivot.downlink, page.expectedHikey off, residual sums i cutoff, false⟩ 0
        (.finite (sums.getLastD 0))

def singleLeaf (off : Nat) : Sampler α :=
  match page.leafAt off with
  | none => .crashed
  | some tup =>
    match tup.data with
    | .plain row =>
      let invProb : InvProb := .finite (if scan.leafHasAgg then row.agg else 1)
      if scan.hides row then .finished (.rejected invProb)
      else scan.doneSampling page off 0 invProb
    | .posting rows =>
      if scan.leafHasAgg then scan.chooseLeaf random page off off
      else
        match rows[random.cutoff rows.length]? with
        | none => .crashed
        | some row =>
          if scan.hides row then .finished (.rejected (.finite rows.length))
          else
            scan.doneSampling page off (random.cutoff rows.length) (.finite rows.length)

def singlePivot (off : Nat) : Sampler α :=
  match page.pivotAt off with
  | none => .crashed
  | some pivot =>
    .quick ⟨pivot.downlink, page.expectedHikey off, random.cutoff (scan.readAgg pivot), false⟩
      (.finite (scan.readAgg pivot))

/-- `quick_descend_path` and `descend_with_minmax`. -/
def quickDescend : Sampler α :=
  if scan.maxoff page < scan.minoff page then .finished (.rejected .infinity)
  else if scan.minoff page = scan.maxoff page then
    if page.isLeaf then scan.singleLeaf random page (scan.minoff page)
    else scan.singlePivot random page (scan.minoff page)
  else if page.isLeaf then scan.chooseLeaf random page (scan.minoff page) (scan.maxoff page)
  else scan.choosePivot random page (scan.minoff page) (scan.maxoff page)

/-- `prev_cmpres`: the expected high key against the high key of the page. -/
def prevCmpres (hikey : Option (Key α)) (page : Page α) : Ordering :=
  match page.hikey with
  | none => if hikey.isNone then .eq else .lt
  | some pageHikey => (mkscankey hikey).compareKey pageHikey

/-- The end of the loop: everything on the page was passed. -/
def goRight (cmpres : Ordering) (child : Child α) (acc : Nat) (invProb : InvProb) : Sampler α :=
  match page.right with
  | none => .finished (.rejected .infinity)
  | some (_, next) =>
    if cmpres = .eq then .finished (.rejected .infinity)
    else .descend { child with blkno := next, moved := false } acc invProb

/-- `continue_descent`. -/
def continueDescent (cmpres : Ordering) (child : Child α) (acc : Nat)
    (invProb : InvProb) : Sampler α :=
  if cmpres = .gt then .finished (.rejected invProb)
  else if page.isLeaf then
    match accumulate child.cutoff acc
        (scan.leafEntries scan.aggMapVal page page.firstDataKey page.maxOffset) with
    | .inl ((off, postingOff), _) => scan.doneSampling page off postingOff invProb
    | .inr acc => goRight page cmpres child acc invProb
  else
    match accumulate child.cutoff acc
        (scan.pivotEntries page page.firstDataKey page.maxOffset) with
    | .inl (off, cutoff) =>
      match page.pivotAt off with
      | none => .crashed
      | some pivot => .descend ⟨pivot.downlink, page.expectedHikey off, cutoff, false⟩ 0 invProb
    | .inr acc => goRight page cmpres child acc invProb

end Scan

namespace Sampler

/-- `_abt_moveright_to_next_live_page`: what to do with a page that was just locked. -/
def live (page : Page α) (child : Child α) (again : Child α → Sampler α) (go : Sampler α) :
    Sampler α :=
  -- the rightmost page is given up even if it is live, and the caller releases no buffer
  if child.moved && page.rightmost then .crashed
  else if page.ignore then
    match page.right with
    | none => .crashed
    | some (_, next) => again { child with blkno := next, moved := true }
  else go

def step (scan : Scan α) (random : Draw) (i : Index α) : Sampler α → Sampler α
  | .start =>
    if scan.range.qualOk then
      match i.root with
      | none => .finished (.rejected .infinity)
      | some blkno =>
        match i.pages blkno with
        | none => .crashed
        | some page => scan.quickDescend random page
    else .finished (.rejected .infinity)
  | .quick child invProb =>
    match i.pages child.blkno with
    | none => .crashed
    | some page =>
      live page child (.quick · invProb)
        (if Scan.prevCmpres child.hikey page = .eq ∨ page.rightmost = true then
          scan.quickDescend random page
        else scan.continueDescent page (Scan.prevCmpres child.hikey page) child 0 invProb)
  | .descend child acc invProb =>
    match i.pages child.blkno with
    | none => .crashed
    | some page =>
      live page child (.descend · acc invProb)
        (scan.continueDescent page (Scan.prevCmpres child.hikey page) child acc invProb)
  | .finished out => .finished out
  | .crashed => .crashed

/-- Lock pages until the call returns; `fuel` bounds their number. -/
def run (scan : Scan α) (random : Draw) (i : Index α) : Nat → Sampler α → Sampler α
  | 0, sampler => sampler
  | fuel + 1, sampler => run scan random i fuel (sampler.step scan random i)

end Sampler

/-- `_abt_sample`. -/
def sample (scan : Scan α) (random : Draw) (i : Index α) (fuel : Nat) : Sampler α :=
  Sampler.run scan random i fuel .start

end PgAqp.Sampling
