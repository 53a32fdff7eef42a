import PgAqp.Wal.AggOp

/-!
# Recovery of aggregates after a crash

Backends add to the aggregates of one page, each in the steps that
`_abt_fix_path_aggregation_itup` and `_abt_decrement_aggs_for_vacuum` take, while
the page is copied to disk and the log is flushed.  The log has the records of
this page, and the position of a record is its number.
-/

namespace PgAqp.Wal

open Library Function List Option AggRecord

inductive AggPc (type : AggType) where
  | idle
  /-- The word is changed; `XLogInsert` is next. -/
  | added (unit : Nat) (operand : Operand type)
  /-- The record is in the log; `PageAtomicSetLSN` reads the position of the page. -/
  | logged (recptr : Nat)
  /-- `PageAtomicSetLSN` tries to swap its position in. -/
  | raising (recptr oldRecptr : Nat)
  deriving DecidableEq, Repr

/-- The copy that `FlushBuffer` makes of the page: its log position, and the words so far. -/
structure FlushCopy (type : AggType) where
  lsn : Nat
  words : Nat → Option (BitVec type.word)

def FlushCopy.complete {type : AggType} (copy : FlushCopy type) : Bool :=
  (range wordsPerPage).all fun unit => (copy.words unit).isSome

structure AggState (type : AggType) where
  page : Stamped (Words type)
  disk : Stamped (Words type)
  copying : Option (FlushCopy type)
  log : List (AggRecord type)
  /-- The records that are on disk. -/
  flushed : Nat
  backends : List (AggPc type)

inductive AggLabel (type : AggType) where
  /-- The atomic addition. -/
  | add (be unit : Nat) (operand : Operand type)
  /-- `XLogInsert`. -/
  | insert (be : Nat)
  /-- An access of `PageAtomicSetLSN`. -/
  | setLsn (be : Nat)
  /-- The log is flushed up to a record. -/
  | flushLog (recptr : Nat)
  /-- `FlushBuffer` copies the log position of the page, up to which the log is on disk. -/
  | startCopy
  /-- `FlushBuffer` copies some words. -/
  | copyWords (low high : Nat)
  /-- The copy is on disk. -/
  | endCopy
  /-- The page is rewritten under an exclusive lock. -/
  | rewrite (words : Words type)

namespace AggState

variable {type : AggType} (s : AggState type)

def setBackend (be : Nat) (pc : AggPc type) : AggState type :=
  { s with backends := s.backends.set be pc }

/-- The atomic addition of `_abt_fix_path_aggregation_itup` or `_abt_decrement_aggs_for_vacuum`. -/
def add (be unit : Nat) (operand : Operand type) : AggState type :=
  { s with
    page := ⟨s.page.lsn,
      update s.page.content unit (s.page.content unit + operand.atomic)⟩
    backends := s.backends.set be (.added unit operand) }

/-- `XLogInsert` with what `abt_create_agg_op` made. -/
def insert (be unit : Nat) (operand : Operand type) : AggState type :=
  { s with
    log := s.log ++ [.aggOp (createAggOp 0 (4 * unit)) operand.logged]
    backends := s.backends.set be (.logged (s.log.length + 1)) }

/-- The loop of `PageAtomicSetLSN`. -/
def trySetLsn (be recptr oldRecptr : Nat) : AggState type :=
  if oldRecptr > recptr then s.setBackend be .idle
  else if s.page.lsn = oldRecptr then
    { s with page := ⟨recptr, s.page.content⟩ }.setBackend be .idle
  else s.setBackend be (.raising recptr s.page.lsn)

def copyWords (copy : FlushCopy type) (low high : Nat) : FlushCopy type :=
  { copy with
    words := fun unit =>
      if low ≤ unit ∧ unit < high then some (s.page.content unit) else copy.words unit }

def step : AggLabel type → Option (AggState type)
  | .add be unit operand =>
    if s.backends[be]? = some .idle ∧ unit < wordsPerPage then
      some (s.add be unit operand)
    else none
  | .insert be =>
    match s.backends[be]? with
    | some (.added unit operand) => some (s.insert be unit operand)
    | _ => none
  | .setLsn be =>
    match s.backends[be]? with
    | some (.logged recptr) => some (s.setBackend be (.raising recptr s.page.lsn))
    | some (.raising recptr oldRecptr) => some (s.trySetLsn be recptr oldRecptr)
    | _ => none
  | .flushLog recptr =>
    some { s with flushed := max s.flushed (min recptr s.log.length) }
  | .startCopy =>
    if s.copying.isNone ∧ s.page.lsn ≤ s.flushed then
      some { s with copying := some ⟨s.page.lsn, fun _ => none⟩ }
    else none
  | .copyWords low high =>
    s.copying.map fun copy => { s with copying := some (s.copyWords copy low high) }
  | .endCopy =>
    s.copying.bind fun copy =>
      if copy.complete then
        some { s with
          disk := ⟨copy.lsn, fun unit => (copy.words unit).getD 0⟩
          copying := none }
      else none
  | .rewrite words =>
    if s.copying.isNone ∧ ∀ pc ∈ s.backends, pc = .idle then
      some { s with
        page := ⟨s.log.length + 1, words⟩
        log := s.log ++ [.rewrite words] }
    else none

/-- The page after a full rewrite, on disk and in the buffer. -/
def start (base : Words type) (count : Nat) : AggState type where
  page := ⟨0, base⟩
  disk := ⟨0, base⟩
  copying := none
  log := []
  flushed := 0
  backends := replicate count .idle

/-- Recovery: the records on disk are replayed onto the page on disk. -/
def recover : Option (Stamped (Words type)) :=
  Redo.replay apply restores 1 s.disk (s.log.take s.flushed)

end AggState

section

variable {type : AggType}

/-- The backend has not changed a word in the range without a record. -/
def AggPc.Avoids (low high : Nat) : AggPc type → Prop
  | .added unit _ => ¬(low ≤ unit ∧ unit < high)
  | _ => True

instance (low high : Nat) (pc : AggPc type) : Decidable (pc.Avoids low high) := by
  cases pc <;> unfold AggPc.Avoids <;> infer_instance

/-- The record does not change a word in the range. -/
def AggRecord.Avoids (low high : Nat) : AggRecord type → Prop
  | .aggOp info _ => ¬(low ≤ aggOpOffset info / 4 ∧ aggOpOffset info / 4 < high)
  | .rewrite _ => False

instance (low high : Nat) (record : AggRecord type) : Decidable (record.Avoids low high) := by
  cases record <;> unfold AggRecord.Avoids <;> infer_instance

def CopiesLogged (s : AggState type) : AggLabel type → Prop
  | .copyWords low high =>
    ∀ copy ∈ s.copying, (∀ pc ∈ s.backends, pc.Avoids low high) ∧
      ∀ record ∈ s.log.drop copy.lsn, record.Avoids low high
  | _ => True

instance (s : AggState type) (label : AggLabel type) :
    Decidable (CopiesLogged s label) := by
  cases label <;> unfold CopiesLogged <;> infer_instance

end

namespace AggPc

variable {type : AggType}

/-- What the backend has added to an aggregate without a record. -/
def pending (unit : Nat) : AggPc type → BitVec type.bits
  | .added place operand => if place = unit then operand.logged else BitVec.ofNat type.bits 0
  | _ => BitVec.ofNat type.bits 0

def Within (length : Nat) : AggPc type → Prop
  | .idle => True
  | .added unit _ => unit < wordsPerPage
  | .logged recptr => recptr ≤ length
  | .raising recptr _ => recptr ≤ length

variable {pc : AggPc type}

theorem Within.later {length longer : Nat} (within : pc.Within length)
    (grows : length ≤ longer) : pc.Within longer := by
  cases pc with
  | idle => trivial
  | added unit operand => exact within
  | logged recptr => exact within.trans grows
  | raising recptr oldRecptr => exact within.trans grows

theorem Avoids.pending (avoids : pc.Avoids low high)
    (inside : low ≤ unit ∧ unit < high) : pc.pending unit = BitVec.ofNat type.bits 0 := by
  cases pc with
  | idle => rfl
  | logged recptr => rfl
  | raising recptr oldRecptr => rfl
  | added place operand =>
    refine if_neg ?_
    rintro rfl
    exact avoids inside

end AggPc

variable {type : AggType}

/-- What all backends have added to an aggregate without a record. -/
def pendingSum (unit : Nat) : List (AggPc type) → BitVec type.bits
  | [] => BitVec.ofNat type.bits 0
  | pc :: backends => pc.pending unit + pendingSum unit backends

theorem pendingSum_set (unit : Nat) (new : AggPc type) :
    ∀ {backends : List (AggPc type)} {be : Nat}, backends[be]? = some old →
      pendingSum unit (backends.set be new) + old.pending unit =
        pendingSum unit backends + new.pending unit := by
  intro backends
  induction backends with
  | nil =>
    intro be found
    cases found
  | cons pc backends ih =>
    intro be found
    cases be with
    | zero =>
      cases found
      rw [set_cons_zero, pendingSum, pendingSum, BitVec.add_assoc, BitVec.add_comm,
        BitVec.add_comm (pendingSum unit backends)]
    | succ be =>
      have rest := ih (found : backends[be]? = some old)
      rw [set_cons_succ, pendingSum, pendingSum, BitVec.add_assoc, rest, BitVec.add_assoc]

variable {unit : Nat}

theorem pendingSum_same
    (found : backends[be]? = some old) (same : new.pending unit = old.pending unit) :
    pendingSum unit (backends.set be new) = pendingSum unit backends := by
  have moved := pendingSum_set unit new found
  rw [same] at moved
  exact (BitVec.add_left_inj _).mp moved

theorem pendingSum_zero : ∀ {backends : List (AggPc type)},
    (∀ pc ∈ backends, pc.pending unit = BitVec.ofNat type.bits 0) →
      pendingSum unit backends = BitVec.ofNat type.bits 0 := by
  intro backends
  induction backends with
  | nil =>
    intro _
    rfl
  | cons pc backends ih =>
    intro none
    rw [pendingSum, none pc mem_cons_self,
      ih fun other mem => none other (mem_cons_of_mem pc mem), BitVec.zero_add]

/-- Records that do not change a word leave its aggregate as it is. -/
theorem recordedValue_avoids (base : Aggregates type) (inside : low ≤ unit ∧ unit < high) :
    ∀ (records : List (AggRecord type)), (∀ record ∈ later, record.Avoids low high) →
      recordedValue base (records ++ later) unit = recordedValue base records unit := by
  induction later with
  | nil =>
    intro records _
    rw [append_nil]
  | cons record later ih =>
    intro records avoid
    have rest := ih (records ++ [record]) fun other mem => avoid other (mem_cons_of_mem record mem)
    rw [append_assoc, singleton_append] at rest
    rw [rest]
    have first := avoid record mem_cons_self
    cases record with
    | rewrite words => cases first
    | aggOp info newValue =>
      rw [recordedValue_aggOp, addend, if_neg, BitVec.add_zero]
      rintro rfl
      exact first inside

structure UpToDate (base : Aggregates type) (s : AggState type) (lsn : Nat)
    (words : Nat → Option (BitVec type.word)) : Prop where
  flushed : lsn ≤ s.flushed
  exact : ∀ unit < wordsPerPage, ∀ word, words unit = some word →
    aggregate word = recordedValue base (s.log.take lsn) unit

structure AggInv (base : Aggregates type) (s : AggState type) : Prop where
  page : ∀ unit < wordsPerPage, aggregate (s.page.content unit) =
    recordedValue base s.log unit + pendingSum unit s.backends
  pageLsn : s.page.lsn ≤ s.log.length
  backends : ∀ pc ∈ s.backends, pc.Within s.log.length
  flushed : s.flushed ≤ s.log.length
  records : ∀ record ∈ s.log, record.IsAddition
  disk : UpToDate base s s.disk.lsn fun unit => some (s.disk.content unit)
  copying : ∀ copy ∈ s.copying, UpToDate base s copy.lsn copy.words

theorem UpToDate.later {next} (upToDate : UpToDate base s lsn words)
    (written : s.flushed ≤ s.log.length) (grows : s.log <+: next.log)
    (flushed : s.flushed ≤ next.flushed) :
    UpToDate base next lsn words where
  flushed := upToDate.flushed.trans flushed
  exact := by
    obtain ⟨more, isLog⟩ := grows
    have same : next.log.take lsn = s.log.take lsn := by
      rw [← isLog, take_append_of_le_length (upToDate.flushed.trans written)]
    rw [same]
    exact upToDate.exact

namespace AggInv

variable {base : Aggregates type} {s next : AggState type} {label : AggLabel type}

theorem start (words : Words type) (count : Nat) :
    AggInv (fun unit => aggregate (words unit)) (AggState.start words count) where
  page := by
    intro unit _
    have idle : pendingSum unit (replicate count (AggPc.idle : AggPc type)) =
        BitVec.ofNat type.bits 0 :=
      pendingSum_zero fun pc mem => by rw [eq_of_mem_replicate mem]; rfl
    change _ = _ + pendingSum unit (replicate count AggPc.idle)
    rw [idle]
    simp only [AggState.start, recordedValue, lastRewrite, sinceRewrite, foldl_nil, additions,
      BitVec.add_zero]
  pageLsn := Nat.le_refl 0
  backends := by
    intro pc mem
    rw [eq_of_mem_replicate mem]
    trivial
  flushed := Nat.le_refl 0
  records := by
    intro record mem
    cases mem
  disk := by
    refine ⟨Nat.le_refl 0, ?_⟩
    rintro unit _ word ⟨⟩
    simp only [AggState.start, recordedValue, lastRewrite, sinceRewrite, take_nil,
      foldl_nil, additions, BitVec.add_zero]
  copying := by rintro copy ⟨⟩

theorem moved (new : AggPc type) (inv : AggInv base s) (found : s.backends[be]? = some old)
    (pending : ∀ unit, new.pending unit = old.pending unit) (within : new.Within s.log.length)
    (bound : lsn ≤ s.log.length) :
    AggInv base { s with
      page := ⟨lsn, s.page.content⟩
      backends := s.backends.set be new } where
  page := by
    intro unit inside
    rw [pendingSum_same found (pending unit)]
    exact inv.page unit inside
  pageLsn := bound
  backends := by
    intro pc mem
    rcases mem_or_eq_of_mem_set mem with there | rfl
    · exact inv.backends pc there
    · exact within
  flushed := inv.flushed
  records := inv.records
  disk := inv.disk.later inv.flushed prefix_rfl le_rfl
  copying := fun copy isCopy => (inv.copying copy isCopy).later inv.flushed prefix_rfl le_rfl

theorem add (inv : AggInv base s)
    (found : s.backends[be]? = some .idle) (onPage : place < wordsPerPage) :
    AggInv base (s.add be place operand) where
  page := by
    intro unit inside
    have idle : (AggPc.idle : AggPc type).pending unit = BitVec.ofNat type.bits 0 := rfl
    have moved := pendingSum_set unit (.added place operand) found
    rw [idle, BitVec.add_zero] at moved
    change aggregate (update s.page.content place _ unit) =
      _ + pendingSum unit (s.backends.set be (.added place operand))
    rw [moved, ← BitVec.add_assoc]
    change _ = recordedValue base s.log unit + pendingSum unit s.backends + _
    rw [← inv.page unit inside, update_apply, AggPc.pending]
    by_cases here : unit = place
    · rw [if_pos here, if_pos here.symm, here, aggregate_add, aggregate_atomic]
    · rw [if_neg here, if_neg (Ne.symm here), BitVec.add_zero]
  pageLsn := inv.pageLsn
  backends := by
    intro pc mem
    rcases mem_or_eq_of_mem_set mem with there | rfl
    · exact inv.backends pc there
    · exact onPage
  flushed := inv.flushed
  records := inv.records
  disk := inv.disk.later inv.flushed prefix_rfl le_rfl
  copying := fun copy isCopy => (inv.copying copy isCopy).later inv.flushed prefix_rfl le_rfl

theorem insert (inv : AggInv base s) (found : s.backends[be]? = some (.added place operand)) :
    AggInv base (s.insert be place operand) where
  page := by
    intro unit inside
    have onPage : place < wordsPerPage := inv.backends _ (mem_of_getElem? found)
    have logged : (AggPc.logged (s.log.length + 1) : AggPc type).pending unit =
        BitVec.ofNat type.bits 0 := rfl
    have moved := pendingSum_set unit (.logged (s.log.length + 1)) found
    rw [logged, BitVec.add_zero] at moved
    have quotient : 4 * place / 4 = place := Nat.mul_div_cancel_left place (by decide)
    change _ = recordedValue base (s.log ++ [_]) unit +
      pendingSum unit (s.backends.set be (.logged (s.log.length + 1)))
    rw [recordedValue_aggOp, addend, (aggOp_create onPage).2, quotient,
      BitVec.add_assoc, BitVec.add_comm (ite _ _ _)]
    exact (inv.page unit inside).trans (congrArg (recordedValue base s.log unit + ·) moved.symm)
  pageLsn := by
    change s.page.lsn ≤ (s.log ++ [_]).length
    rw [length_append]
    exact Nat.le_add_right_of_le inv.pageLsn
  backends := by
    intro pc mem
    change pc.Within (s.log ++ [_]).length
    rw [length_append]
    rcases mem_or_eq_of_mem_set mem with there | rfl
    · exact (inv.backends pc there).later (Nat.le_add_right _ _)
    · exact le_rfl
  flushed := by
    change s.flushed ≤ (s.log ++ [_]).length
    rw [length_append]
    exact Nat.le_add_right_of_le inv.flushed
  records := by
    have onPage : place < wordsPerPage := inv.backends _ (mem_of_getElem? found)
    intro record mem
    rcases mem_append.mp mem with there | isNew
    · exact inv.records record there
    · cases mem_singleton.mp isNew
      exact (aggOp_create onPage).1
  disk := inv.disk.later inv.flushed (prefix_append _ _) le_rfl
  copying := fun copy isCopy =>
    (inv.copying copy isCopy).later inv.flushed (prefix_append _ _) le_rfl

theorem trySetLsn (inv : AggInv base s)
    (found : s.backends[be]? = some (.raising recptr oldRecptr)) :
    AggInv base (s.trySetLsn be recptr oldRecptr) := by
  have within : recptr ≤ s.log.length := inv.backends _ (mem_of_getElem? found)
  unfold AggState.trySetLsn
  split
  · exact inv.moved .idle found (fun _ => rfl) trivial inv.pageLsn
  · split
    · exact inv.moved .idle found (fun _ => rfl) trivial within
    · exact inv.moved (.raising recptr s.page.lsn) found (fun _ => rfl) within inv.pageLsn

theorem flushLog (recptr : Nat) (inv : AggInv base s) :
    AggInv base { s with flushed := max s.flushed (min recptr s.log.length) } :=
  { inv with
    flushed := Nat.max_le.mpr ⟨inv.flushed, Nat.min_le_right _ _⟩
    disk := inv.disk.later inv.flushed prefix_rfl (Nat.le_max_left _ _)
    copying := fun copy isCopy =>
      (inv.copying copy isCopy).later inv.flushed prefix_rfl (Nat.le_max_left _ _) }

variable (inv : AggInv base s)
include inv

theorem setCopying {copying : Option (FlushCopy type)}
    (upToDate : ∀ copy ∈ copying, UpToDate base s copy.lsn copy.words) :
    AggInv base { s with copying := copying } where
  page := inv.page
  pageLsn := inv.pageLsn
  backends := inv.backends
  flushed := inv.flushed
  records := inv.records
  disk := inv.disk.later inv.flushed prefix_rfl le_rfl
  copying := fun copy isCopy => (upToDate copy isCopy).later inv.flushed prefix_rfl le_rfl

/-- The words that are copied have no addition that is not in the log at the copied position. -/
theorem copyWords (isCopy : s.copying = some copy)
    (avoid : (∀ pc ∈ s.backends, pc.Avoids low high) ∧
      ∀ record ∈ s.log.drop copy.lsn, record.Avoids low high) :
    UpToDate base s copy.lsn (s.copyWords copy low high).words where
  flushed := (inv.copying copy isCopy).flushed
  exact := by
    intro unit inside word copied
    unfold AggState.copyWords at copied
    dsimp only at copied
    split at copied
    next range =>
      cases copied
      have none : pendingSum unit s.backends = BitVec.ofNat type.bits 0 :=
        pendingSum_zero fun pc mem => (avoid.1 pc mem).pending range
      have logged := recordedValue_avoids base range (s.log.take copy.lsn) avoid.2
      rw [take_append_drop] at logged
      rw [inv.page unit inside, none, BitVec.add_zero, logged]
    · exact (inv.copying copy isCopy).exact unit inside word copied

theorem endCopy (isCopy : s.copying = some copy) (complete : copy.complete) :
    AggInv base { s with
      disk := ⟨copy.lsn, fun unit => (copy.words unit).getD 0⟩
      copying := none } :=
  { inv with
    disk := by
      refine ⟨(inv.copying copy isCopy).flushed, ?_⟩
      intro unit inside word isWord
      have copied := all_eq_true.mp complete unit (mem_range.mpr inside)
      obtain ⟨value, isValue⟩ := isSome_iff_exists.mp copied
      refine (inv.copying copy isCopy).exact unit inside word ?_
      dsimp only at isWord
      rw [isValue, getD_some] at isWord
      exact isValue.trans isWord
    copying := by rintro other ⟨⟩ }

theorem rewrite (idle : ∀ pc ∈ s.backends, pc = .idle) (none : s.copying = none) :
    AggInv base { s with
      page := ⟨s.log.length + 1, words⟩
      log := s.log ++ [.rewrite words] } where
  page := by
    intro unit _
    have zero : pendingSum unit s.backends = BitVec.ofNat type.bits 0 :=
      pendingSum_zero fun pc mem => by rw [idle pc mem]; rfl
    rw [zero, BitVec.add_zero, recordedValue_rewrite]
  pageLsn := by
    rw [length_append]
    exact le_rfl
  backends := by
    intro pc mem
    rw [idle pc mem]
    trivial
  flushed := by
    rw [length_append]
    exact Nat.le_add_right_of_le inv.flushed
  records := by
    intro record mem
    rcases mem_append.mp mem with there | isNew
    · exact inv.records record there
    · cases mem_singleton.mp isNew
      trivial
  disk := inv.disk.later inv.flushed (prefix_append _ _) le_rfl
  copying := by
    intro copy isCopy
    rw [mem_def, none] at isCopy
    cases isCopy

theorem step (allowed : CopiesLogged s label)
    (next_eq : s.step label = some next) : AggInv base next := by
  cases label with
  | add be unit operand =>
    obtain ⟨enabled, ⟨⟩⟩ := ite_none_right_eq_some.mp next_eq
    exact inv.add enabled.1 enabled.2
  | insert be =>
    dsimp only [AggState.step] at next_eq
    split at next_eq
    next found =>
      cases next_eq
      exact inv.insert found
    · cases next_eq
  | setLsn be =>
    dsimp only [AggState.step] at next_eq
    split at next_eq
    next recptr found =>
      cases next_eq
      have within : recptr ≤ s.log.length := inv.backends _ (mem_of_getElem? found)
      exact inv.moved (.raising _ _) found (fun _ => rfl) within inv.pageLsn
    next found =>
      cases next_eq
      exact inv.trySetLsn found
    · cases next_eq
  | flushLog recptr =>
    cases next_eq
    exact inv.flushLog recptr
  | startCopy =>
    obtain ⟨enabled, ⟨⟩⟩ := ite_none_right_eq_some.mp next_eq
    refine inv.setCopying ?_
    rintro copy ⟨⟩
    exact ⟨enabled.2, fun _ _ _ copied => by cases copied⟩
  | copyWords low high =>
    obtain ⟨copy, isCopy, rfl⟩ := map_eq_some_iff.mp next_eq
    refine inv.setCopying ?_
    rintro other ⟨⟩
    exact inv.copyWords isCopy (allowed copy isCopy)
  | endCopy =>
    obtain ⟨copy, isCopy, rest⟩ := bind_eq_some_iff.mp next_eq
    obtain ⟨complete, ⟨⟩⟩ := ite_none_right_eq_some.mp rest
    exact inv.endCopy isCopy complete
  | rewrite words =>
    obtain ⟨enabled, ⟨⟩⟩ := ite_none_right_eq_some.mp next_eq
    exact inv.rewrite enabled.2 (isNone_iff_eq_none.mp enabled.1)

/-- Recovery gives every aggregate its value at the last durable rewrite and all durable
additions. -/
theorem recovers : ∃ page, s.recover = some page ∧ ∀ unit < wordsPerPage,
      aggregate (page.content unit) = recordedValue base (s.log.take s.flushed) unit := by
  have records : ∀ record ∈ s.log.take s.flushed, record.IsAddition :=
    fun record mem => inv.records record (mem_of_mem_take mem)
  have length : (s.log.take s.flushed).length = s.flushed := by
    rw [length_take, Nat.min_eq_left inv.flushed]
  have agrees : Agrees s.disk.content ((([] ++ s.log.take s.flushed).take
        (max ([] : List (AggRecord type)).length s.disk.lsn)).foldl effect base) := by
    intro unit inside
    rw [nil_append, length_nil, Nat.zero_max, take_take,
      Nat.min_eq_left inv.disk.flushed, foldl_effect]
    exact inv.disk.exact unit inside _ rfl
  obtain ⟨page, recovered, exact⟩ :=
    Redo.replay_exact apply_simulates records (by rw [nil_append, length]; exact inv.disk.flushed)
      agrees
  refine ⟨page, recovered, ?_⟩
  intro unit inside
  have value := exact unit inside
  rw [nil_append, foldl_effect] at value
  exact value

end AggInv

/-- In every run in which no word is copied to disk that has an addition without a record at or
before the copied position, a crash at any moment loses no durable addition and repeats none. -/
theorem aggregates_recovered {base : Words type} {count : Nat} {schedule : List (AggLabel type)}
    {s : AggState type}
    (meets : Run.Meets AggState.step CopiesLogged (AggState.start base count) schedule)
    (reached : Run.run AggState.step (AggState.start base count) schedule = some s) :
    ∃ page, s.recover = some page ∧ ∀ unit < wordsPerPage, aggregate (page.content unit) =
        lastRewrite (fun unit => aggregate (base unit)) (s.log.take s.flushed) unit +
          additions unit (sinceRewrite (s.log.take s.flushed)) := by
  have inv : AggInv (fun unit => aggregate (base unit)) s :=
    Run.invariant (AggInv fun unit => aggregate (base unit)) AggInv.step
      (AggInv.start base count) meets reached
  exact inv.recovers

/-- Once every addition has its record and the log is on disk, recovery gives the aggregates that
the page had in memory. -/
theorem page_recovered {base : Words type} {count : Nat} {schedule : List (AggLabel type)}
    {s : AggState type}
    (meets : Run.Meets AggState.step CopiesLogged (AggState.start base count) schedule)
    (reached : Run.run AggState.step (AggState.start base count) schedule = some s)
    (logged : ∀ pc ∈ s.backends, pc.Avoids 0 wordsPerPage) (durable : s.flushed = s.log.length) :
    ∃ page ∈ s.recover, ∀ unit < wordsPerPage,
      aggregate (page.content unit) = aggregate (s.page.content unit) := by
  have inv : AggInv (fun unit => aggregate (base unit)) s :=
    Run.invariant _ AggInv.step (AggInv.start base count) meets reached
  obtain ⟨page, recovered, exact⟩ := inv.recovers
  refine ⟨page, recovered, fun unit inside => ?_⟩
  have none : pendingSum unit s.backends = BitVec.ofNat type.bits 0 :=
    pendingSum_zero fun pc mem => (logged pc mem).pending ⟨Nat.zero_le unit, inside⟩
  rw [exact unit inside, inv.page unit inside, none, BitVec.add_zero, durable, take_length]

/-! ## Interrupted recovery -/

/-- Recovery stops after some records, with the page on disk as it is by then. -/
def AggState.interrupt (s : AggState type) (stop : Nat) : Option (AggState type) :=
  (Redo.replay apply restores 1 s.disk ((s.log.take s.flushed).take stop)).map fun page =>
    { s with disk := page }

theorem AggState.interrupt_recover {s next : AggState type}
    (stopped : s.interrupt stop = some next) : next.recover = s.recover := by
  obtain ⟨page, replayed, rfl⟩ := map_eq_some_iff.mp stopped
  refine Redo.replay_interrupted ?_ replayed
  rintro (_ | words) ⟨⟩ _ _
  rfl

/-- However often recovery is interrupted, in the end it gives the same page. -/
theorem recovery_restarts {s restarted : AggState type} {stops : List Nat}
    (crashes : Run.run AggState.interrupt s stops = some restarted) :
    restarted.recover = s.recover :=
  Run.invariant (fun next => next.recover = s.recover)
    (fun same _ stopped => (AggState.interrupt_recover stopped).trans same) rfl
    (Run.meets_unguarded ..) crashes

/-! ## An addition that is recovered twice -/

/-- One backend adds 5 to an aggregate that is 100.  If the page is copied to disk between the
addition and `XLogInsert`, recovery adds 5 again. -/
def copiedEarly : List (AggLabel .int8) :=
  [.add 0 7 (.insert 5), .startCopy, .copyWords 0 wordsPerPage, .endCopy, .insert 0, .setLsn 0,
    .setLsn 0, .flushLog 1]

/-- The record is durable and its addition is in the page twice. -/
theorem copiedEarly_recovered_twice :
    ((Run.run AggState.step (AggState.start (fun _ => 100) 1) copiedEarly).bind fun s =>
      s.recover.map fun page =>
        (s.log.length, s.flushed, aggregate (page.content 7),
          recordedValue (fun _ => 100) (s.log.take s.flushed) 7)) =
      some (1, 1, 110, 105) := by
  decide +kernel

/-- Two backends; the page is copied when both have raised its position, and a third addition comes
after that. -/
def copiedLate : List (AggLabel .int8) :=
  [.add 0 7 (.insert 5), .add 1 7 (.vacuum 3), .insert 1, .insert 0, .setLsn 0, .setLsn 0,
    .setLsn 1, .setLsn 1, .flushLog 2, .startCopy, .copyWords 0 wordsPerPage,
    .add 0 7 (.insert 20), .endCopy, .insert 0, .flushLog 3]

theorem copiedLate_recovered : ∃ s : AggState .int8,
      Run.run AggState.step (AggState.start (fun _ => 100) 2) copiedLate = some s ∧
      ∃ page, s.recover = some page ∧ ∀ unit < wordsPerPage, aggregate (page.content unit) =
          lastRewrite (fun _ => aggregate (100 : BitVec AggType.int8.word))
              (s.log.take s.flushed) unit +
            additions unit (sinceRewrite (s.log.take s.flushed)) := by
  have ends : (Run.run AggState.step (AggState.start (fun _ => 100) 2) copiedLate).isSome := by
    decide +kernel
  have meets : Run.Meets AggState.step CopiesLogged (AggState.start (fun _ => 100) 2) copiedLate := by
    decide +kernel
  exact ⟨_, Run.run_last ends, aggregates_recovered meets (Run.run_last ends)⟩

theorem copiedLate_page :
    let s := Run.last AggState.step (AggState.start (fun _ => 100) 2) copiedLate
    ∃ page ∈ s.recover, ∀ unit < wordsPerPage,
      aggregate (page.content unit) = aggregate (s.page.content unit) :=
  page_recovered (by decide +kernel) (Run.run_last (by decide +kernel)) (by decide +kernel)
    (by decide +kernel)

theorem copiedLate_restarts :
    let s := Run.last AggState.step (AggState.start (fun _ => 100) 2) copiedLate
    (Run.last AggState.interrupt s [1, 3, 0]).recover = s.recover :=
  recovery_restarts (Run.run_last (by decide +kernel))

end PgAqp.Wal
