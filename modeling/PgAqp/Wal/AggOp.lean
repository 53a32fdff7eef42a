import Mathlib.Data.List.Induction
import Mathlib.Data.Nat.Bitwise
import PgAqp.Library.Redo
import PgAqp.Library.Run

/-!
# Additions to aggregates under a share lock, and recovery

Insertions and vacuum add to the aggregates of an internal page with atomic
instructions while they hold a share lock on the page.  Each of them changes the
page, inserts a record into the log and then raises the log position of the page.

A page is its words.  An aggregate is in the low bits of a word: a 16 bit
aggregate shares its word with two unused bytes.
-/

namespace PgAqp.Wal

open Library Function List

inductive AggType where
  | int2
  | int4
  | int8
  deriving DecidableEq, Repr

namespace AggType

/-- The bits of the aggregate: eight times `agg_typlen`. -/
def bits : AggType → Nat
  | .int2 => 16
  | .int4 => 32
  | .int8 => 64

/-- The bits of the word that the atomic instruction works on. -/
def word : AggType → Nat
  | .int2 => 32
  | .int4 => 32
  | .int8 => 64

theorem bits_le_word (type : AggType) : type.bits ≤ type.word := by
  cases type with
  | int2 => decide
  | int4 => decide
  | int8 => decide

end AggType

/-- The words of a page, by a quarter of their offset. -/
abbrev Words (type : AggType) := Nat → BitVec type.word

abbrev Aggregates (type : AggType) := Nat → BitVec type.bits

/-- The words of a page of `BLCKSZ` bytes. -/
def wordsPerPage : Nat := 2048

variable {type : AggType}

def aggregate (word : BitVec type.word) : BitVec type.bits := word.setWidth type.bits

inductive Operand (type : AggType) where
  /-- `_abt_fix_path_aggregation_itup` adds the value of the new row. -/
  | insert (dval : BitVec type.bits)
  /-- `_abt_decrement_aggs_for_vacuum` subtracts the sum of the deleted rows. -/
  | vacuum (deletedSum : BitVec type.bits)
  deriving DecidableEq, Repr

namespace Operand

def atomic : Operand type → BitVec type.word
  | insert dval => dval.signExtend type.word
  | vacuum deletedSum => -deletedSum.signExtend type.word

def logged : Operand type → BitVec type.bits
  | insert dval => dval
  | vacuum deletedSum => -deletedSum

end Operand

theorem aggregate_signExtend (value : BitVec type.bits) :
    aggregate (value.signExtend type.word) = value := by
  apply BitVec.eq_of_getLsbD_eq
  intro place inside
  have within : place < type.word := inside.trans_le type.bits_le_word
  rw [aggregate, BitVec.getLsbD_setWidth, BitVec.getLsbD_signExtend]
  simp [inside, within]

theorem aggregate_add (first second : BitVec type.word) :
    aggregate (first + second) = aggregate first + aggregate second :=
  BitVec.setWidth_add first second type.bits_le_word

/-- Both additions change the aggregate by what is logged. -/
theorem aggregate_atomic (operand : Operand type) : aggregate operand.atomic = operand.logged := by
  cases operand with
  | insert dval => exact aggregate_signExtend dval
  | vacuum deletedSum =>
    rw [Operand.atomic, Operand.logged, aggregate, BitVec.setWidth_neg_of_le type.bits_le_word]
    exact congrArg Neg.neg (aggregate_signExtend deletedSum)

/-- `abt_create_agg_op`: the number of the operation, and the offset without its last two bits. -/
def createAggOp (opno off : Nat) : UInt16 :=
  UInt16.ofNat ((opno <<< 13) ||| ((off >>> 2) &&& 0x1fff))

/-- `ABTGetXLogAggOpNumber`. -/
def aggOpNumber (info : UInt16) : Nat := info.toNat >>> 13

/-- `ABTGetXLogAggOpOffset`. -/
def aggOpOffset (info : UInt16) : Nat := (info.toNat &&& 0x1fff) <<< 2

theorem createAggOp_toNat (inside : unit < wordsPerPage) :
    (createAggOp 0 (4 * unit)).toNat = unit := by
  have small : unit < 2048 := inside
  have quarter : (4 * unit) >>> 2 = unit := by omega
  have masked : unit &&& 0x1fff = unit := by
    have mask : unit &&& (2 ^ 13 - 1) = unit % 2 ^ 13 := Nat.and_two_pow_sub_one_eq_mod unit 13
    rw [Nat.mod_eq_of_lt (by omega)] at mask
    exact mask
  rw [createAggOp, quarter, masked, Nat.zero_shiftLeft, Nat.zero_or, UInt16.toNat_ofNat']
  exact Nat.mod_eq_of_lt (by omega)

theorem aggOp_create (inside : unit < wordsPerPage) : aggOpNumber (createAggOp 0 (4 * unit)) = 0 ∧
      aggOpOffset (createAggOp 0 (4 * unit)) = 4 * unit := by
  have small : unit < 2048 := inside
  have mask : unit &&& (2 ^ 13 - 1) = unit % 2 ^ 13 := Nat.and_two_pow_sub_one_eq_mod unit 13
  have masked : unit &&& 0x1fff = unit := by
    rw [Nat.mod_eq_of_lt (by omega)] at mask
    exact mask
  constructor
  · rw [aggOpNumber, createAggOp_toNat inside, Nat.shiftRight_eq_div_pow]
    exact Nat.div_eq_of_lt (by omega)
  · rw [aggOpOffset, createAggOp_toNat inside, masked, Nat.shiftLeft_eq]
    exact Nat.mul_comm unit 4

inductive AggRecord (type : AggType) where
  /-- `XLOG_ABTREE_AGG_OP`. -/
  | aggOp (info : UInt16) (newValue : BitVec type.bits)
  /-- A record from which the whole page is restored. -/
  | rewrite (words : Words type)

namespace AggRecord

def restores : AggRecord type → Bool
  | aggOp _ _ => false
  | rewrite _ => true

/-- `abt_redo_agg_op` on the words of the page; an unknown operation is a panic. -/
def apply (words : Words type) : AggRecord type → Option (Words type)
  | rewrite restored => some restored
  | aggOp info newValue =>
    let unit := aggOpOffset info / 4
    match aggOpNumber info with
    | 0 => some (update words unit (words unit + newValue.signExtend type.word))
    | 1 =>
      -- Only the bytes of the value are written.
      some (update words unit
        ((words unit >>> type.bits <<< type.bits) ||| newValue.zeroExtend type.word))
    | _ => none

def addend (unit : Nat) : AggRecord type → BitVec type.bits
  | aggOp info newValue => if aggOpOffset info / 4 = unit then newValue else BitVec.ofNat type.bits 0
  | rewrite _ => BitVec.ofNat type.bits 0

end AggRecord

def additions (unit : Nat) : List (AggRecord type) → BitVec type.bits
  | [] => BitVec.ofNat type.bits 0
  | record :: records => record.addend unit + additions unit records

variable (base : Aggregates type) (records : List (AggRecord type))

def lastRewrite : Aggregates type :=
  records.foldl (fun aggregates record =>
    match record with
    | .rewrite words => fun unit => aggregate (words unit)
    | .aggOp _ _ => aggregates) base

def sinceRewrite : List (AggRecord type) :=
  records.foldl (fun since record =>
    match record with
    | .rewrite _ => []
    | .aggOp _ _ => since ++ [record]) []

/-- The value at the last full rewrite, plus all additions since. -/
def recordedValue : Aggregates type :=
  fun unit => lastRewrite base records unit + additions unit (sinceRewrite records)

theorem additions_append (unit : Nat) (first second : List (AggRecord type)) :
    additions unit (first ++ second) = additions unit first + additions unit second := by
  induction first with
  | nil => rw [nil_append, additions, BitVec.zero_add]
  | cons record rest ih => rw [cons_append, additions, additions, ih, BitVec.add_assoc]

theorem recordedValue_rewrite (words : Words type) (unit : Nat) :
    recordedValue base (records ++ [.rewrite words]) unit = aggregate (words unit) := by
  simp only [recordedValue, lastRewrite, sinceRewrite, foldl_append, foldl_cons,
    foldl_nil, additions, BitVec.add_zero]

theorem recordedValue_aggOp (info : UInt16) (newValue : BitVec type.bits) (unit : Nat) :
    recordedValue base (records ++ [.aggOp info newValue]) unit =
      recordedValue base records unit + (AggRecord.aggOp info newValue).addend unit := by
  simp only [recordedValue, lastRewrite, sinceRewrite, foldl_append, foldl_cons,
    foldl_nil, additions_append, additions, BitVec.add_zero, BitVec.add_assoc]

def effect (aggregates : Aggregates type) (record : AggRecord type) : Aggregates type :=
  match record with
  | .rewrite words => fun unit => aggregate (words unit)
  | .aggOp _ _ => fun unit => aggregates unit + record.addend unit

theorem foldl_effect : records.foldl effect base = recordedValue base records := by
  induction records using reverseRecOn with
  | nil =>
    funext unit
    exact (BitVec.add_zero _).symm
  | append_singleton records record ih =>
    rw [foldl_append, foldl_cons, foldl_nil, ih]
    funext unit
    cases record with
    | rewrite words => exact (recordedValue_rewrite base records words unit).symm
    | aggOp info newValue => exact (recordedValue_aggOp base records info newValue unit).symm

def Agrees (words : Words type) (aggregates : Aggregates type) : Prop :=
  ∀ unit < wordsPerPage, aggregate (words unit) = aggregates unit

def AggRecord.IsAddition : AggRecord type → Prop
  | .aggOp info _ => aggOpNumber info = 0
  | .rewrite _ => True

/-- Redo does to the words what the records say. -/
theorem apply_simulates : Redo.Simulates (@AggRecord.apply type) AggRecord.restores Agrees effect
      AggRecord.IsAddition where
  applies := by
    intro words aggregates record isAddition agrees
    cases record with
    | rewrite restored => exact ⟨restored, rfl, fun unit _ => rfl⟩
    | aggOp info newValue =>
      have num : aggOpNumber info = 0 := isAddition
      refine ⟨_, by simp only [AggRecord.apply, num]; rfl, ?_⟩
      intro unit inside
      have pre := agrees unit inside
      simp only [effect, AggRecord.addend, update_apply]
      by_cases here : unit = aggOpOffset info / 4
      · rw [if_pos here, if_pos here.symm, ← here, aggregate_add, aggregate_signExtend, pre]
      · rw [if_neg here, if_neg (Ne.symm here), BitVec.add_zero, pre]
  restored := by
    intro words aggregates record _ restoring
    cases record with
    | rewrite restored => exact ⟨restored, rfl, fun unit _ => rfl⟩
    | aggOp info newValue => cases restoring

end PgAqp.Wal
