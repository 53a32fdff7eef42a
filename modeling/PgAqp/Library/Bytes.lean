import Mathlib.Data.Nat.ModEq
import Mathlib.Data.List.Basic
import Mathlib.Tactic.Ring

/-!
# Pieces of memory

Reads and writes of a block of bytes at an offset, with no result outside the
block, and little-endian numbers of a fixed width.
-/

namespace PgAqp.Library

open List Option

abbrev Bytes := List UInt8

namespace Bytes

/-- The bytes from an offset on, if all of them are inside the block. -/
def read (m : Bytes) (off length : Int) : Option Bytes :=
  if 0 ≤ off ∧ 0 ≤ length ∧ off + length ≤ m.length then
    some ((m.drop off.toNat).take length.toNat)
  else none

/-- Overwrite the bytes from an offset on, if all of them are inside the block. -/
def write (m : Bytes) (off : Int) (source : Bytes) : Option Bytes :=
  if 0 ≤ off ∧ off + source.length ≤ m.length then
    some (m.take off.toNat ++ source ++ m.drop (off.toNat + source.length))
  else none

/-- `memmove` inside one block. -/
def move (m : Bytes) (target source length : Int) : Option Bytes :=
  (m.read source length).bind (m.write target)

variable {m res : Bytes} {off length : Int} {source : Bytes} {width : Nat}

theorem length_of_read (loaded : m.read off length = some res) : (res.length : Int) = length := by
  obtain ⟨inside, ⟨⟩⟩ := ite_none_right_eq_some.mp loaded
  rw [length_take, length_drop]
  omega

theorem length_of_write (written : m.write off source = some res) : res.length = m.length := by
  obtain ⟨inside, ⟨⟩⟩ := ite_none_right_eq_some.mp written
  simp only [length_append, length_take, length_drop]
  omega

theorem length_of_move {target source : Int} (moved : m.move target source length = some res) :
    res.length = m.length := by
  obtain ⟨bytes, -, written⟩ := bind_eq_some_iff.mp moved
  exact length_of_write written

theorem read_of_write (written : m.write off source = some res) :
    res.read off source.length = some source := by
  have total := length_of_write written
  obtain ⟨inside, written⟩ := ite_none_right_eq_some.mp written
  have start : (m.take off.toNat).length = off.toNat := by
    rw [length_take]
    omega
  have room : 0 ≤ off ∧ 0 ≤ (source.length : Int) ∧ off + source.length ≤ res.length := by omega
  unfold read
  rw [if_pos room]
  cases written
  rw [append_assoc, drop_left' start, Int.toNat_natCast, take_left' rfl]

theorem write_of_read (loaded : m.read off length = some source) : m.write off source = some m := by
  have total := length_of_read loaded
  obtain ⟨inside, ⟨⟩⟩ := ite_none_right_eq_some.mp loaded
  unfold write
  rw [if_pos ⟨inside.1, by omega⟩]
  have rest : m.drop (off.toNat + ((m.drop off.toNat).take length.toNat).length) =
      (m.drop off.toNat).drop length.toNat := by
    rw [drop_drop]
    congr 1
    omega
  rw [rest, append_assoc, take_append_drop, take_append_drop]

/-- The little-endian bytes of a number, modulo the width. -/
def ofNat : Nat → Nat → Bytes
  | 0, _ => []
  | width + 1, value => UInt8.ofNat value :: ofNat width (value / 256)

def toNat : Bytes → Nat
  | [] => 0
  | byte :: rest => byte.toNat + 256 * toNat rest

@[simp] theorem length_ofNat (width value : Nat) : (ofNat width value).length = width := by
  induction width generalizing value with
  | zero => rfl
  | succ width ih => rw [ofNat, length_cons, ih]

theorem toNat_ofNat (width value : Nat) : toNat (ofNat width value) = value % 256 ^ width := by
  induction width generalizing value with
  | zero => simp [ofNat, toNat, Nat.mod_one]
  | succ width ih =>
    have low : (UInt8.ofNat value).toNat = value % 256 := UInt8.toNat_ofNat'
    rw [ofNat, toNat, ih, low, Nat.pow_succ', Nat.mod_mul]

theorem toNat_ofNat_of_lt (small : value < 256 ^ width) : toNat (ofNat width value) = value := by
  rw [toNat_ofNat, Nat.mod_eq_of_lt small]

def ofArray (width : Nat) (values : List Nat) : Bytes :=
  values.flatMap (ofNat width)

/-- The first entries of an array, and what follows it. -/
def takeArray (width : Nat) : Nat → Bytes → List Nat × Bytes
  | 0, m => ([], m)
  | count + 1, m =>
    let rest := takeArray width count (m.drop width)
    (toNat (m.take width) :: rest.1, rest.2)

theorem takeArray_ofArray (small : ∀ value ∈ values, value < 256 ^ width) (rest : Bytes) :
    takeArray width values.length (ofArray width values ++ rest) = (values, rest) := by
  induction values with
  | nil => rfl
  | cons value values ih =>
    have first : (ofNat width value).length = width := length_ofNat width value
    have later : ∀ other ∈ values, other < 256 ^ width :=
      fun other mem => small other (mem_cons_of_mem value mem)
    rw [length_cons, takeArray, ofArray, flatMap_cons, append_assoc,
      drop_left' first, take_left' first,
      toNat_ofNat_of_lt (small value mem_cons_self)]
    have tail := ih later
    rw [ofArray] at tail
    rw [tail]

/-! ## Arrays inside a block of memory

An array is a run of cells, each a fixed distance behind the one before it and at most
as wide as that distance.  A new cell is put into the middle of a full array by moving
the cells from there on one place to the right, over the last one.
-/

variable {place : Int}

theorem read_congr {first second : Bytes} (start : 0 ≤ off) (inside : off + length ≤ first.length)
    (start' : 0 ≤ place) (inside' : place + length ≤ second.length)
    (same : ∀ step : Nat, (step : Int) < length →
      first[off.toNat + step]? = second[place.toNat + step]?) :
    first.read off length = second.read place length := by
  unfold read
  by_cases positive : 0 ≤ length
  · rw [if_pos ⟨start, positive, inside⟩, if_pos ⟨start', positive, inside'⟩]
    congr 1
    apply ext_getElem?
    intro step
    rw [getElem?_take, getElem?_take]
    split
    · rw [getElem?_drop, getElem?_drop]
      exact same step (by omega)
    · rfl
  · rw [if_neg (by omega), if_neg (by omega)]

theorem exists_read (m : Bytes) (start : 0 ≤ off)
    (positive : 0 ≤ length) (inside : off + length ≤ m.length) :
    ∃ bytes, m.read off length = some bytes ∧ (bytes.length : Int) = length := by
  have loaded : ∃ bytes, m.read off length = some bytes := ⟨_, if_pos ⟨start, positive, inside⟩⟩
  obtain ⟨bytes, loaded⟩ := loaded
  exact ⟨bytes, loaded, length_of_read loaded⟩

theorem exists_write (m source : Bytes) (start : 0 ≤ off)
    (inside : off + source.length ≤ m.length) :
    ∃ res, m.write off source = some res :=
  ⟨_, if_pos ⟨start, inside⟩⟩

variable (written : m.write off source = some res)
include written

theorem write_bounds : 0 ≤ off ∧ off + source.length ≤ m.length := by
  unfold write at written
  split at written
  · assumption
  · cases written

theorem getElem?_of_write (place : Nat) : res[place]? =
      if off.toNat ≤ place ∧ place < off.toNat + source.length then
        source[place - off.toNat]?
      else m[place]? := by
  obtain ⟨start, inside⟩ := write_bounds written
  have pre : (m.take off.toNat).length = off.toNat := by
    rw [length_take]
    omega
  unfold write at written
  rw [if_pos ⟨start, inside⟩] at written
  cases written
  rw [append_assoc]
  by_cases left : place < off.toNat
  · rw [if_neg (by omega), getElem?_append_left (by omega), getElem?_take, if_pos left]
  · rw [getElem?_append_right (by omega), pre]
    by_cases right : place - off.toNat < source.length
    · rw [if_pos (by omega), getElem?_append_left right]
    · rw [if_neg (by omega), getElem?_append_right (by omega), getElem?_drop]
      congr 1
      omega

theorem read_beside_write (apart : place + length ≤ off ∨ off + source.length ≤ place) :
    res.read place length = m.read place length := by
  have total := length_of_write written
  obtain ⟨offsetStart, -⟩ := write_bounds written
  by_cases inside : 0 ≤ place ∧ place + length ≤ m.length
  · refine read_congr inside.1 (by omega) inside.1 inside.2 fun step small => ?_
    rw [getElem?_of_write written, if_neg (by omega)]
  · unfold read
    rw [if_neg (by omega), if_neg (by omega)]

theorem read_inside_write (start : off ≤ place) (inside : place + length ≤ off + source.length) :
    res.read place length = source.read (place - off) length := by
  have total := length_of_write written
  obtain ⟨offsetStart, offsetInside⟩ := write_bounds written
  refine read_congr (by omega) (by omega) (by omega) (by omega) fun step small => ?_
  rw [getElem?_of_write written, if_pos (by omega)]
  congr 1
  omega

omit written

theorem read_inside_read {count : Int} (loaded : m.read off length = some bytes)
    (start : 0 ≤ place) (inside : place + count ≤ length) :
    bytes.read place count = m.read (off + place) count := by
  have total := length_of_read loaded
  obtain ⟨bounds, ⟨⟩⟩ := ite_none_right_eq_some.mp loaded
  refine read_congr start (by omega) (by omega) (by omega) fun step small => ?_
  rw [getElem?_take, if_pos (by omega), getElem?_drop]
  congr 1
  omega

/-- How a place of memory is read: an offset and a length. -/
abbrev Reader := Int → Int → Option Bytes

/-- A new cell was put into an array of `count` cells at `index`, and the last one was lost. -/
def Inserted (old new : Reader) (base stride width : Int) (count i : Nat) (value : Bytes) :
    Prop :=
  ∀ place : Nat, place < count → new (base + stride * place) width =
    if place < i then old (base + stride * place) width
    else if place = i then some value
    else old (base + stride * (place - 1 : Nat)) width

def SameOutside (old new : Reader) (low high : Int) : Prop :=
  ∀ place length : Int, place + length ≤ low ∨ high ≤ place → new place length = old place length

variable {base stride width : Int} {count : Nat}

theorem SameOutside.trans
    (left : SameOutside first second low high) (right : SameOutside second third low' high') :
    SameOutside first third (min low low') (max high high') := by
  intro place length apart
  rw [right place length (by omega), left place length (by omega)]

theorem SameOutside.cell (same : SameOutside old new low high)
    (positive : 0 ≤ stride) (narrow : width ≤ stride)
    (apart : base + stride * count ≤ low ∨ high ≤ base) {place : Nat} (inside : place < count) :
    new (base + stride * place) width = old (base + stride * place) width := by
  obtain ⟨rest, rfl⟩ : ∃ rest, count = place + 1 + rest := ⟨count - (place + 1), by omega⟩
  have low : 0 ≤ stride * place := Int.mul_nonneg positive (by omega)
  have high : 0 ≤ stride * rest := Int.mul_nonneg positive (by omega)
  have whole : stride * ((place + 1 + rest : Nat) : Int) =
      stride * place + stride + stride * rest := by
    push_cast
    ring
  exact same _ _ (by omega)

/-- Changes beside the array before and after the insertion do not matter. -/
theorem Inserted.between (inserted : Inserted second third base stride width count i value)
    (pre : ∀ place : Nat, place < count →
      second (base + stride * place) width = first (base + stride * place) width)
    (behind : ∀ place : Nat, place < count →
      fourth (base + stride * place) width = third (base + stride * place) width) :
    Inserted first fourth base stride width count i value := by
  intro place inside
  rw [behind place inside, inserted place inside, pre place inside, pre (place - 1) (by omega)]

/-- One `memmove` and one `memcpy` put a new cell into an array. -/
theorem exists_inserted
    (start : 0 ≤ base) (narrow : width ≤ stride) (sized : (value.length : Int) = width)
    (inside : base + stride * count ≤ m.length) (small : i < count) :
    ∃ moved res, m.move (base + stride * (i + 1)) (base + stride * i)
        ((count - i - 1) * stride) = some moved ∧
      moved.write (base + stride * i) value = some res ∧
      res.length = m.length ∧
      Inserted m.read res.read base stride width count i value ∧
      SameOutside m.read res.read base (base + stride * count) := by
  have positive : 0 ≤ stride := by omega
  obtain ⟨rest, rfl⟩ : ∃ rest, count = i + 1 + rest := ⟨count - (i + 1), by omega⟩
  have low : 0 ≤ stride * i := Int.mul_nonneg positive (by omega)
  have high : 0 ≤ rest * stride := Int.mul_nonneg (by omega) positive
  have whole : stride * ((i + 1 + rest : Nat) : Int) = stride * i + stride + rest * stride := by
    push_cast
    ring
  have next : stride * ((i : Int) + 1) = stride * i + stride := by ring
  have moveLength : (((i + 1 + rest : Nat) : Int) - i - 1) * stride = rest * stride := by
    push_cast
    ring
  rw [next, moveLength, whole]
  obtain ⟨bytes, loaded, bytesLength⟩ := m.exists_read
    (by omega : 0 ≤ base + stride * i) high (by omega)
  obtain ⟨moved, isMoved⟩ := m.exists_write bytes
    (by omega : 0 ≤ base + (stride * i + stride)) (by omega)
  have movedLength := length_of_write isMoved
  obtain ⟨res, isResult⟩ := moved.exists_write value (by omega : 0 ≤ base + stride * i) (by omega)
  refine ⟨moved, res, ?_, isResult, (length_of_write isResult).trans movedLength, ?_, ?_⟩
  · rw [move, loaded]
    exact isMoved
  · intro place below
    split
    · obtain ⟨gap, rfl⟩ : ∃ gap, i = place + 1 + gap := ⟨i - (place + 1), by omega⟩
      have room : 0 ≤ stride * gap := Int.mul_nonneg positive (by omega)
      have far : stride * ((place + 1 + gap : Nat) : Int) =
          stride * place + stride + stride * gap := by
        push_cast
        ring
      rw [read_beside_write isResult (by omega), read_beside_write isMoved (by omega)]
    · split
      next here =>
        rw [here, ← sized]
        exact read_of_write isResult
      · -- the cell comes from the place before it
        obtain ⟨gap, rfl⟩ : ∃ gap, place = i + gap + 1 := ⟨place - (i + 1), by omega⟩
        obtain ⟨room, rfl⟩ : ∃ room, rest = gap + 1 + room := ⟨rest - (gap + 1), by omega⟩
        have gapSize : 0 ≤ stride * gap := Int.mul_nonneg positive (by omega)
        have roomSize : 0 ≤ stride * room := Int.mul_nonneg positive (by omega)
        have target : stride * ((i + gap + 1 : Nat) : Int) =
            stride * i + stride + stride * gap := by
          push_cast
          ring
        have source : stride * ((i + gap + 1 - 1 : Nat) : Int) = stride * i + stride * gap := by
          push_cast
          ring
        have bytesSize : (bytes.length : Int) = stride * gap + stride + stride * room := by
          rw [bytesLength]
          push_cast
          ring
        rw [target, source, read_beside_write isResult (by omega),
          read_inside_write isMoved (by omega) (by omega),
          read_inside_read loaded (by omega) (by omega)]
        congr 1
        omega
  · intro place length apart
    rw [read_beside_write isResult (by omega), read_beside_write isMoved (by omega)]

end Bytes

end PgAqp.Library
