import PgAqp.Abtree.IndexTuple
import PgAqp.Mmgr.SharedSlab

/-!
# Item pointers and the tables of chunks

An item pointer has the number of a chunk above the offset inside it.  The tables of chunks
start behind the size of a whole table, so only as many entries are inside the memory as
the structure before it has words.
-/

namespace PgAqp.Mmgr

open Abtree

/-- `SHARED_SLAB_PTR_GET_CHUNK_NUM`. -/
def ptrGetChunkNum (ptr : Nat) : Nat := (ptr / chunkAllocSize + (2 ^ 64 - 1)) % 2 ^ 64

/-- `SHARED_SLAB_PTR_GET_OFFSET`. -/
def ptrGetOffset (ptr : Nat) : Nat := ptr % chunkAllocSize

/-- `SHARED_SLAB_CHUNK_NUM_OFFSET_GET_PTR`. -/
def chunkNumOffsetGetPtr (chunkNum off : Nat) : Nat :=
  ((chunkNum + 1) * chunkAllocSize + off) % 2 ^ 64

/-- `SHARED_SLAB_MAX_NUM_CHUNKS`. -/
def maxNumChunks : Nat := 64

/-- The memory that is reserved for a structure and the table after it. -/
def reserved (struct : Nat) : Nat := struct + 8 * maxNumChunks

/-- Where `shared_slab_init` lets an entry of a table start. -/
def entryAt (chunkNum : Nat) : Nat := 8 * maxNumChunks + 8 * chunkNum

/-- The size of `shared_slab_shared_header`. -/
def sharedHeaderSize : Nat := 72

/-- The size of `shared_slab`. -/
def slabSize : Nat := 64

/-- `new_chunk` after `shared_slab_allocate_new_chunk` has made some chunks. -/
def newChunkAfter : Nat → Nat
  | 0 => 0
  | made + 1 => chunkNumOffsetGetPtr ((ptrGetChunkNum (newChunkAfter made) + 1) % 2 ^ 64) 0

/-- The accesses to the entries of a chunk are inside the memory, and the pointers to its items
are good. -/
structure ChunkOk (itemsz chunkNum : Nat) : Prop where
  shared : entryAt chunkNum + 8 ≤ reserved sharedHeaderSize
  own : entryAt chunkNum + 8 ≤ reserved slabSize
  pointers : ∀ items, let off := items * (maxalign itemsz).toNat
    off + (maxalign itemsz).toNat ≤ chunkAllocSize →
      let ptr := chunkNumOffsetGetPtr chunkNum off
      ptrGetChunkNum ptr = chunkNum ∧ ptrGetOffset ptr = off ∧ ptr ≠ 0 ∧ ptr % 8 = 0

def ChunksOk (itemsz chunks : Nat) : Prop :=
  ∀ made < chunks, ChunkOk itemsz (ptrGetChunkNum (newChunkAfter (made + 1)))

theorem chunkNum_of_made (few : made < 8) : ptrGetChunkNum (newChunkAfter (made + 1)) = made := by
  revert made
  decide

theorem chunkOk (few : chunkNum < 8) : ChunkOk itemsz chunkNum where
  shared := by unfold entryAt reserved sharedHeaderSize; omega
  own := by unfold entryAt reserved slabSize; omega
  pointers items := by
    have aligned : (maxalign itemsz).toNat % 8 = 0 := by unfold maxalign typealign; omega
    have positive : (maxalign itemsz).toNat = 0 → items * (maxalign itemsz).toNat = 0 := by
      intro none
      rw [none, Nat.mul_zero]
    have multiple : items * (maxalign itemsz).toNat % 8 = 0 := by
      rw [Nat.mul_mod, aligned]
      rfl
    unfold ptrGetChunkNum ptrGetOffset chunkNumOffsetGetPtr chunkAllocSize
    omega

/-- Only the first eight chunks have their entries in the table of a backend. -/
theorem chunksOk_iff (itemsz chunks : Nat) : ChunksOk itemsz chunks ↔ chunks ≤ 8 := by
  constructor
  · intro ok
    by_contra many
    have outside := (ok 8 (by omega)).own
    revert outside
    decide
  · intro few made below
    rw [chunkNum_of_made (by omega)]
    exact chunkOk (by omega)

theorem ninth_chunk_outside : ¬ ChunksOk 8 9 ∧
    reserved slabSize = entryAt (ptrGetChunkNum (newChunkAfter 9)) :=
  ⟨fun ok => absurd (ok 8 (by decide)).own (by decide), by decide⟩

end PgAqp.Mmgr
