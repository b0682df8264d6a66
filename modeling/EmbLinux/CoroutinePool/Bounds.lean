import EmbLinux.CoroutinePool.Accounting
import EmbLinux.Lib.Ranges

/-!
# EmbLinux — the boundaries of `CoroutinePoolAllocator::init`

`init` rounds the block size up to the alignment, multiplies it by the number of blocks
and writes the `next` fields of the blocks, the first of them without a test. `InBounds`
says that all of this stays in the memory that `new` returned.

* `init_in_bounds` — it does exactly for the arguments that are `Representable`: at least
  one block, and no sum or product that wraps. If it does not, then the block size is 0,
  or the blocks of the free list do not fit into the buffer.
* `init_without_blocks` — a pool of no blocks writes to a buffer of no bytes.

`operator new` is not modelled beyond the length of what it returns; that it returns a buffer
that is not null is a hypothesis of `inBounds_of_representable`.
-/

namespace EmbLinux.CoroutinePool

variable {max_coroutines block_size buffer : Nat} {pool : Pool}

/-- What `init` leaves: blocks of the size asked for, and a free list of all of them in
the buffer, in which it has made all of its stores. -/
structure InBounds (pool : Pool) (max_coroutines block_size buffer : Nat) : Prop where
  size : max block_size sizeofBlock ≤ (pool.init max_coroutines block_size (some buffer)).blockSize
  stores : ∀ field ∈
    linkStores buffer (roundBlockSize block_size) buffer 1 (max_coroutines - 1),
    Inside buffer (bufferBytes max_coroutines block_size) sizeofBlock field.1
  list : ∃ blocks, Linked (pool.init max_coroutines block_size (some buffer)).next 0
      (pool.init max_coroutines block_size (some buffer)).freeList blocks ∧
    blocks.length = max_coroutines ∧
    blocks.Pairwise (Apart (pool.init max_coroutines block_size (some buffer)).blockSize) ∧
    ∀ b ∈ blocks, Inside buffer (bufferBytes max_coroutines block_size)
      (pool.init max_coroutines block_size (some buffer)).blockSize b

/-- There is a block, and neither the block size, rounded up to the alignment, nor the
size of the buffer exceeds `size_t`. -/
def Representable (max_coroutines block_size : Nat) : Prop :=
  1 ≤ max_coroutines ∧ block_size + 15 < 2 ^ 64 ∧
    max_coroutines * ((max block_size 8 + 15) / 16 * 16) < 2 ^ 64

instance (max_coroutines block_size : Nat) : Decidable (Representable max_coroutines block_size) :=
  inferInstanceAs (Decidable (_ ∧ _ ∧ _))

-- ---------------------------------------------------------------------------
-- The rounded size
-- ---------------------------------------------------------------------------

/-- Without wrap-around the mask rounds up to the next multiple of the alignment. -/
theorem roundBlockSize_eq (h : block_size + 15 < 2 ^ 64) :
    roundBlockSize block_size = (max block_size 8 + 15) / 16 * 16 := by
  have hSize : (if block_size < sizeofBlock then sizeofBlock else block_size) =
      max block_size 8 := by
    unfold sizeofBlock
    split <;> omega
  have hSmall : max block_size 8 + alignofMaxAlign - 1 < sizeModulus := by
    unfold alignofMaxAlign sizeModulus
    omega
  unfold roundBlockSize
  rw [hSize]
  dsimp only
  rw [Nat.mod_eq_of_lt hSmall, and_alignMask hSmall]
  simp only [alignofMaxAlign]
  omega

/-- With it nothing is left of the size. -/
theorem roundBlockSize_eq_zero (hBlock : block_size < 2 ^ 64) (h : 2 ^ 64 ≤ block_size + 15) :
    roundBlockSize block_size = 0 := by
  have hSize : (if block_size < sizeofBlock then sizeofBlock else block_size) = block_size := by
    rw [if_neg]
    unfold sizeofBlock
    omega
  have hWrap : (block_size + alignofMaxAlign - 1) % sizeModulus = block_size + 15 - 2 ^ 64 := by
    unfold alignofMaxAlign sizeModulus
    omega
  unfold roundBlockSize
  rw [hSize]
  dsimp only
  rw [hWrap, and_alignMask (by unfold sizeModulus; omega)]
  omega

/-- Representable arguments do not wrap, so `pool_contract` is about them. -/
theorem noOverflow_of_representable (h : Representable max_coroutines block_size) :
    NoOverflow max_coroutines block_size := by
  obtain ⟨-, hBlock, hBytes⟩ := h
  refine ⟨?_, ?_⟩
  · unfold alignofMaxAlign sizeModulus
    omega
  · rw [roundBlockSize_eq hBlock]
    exact hBytes

-- ---------------------------------------------------------------------------
-- Inside the buffer
-- ---------------------------------------------------------------------------

/-- The blocks fit into the memory behind any buffer that is not null. -/
theorem fits_of_representable (h : Representable max_coroutines block_size) (hNull : buffer ≠ 0) :
    Fits buffer (roundBlockSize block_size) max_coroutines := by
  have hNoOverflow := noOverflow_of_representable h
  exact ⟨hNull, (le_roundBlockSize hNoOverflow.1).2, hNoOverflow.2⟩

/-- The buffer is as long as its blocks. -/
theorem bufferBytes_eq (h : Representable max_coroutines block_size) :
    bufferBytes max_coroutines block_size = max_coroutines * roundBlockSize block_size :=
  Nat.mod_eq_of_lt (noOverflow_of_representable h).2

/-- So `init` stays inside the buffer. -/
theorem inBounds_of_representable (hUninit : pool.initialized = false) (hNull : buffer ≠ 0)
    (h : Representable max_coroutines block_size) :
    InBounds pool max_coroutines block_size buffer := by
  have hFits := fits_of_representable h hNull
  have hLarge := le_roundBlockSize (noOverflow_of_representable h).1
  have hInside : ∀ b ∈ blocksOf buffer (roundBlockSize block_size) max_coroutines,
      Inside buffer (bufferBytes max_coroutines block_size) (roundBlockSize block_size) b := by
    intro b hb
    rw [bufferBytes_eq h]
    exact hFits.inside hb
  have hRepresents := represents_init hUninit h.1 (noOverflow_of_representable h) hNull
    List.nodup_nil fun _ _ => List.not_mem_nil
  rw [Pool.init_of_uninitialized hUninit] at hRepresents
  refine ⟨?_, ?_, ?_⟩
  · rw [Pool.init_of_uninitialized hUninit]
    exact max_le hLarge.1 hLarge.2
  · intro field hField
    have hBlock : field.1 ∈ blocksOf buffer (roundBlockSize block_size) max_coroutines := by
      rw [blocksOf_eq_cons h.1, ← linkStores_addresses]
      exact List.mem_map_of_mem hField
    obtain ⟨hFrom, hTo⟩ := hInside _ hBlock
    exact ⟨hFrom, by omega⟩
  · rw [Pool.init_of_uninitialized hUninit]
    refine ⟨blocksOf buffer (roundBlockSize block_size) max_coroutines, hRepresents.chain, ?_, ?_,
      hInside⟩
    · simp [blocksOf]
    · exact hFits.disjoint.imp Or.inl

-- ---------------------------------------------------------------------------
-- The arguments at the boundaries
-- ---------------------------------------------------------------------------

/-- Without a block the store to the first block is outside. -/
theorem InBounds.pos (h : InBounds pool max_coroutines block_size buffer) :
    1 ≤ max_coroutines := by
  by_contra hZero
  obtain rfl : max_coroutines = 0 := by omega
  obtain ⟨-, hTo⟩ := h.stores (buffer, 0) List.mem_cons_self
  simp only [bufferBytes, sizeofBlock, Nat.zero_mul, Nat.zero_mod] at hTo
  omega

/-- The other direction begins with the rounding: were it to wrap, the block size would be 0 and
the first store would be outside. -/
theorem InBounds.rounded (hUninit : pool.initialized = false) (hBlock : block_size < 2 ^ 64)
    (h : InBounds pool max_coroutines block_size buffer) : block_size + 15 < 2 ^ 64 := by
  by_contra hWrap
  have hSize := h.size
  rw [Pool.init_of_uninitialized hUninit] at hSize
  simp only [roundBlockSize_eq_zero hBlock (Nat.le_of_not_lt hWrap), sizeofBlock] at hSize
  omega

/-- The blocks of the free list fit into the buffer, so its size is not the remainder of
a larger number. -/
theorem InBounds.bytes (hUninit : pool.initialized = false)
    (h : InBounds pool max_coroutines block_size buffer) :
    max_coroutines * roundBlockSize block_size < 2 ^ 64 := by
  obtain ⟨blocks, -, hLength, hApart, hInside⟩ := h.list
  rw [Pool.init_of_uninitialized hUninit] at hApart hInside
  have hLe := length_mul_le hApart hInside
  rw [hLength] at hLe
  exact lt_of_le_of_lt hLe (Nat.mod_lt _ (by decide))

/-- **The boundaries of `init`**, for every pair of `size_t` arguments, with the arithmetic
modulo `2 ^ 64`. An initialized pool is left as it is; in the memory that `new` returns for any
other, `init` stays inside exactly for the representable arguments. Nothing is assumed of the
pool beyond the flag. -/
theorem init_in_bounds (pool : Pool) {max_coroutines block_size : Nat}
    (hBlock : block_size < 2 ^ 64) :
    (pool.initialized = true → ∀ result, pool.init max_coroutines block_size result = pool) ∧
    (pool.initialized = false → ∀ buffer, Newed (bufferBytes max_coroutines block_size) buffer →
      (InBounds pool max_coroutines block_size buffer ↔
        Representable max_coroutines block_size)) := by
  refine ⟨?_, ?_⟩
  · intro hInit result
    rw [Pool.init, if_pos hInit]
  intro hUninit buffer hNew
  refine ⟨?_, inBounds_of_representable hUninit hNew.1⟩
  intro h
  have hRounded := h.rounded hUninit hBlock
  refine ⟨h.pos, hRounded, ?_⟩
  rw [← roundBlockSize_eq hRounded]
  exact h.bytes hUninit

/-- Three blocks of 64 bytes. -/
theorem init_in_bounds_three :
    InBounds (Pool.start fun _ => 0) 3 64 4096 :=
  (((init_in_bounds (Pool.start fun _ => 0) (by decide)).2 rfl 4096 (by decide)).mpr (by decide))

/-- `init(0, 64)`: `new` returns a buffer of no bytes, and `init` writes to its first
block. -/
theorem init_without_blocks :
    Newed (bufferBytes 0 64) 4096 ∧ ¬ InBounds (Pool.start fun _ => 0) 0 64 4096 :=
  ⟨by decide, fun h => absurd h.pos (by decide)⟩

end EmbLinux.CoroutinePool
