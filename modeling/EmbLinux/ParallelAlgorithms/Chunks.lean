import EmbLinux.ParallelAlgorithms.Model

/-!
# EmbLinux — the chunks of a range

`Chunked` says that the intervals of the tasks are not empty, lie inside the range, do not
overlap and cover it. `chunks_cover` is for every distance and every `size_t` chunk size:
the arithmetic is right exactly if the chunk size is not 0 and the sum that rounds up does
not wrap. If it wraps, there are no chunks at all.

The distance is the one of two random access iterators, so it is less than `2 ^ 63`; the chunk
size is any `size_t`.

## Results

* `numChunks_of_fits`, `numChunks_of_wrap` — the rounded quotient, or no chunk.
* `Bounds.mem_iff` — the chunk of a position is its quotient.
* `chunks_cover` — the partition, in both directions.
-/

namespace EmbLinux.ParallelAlgorithms

variable {distance chunk_size num_chunks i : Nat}

/-- There is no division by zero, and the intervals `[chunk_start, chunk_end)` partition
`[0, distance)`. -/
def Chunked (distance chunk_size : Nat) : Prop :=
  ∃ num_chunks, numChunks distance chunk_size = some num_chunks ∧
    (∀ i < num_chunks,
      chunkStart chunk_size i < chunkEnd distance chunk_size num_chunks i ∧
      chunkEnd distance chunk_size num_chunks i ≤ distance) ∧
    (∀ i < num_chunks, ∀ j < num_chunks, i ≠ j →
      chunkEnd distance chunk_size num_chunks i ≤ chunkStart chunk_size j ∨
      chunkEnd distance chunk_size num_chunks j ≤ chunkStart chunk_size i) ∧
    ∀ x < distance, ∃ i < num_chunks,
      chunkStart chunk_size i ≤ x ∧ x < chunkEnd distance chunk_size num_chunks i

/-- A chunk size for which nothing wraps. -/
def Fits (distance chunk_size : Nat) : Prop :=
  1 ≤ chunk_size ∧ distance + chunk_size - 1 < 2 ^ 64

instance (distance chunk_size : Nat) : Decidable (Fits distance chunk_size) :=
  inferInstanceAs (Decidable (_ ∧ _))

-- ---------------------------------------------------------------------------
-- The number of chunks
-- ---------------------------------------------------------------------------

/-- The sum that rounds up is computed modulo `2 ^ 64`. -/
theorem subSize_add (hDistance : 1 ≤ distance) :
    subSize ((distance + chunk_size) % sizeModulus) 1 =
      (distance + chunk_size - 1) % sizeModulus := by
  unfold subSize sizeModulus
  omega

/-- Without wrap-around the number of chunks is the rounded-up quotient. -/
theorem numChunks_of_fits (hDistance : 1 ≤ distance) (h : Fits distance chunk_size) :
    numChunks distance chunk_size = some ((distance + chunk_size - 1) / chunk_size) := by
  unfold numChunks
  rw [if_neg (by have := h.1; omega), subSize_add hDistance,
    Nat.mod_eq_of_lt (show distance + chunk_size - 1 < sizeModulus from h.2)]

/-- If the sum wraps, what is left of it is less than one chunk. -/
theorem numChunks_of_wrap (hDistance : 1 ≤ distance) (hMax : distance < 2 ^ 63)
    (hChunk : chunk_size < 2 ^ 64) (hPos : 1 ≤ chunk_size)
    (hWrap : 2 ^ 64 ≤ distance + chunk_size - 1) :
    numChunks distance chunk_size = some 0 := by
  unfold numChunks
  rw [if_neg (by omega), subSize_add hDistance, Nat.div_eq_of_lt]
  unfold sizeModulus
  omega

-- ---------------------------------------------------------------------------
-- The intervals without wrap-around
-- ---------------------------------------------------------------------------

/-- The chunks of a range: all start inside it, and the next one would not. -/
structure Bounds (distance chunk_size num_chunks : Nat) : Prop where
  pos : 1 ≤ num_chunks
  size : 1 ≤ chunk_size
  /-- The last chunk begins inside the range, -/
  last : (num_chunks - 1) * chunk_size < distance
  /-- and the end of the range is in it or before it. -/
  covers : distance ≤ num_chunks * chunk_size
  small : distance < 2 ^ 64

/-- The chunks of a range whose sums do not wrap. -/
theorem bounds_of_fits (hDistance : 1 ≤ distance) (h : Fits distance chunk_size) :
    Bounds distance chunk_size ((distance + chunk_size - 1) / chunk_size) := by
  obtain ⟨hPos, hSmall⟩ := h
  have hMod := Nat.div_add_mod (distance + chunk_size - 1) chunk_size
  have hLt := Nat.mod_lt (distance + chunk_size - 1) hPos
  have hOne : 1 ≤ (distance + chunk_size - 1) / chunk_size :=
    (Nat.one_le_div_iff hPos).mpr (by omega)
  rw [Nat.mul_comm] at hMod
  refine ⟨hOne, hPos, ?_, ?_, ?_⟩
  · rw [Nat.sub_mul, Nat.one_mul]
    omega
  · omega
  · omega

/-- Each chunk begins inside the range, -/
theorem Bounds.mul_lt (h : Bounds distance chunk_size num_chunks) (hi : i < num_chunks) :
    i * chunk_size < distance := by
  have hLe : i * chunk_size ≤ (num_chunks - 1) * chunk_size :=
    Nat.mul_le_mul_right _ (by omega)
  exact Nat.lt_of_le_of_lt hLe h.last

/-- at a multiple of the chunk size, -/
theorem Bounds.chunkStart_eq (h : Bounds distance chunk_size num_chunks) (hi : i < num_chunks) :
    chunkStart chunk_size i = i * chunk_size :=
  Nat.mod_eq_of_lt (Nat.lt_trans (h.mul_lt hi) h.small)

/-- so there are no more chunks than elements. -/
theorem Bounds.le_distance (h : Bounds distance chunk_size num_chunks) :
    num_chunks ≤ distance := by
  have hLe : num_chunks - 1 ≤ (num_chunks - 1) * chunk_size := Nat.le_mul_of_pos_right _ h.size
  have hLast := h.last
  omega

/-- The last chunk is found without wrap-around. -/
theorem Bounds.subSize_eq (h : Bounds distance chunk_size num_chunks) :
    subSize num_chunks 1 = num_chunks - 1 := by
  have hPos := h.pos
  have hLe := h.le_distance
  have hSmall := h.small
  unfold subSize sizeModulus
  omega

/-- Every chunk but the last has its full length. -/
theorem Bounds.chunkEnd_eq (h : Bounds distance chunk_size num_chunks) (hi : i < num_chunks) :
    chunkEnd distance chunk_size num_chunks i = min distance ((i + 1) * chunk_size) := by
  unfold chunkEnd
  rw [h.subSize_eq, h.chunkStart_eq hi, Nat.add_mul, Nat.one_mul]
  by_cases hLast : i = num_chunks - 1
  · have hCovers := h.covers
    rw [show num_chunks = i + 1 by have := h.pos; omega, Nat.add_mul, Nat.one_mul] at hCovers
    rw [if_pos hLast, Nat.min_eq_left hCovers]
  · have hLt := h.mul_lt (show i + 1 < num_chunks by omega)
    have hSmall := h.small
    rw [Nat.add_mul, Nat.one_mul] at hLt
    rw [if_neg hLast, Nat.min_eq_right (Nat.le_of_lt hLt), Nat.mod_eq_of_lt]
    unfold sizeModulus
    omega

/-- The chunk of an element is the quotient of its position. -/
theorem Bounds.div_lt (h : Bounds distance chunk_size num_chunks) {x : Nat} (hx : x < distance) :
    x / chunk_size < num_chunks :=
  Nat.div_lt_of_lt_mul (by have := h.covers; rw [Nat.mul_comm] at this; omega)

/-- An element is in the chunk whose number is its quotient. -/
theorem Bounds.mem_iff (h : Bounds distance chunk_size num_chunks) (hi : i < num_chunks)
    {x : Nat} (hx : x < distance) :
    chunkStart chunk_size i ≤ x ∧ x < chunkEnd distance chunk_size num_chunks i ↔
      x / chunk_size = i := by
  rw [h.chunkStart_eq hi, h.chunkEnd_eq hi, Nat.div_eq_iff h.size]
  have hPos := h.size
  rw [Nat.add_mul, Nat.one_mul]
  omega

/-- So the chunks partition the range. -/
theorem chunked_of_fits (hDistance : 1 ≤ distance) (h : Fits distance chunk_size) :
    Chunked distance chunk_size := by
  have hBounds := bounds_of_fits hDistance h
  refine ⟨_, numChunks_of_fits hDistance h, ?_, ?_, ?_⟩
  · intro i hi
    have hLt := hBounds.mul_lt hi
    have hPos := hBounds.size
    rw [hBounds.chunkStart_eq hi, hBounds.chunkEnd_eq hi, Nat.add_mul, Nat.one_mul]
    omega
  · intro i hi j hj hne
    rw [hBounds.chunkStart_eq hi, hBounds.chunkEnd_eq hi, hBounds.chunkStart_eq hj,
      hBounds.chunkEnd_eq hj]
    rcases Nat.lt_or_gt_of_ne hne with hlt | hlt
    · have hLe : (i + 1) * chunk_size ≤ j * chunk_size := Nat.mul_le_mul_right _ hlt
      omega
    · have hLe : (j + 1) * chunk_size ≤ i * chunk_size := Nat.mul_le_mul_right _ hlt
      omega
  · intro x hx
    have hi := hBounds.div_lt hx
    exact ⟨x / chunk_size, hi, (hBounds.mem_iff hi hx).mpr rfl⟩

/-- **Chunk arithmetic**, for every positive distance and every chunk size: the chunks
partition the range if and only if the chunk size is not 0 and `distance + chunk_size - 1`
is less than `2 ^ 64`. -/
theorem chunks_cover (hDistance : 1 ≤ distance) (hMax : distance < 2 ^ 63)
    (hChunk : chunk_size < 2 ^ 64) : Chunked distance chunk_size ↔ Fits distance chunk_size := by
  refine ⟨?_, chunked_of_fits hDistance⟩
  rintro ⟨num_chunks, hNum, -, -, hCover⟩
  have hPos : 1 ≤ chunk_size := by
    by_contra hZero
    obtain rfl : chunk_size = 0 := by omega
    simp [numChunks] at hNum
  refine ⟨hPos, ?_⟩
  by_contra hWrap
  rw [numChunks_of_wrap hDistance hMax hChunk hPos (by omega)] at hNum
  obtain rfl := Option.some.inj hNum
  obtain ⟨i, hi, -⟩ := hCover 0 (by omega)
  omega

/-- Ten elements in chunks of three. -/
theorem chunks_cover_ten : Chunked 10 3 :=
  (chunks_cover (by decide) (by decide) (by decide)).mpr (by decide)

/-- A chunk size of 0 divides by zero, and one of `2 ^ 64 - 1` leaves two elements without
a chunk. -/
theorem chunks_uncovered : ¬ Chunked 2 0 ∧ ¬ Chunked 2 (2 ^ 64 - 1) := by
  refine ⟨?_, ?_⟩
  · rintro ⟨num_chunks, hNum, -⟩
    simp [numChunks] at hNum
  · rintro ⟨num_chunks, hNum, -, -, hCover⟩
    rw [numChunks_of_wrap (by decide) (by decide) (by decide) (by decide) (by decide)] at hNum
    obtain rfl := Option.some.inj hNum
    obtain ⟨i, hi, -⟩ := hCover 0 (by decide)
    omega

end EmbLinux.ParallelAlgorithms
