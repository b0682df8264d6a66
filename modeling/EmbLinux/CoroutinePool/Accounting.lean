import EmbLinux.CoroutinePool.Model
import EmbLinux.Lib.BlockPool
import EmbLinux.Lib.Chain
import Mathlib.Tactic.Ring

/-!
# EmbLinux — the accounting of `CoroutinePoolAllocator`

The free list runs through the blocks of the buffer, and the rest of the blocks
are with the clients. `Represents` compares the code with the abstract pool of
`BlockPool`: the chain from `s_free_list` is its list of free blocks. Each call
is an operation of that pool, and a client that writes over its block is not
seen in the chain.

What is assumed of the clients is `Promised`: they give back what they hold, once. `init` runs on
a pool that is not initialized, and its sums do not wrap (`CoroutinePool.Bounds`).

## Results

* `represents_init` — `init` makes the abstract pool of all blocks.
* `Represents.allocate`, `Represents.deallocate` and `Represents.write` — one spec lemma for
  each thing that happens to the blocks.
* `pooled_step`, `pooled` — each call, and so every sequence of calls, keeps the comparison.
* `pool_contract` — what the clients see, read off the abstract pool.
-/

namespace EmbLinux.CoroutinePool

variable {max_coroutines block_size buffer blockSize size ptr : Nat}

-- ---------------------------------------------------------------------------
-- The sizes
-- ---------------------------------------------------------------------------

/-- The mask of `init` clears the low four bits. -/
theorem and_alignMask {x : Nat} (h : x < sizeModulus) :
    x &&& (sizeModulus - 1 - (alignofMaxAlign - 1)) = x / 2 ^ 4 * 2 ^ 4 := by
  have hMask : sizeModulus - 1 - (alignofMaxAlign - 1) = (2 ^ 60 - 1) * 2 ^ 4 := by decide
  rw [hMask]
  refine Nat.eq_of_testBit_eq ?_
  intro i
  rw [Nat.testBit_and, Nat.testBit_mul_two_pow, Nat.testBit_mul_two_pow,
    Nat.testBit_two_pow_sub_one, Nat.testBit_div_two_pow]
  by_cases hLow : 4 ≤ i
  · rw [Nat.sub_add_cancel hLow]
    by_cases hHigh : i < 64
    · have hIn : i - 4 < 60 := by omega
      simp [hLow, hIn]
    · have hOut : x.testBit i = false := by
        refine Nat.testBit_lt_two_pow (lt_of_lt_of_le h ?_)
        exact Nat.pow_le_pow_right (by decide) (by omega)
      simp [hOut]
  · simp [hLow]

/-- `init` computes without overflow. -/
def NoOverflow (max_coroutines block_size : Nat) : Prop :=
  block_size + alignofMaxAlign - 1 < sizeModulus ∧
    max_coroutines * roundBlockSize block_size < sizeModulus

instance (max_coroutines block_size : Nat) : Decidable (NoOverflow max_coroutines block_size) :=
  inferInstanceAs (Decidable (_ ∧ _))

/-- The rounding goes up and leaves room for the list pointer. -/
theorem le_roundBlockSize (h : block_size + alignofMaxAlign - 1 < sizeModulus) :
    block_size ≤ roundBlockSize block_size ∧ sizeofBlock ≤ roundBlockSize block_size := by
  unfold roundBlockSize
  obtain ⟨size, hSize⟩ :
      ∃ size, size = if block_size < sizeofBlock then sizeofBlock else block_size := ⟨_, rfl⟩
  have hLarge : block_size ≤ size ∧ sizeofBlock ≤ size := by
    rw [hSize]
    split <;> omega
  have hSmall : size + alignofMaxAlign - 1 < sizeModulus := by
    rw [hSize]
    split
    · decide
    · exact h
  rw [← hSize]
  dsimp only
  rw [Nat.mod_eq_of_lt hSmall, and_alignMask hSmall]
  simp only [sizeofBlock, alignofMaxAlign] at hLarge ⊢
  omega

-- ---------------------------------------------------------------------------
-- The blocks of a buffer
-- ---------------------------------------------------------------------------

/-- The `count` blocks of a buffer. -/
def blocksOf (buffer blockSize count : Nat) : List Nat :=
  (List.range count).map (blockAt buffer blockSize)

/-- The buffer is memory for its blocks, and a block has room for its `next`
field. -/
structure Fits (buffer blockSize count : Nat) : Prop where
  notNull : buffer ≠ 0
  roomy : sizeofBlock ≤ blockSize
  small : count * blockSize < sizeModulus

variable {count : Nat}

/-- The address of a block does not wrap. -/
theorem Fits.blockAt_eq (h : Fits buffer blockSize count) {i : Nat} (hi : i < count) :
    blockAt buffer blockSize i = buffer + i * blockSize := by
  have hLe : i * blockSize ≤ count * blockSize := Nat.mul_le_mul_right _ hi.le
  rw [blockAt, Nat.mod_eq_of_lt (lt_of_le_of_lt hLe h.small)]

/-- Each block ends before the next one. -/
theorem Fits.disjoint (h : Fits buffer blockSize count) :
    (blocksOf buffer blockSize count).Pairwise fun a b => a + blockSize ≤ b := by
  rw [blocksOf, List.pairwise_map]
  refine List.Pairwise.imp_of_mem ?_ List.pairwise_lt_range
  intro i j hi hj hlt
  rw [h.blockAt_eq (List.mem_range.mp hi), h.blockAt_eq (List.mem_range.mp hj)]
  have hLe : (i + 1) * blockSize ≤ j * blockSize := Nat.mul_le_mul_right _ hlt
  rw [Nat.add_mul, Nat.one_mul] at hLe
  omega

/-- The blocks have different addresses. -/
theorem Fits.nodup (h : Fits buffer blockSize count) :
    (blocksOf buffer blockSize count).Nodup := by
  refine h.disjoint.imp ?_
  intro a b hab hEq
  have hRoomy := h.roomy
  simp only [sizeofBlock] at hRoomy
  omega

/-- Two different blocks are disjoint. -/
theorem Fits.apart (h : Fits buffer blockSize count) {a b : Nat}
    (ha : a ∈ blocksOf buffer blockSize count) (hb : b ∈ blocksOf buffer blockSize count)
    (hne : a ≠ b) : a + blockSize ≤ b ∨ b + blockSize ≤ a := by
  obtain ⟨i, hi, rfl⟩ := List.mem_map.mp ha
  obtain ⟨j, hj, rfl⟩ := List.mem_map.mp hb
  have hi := List.mem_range.mp hi
  have hj := List.mem_range.mp hj
  rw [h.blockAt_eq hi, h.blockAt_eq hj] at hne ⊢
  rcases Nat.lt_trichotomy i j with hlt | rfl | hlt
  · have hLe : (i + 1) * blockSize ≤ j * blockSize := Nat.mul_le_mul_right _ hlt
    rw [Nat.add_mul, Nat.one_mul] at hLe
    omega
  · exact absurd rfl hne
  · have hLe : (j + 1) * blockSize ≤ i * blockSize := Nat.mul_le_mul_right _ hlt
    rw [Nat.add_mul, Nat.one_mul] at hLe
    omega

/-- The blocks lie inside the buffer. -/
theorem Fits.inside (h : Fits buffer blockSize count) {a : Nat}
    (ha : a ∈ blocksOf buffer blockSize count) :
    buffer ≤ a ∧ a + blockSize ≤ buffer + count * blockSize := by
  obtain ⟨i, hi, rfl⟩ := List.mem_map.mp ha
  have hi := List.mem_range.mp hi
  rw [h.blockAt_eq hi]
  have hLe : (i + 1) * blockSize ≤ count * blockSize := Nat.mul_le_mul_right _ hi
  rw [Nat.add_mul, Nat.one_mul] at hLe
  omega

/-- No block is at the null pointer. -/
theorem Fits.ne_zero (h : Fits buffer blockSize count) {a : Nat}
    (ha : a ∈ blocksOf buffer blockSize count) : a ≠ 0 := by
  have hInside := (h.inside ha).1
  have hNull := h.notNull
  omega

-- ---------------------------------------------------------------------------
-- The loop of `init`
-- ---------------------------------------------------------------------------

variable {next : Nat → Nat}

/-- A cell that no store is made to keeps its contents. -/
theorem store_of_not_mem {stores : List (Nat × Nat)} {address : Nat}
    (h : address ∉ stores.map Prod.fst) : store next stores address = next address := by
  induction stores generalizing next with
  | nil => rfl
  | cons entry rest ih =>
    obtain ⟨first, pointer⟩ := entry
    rw [List.map_cons, List.mem_cons, not_or] at h
    rw [store, ih h.2, Function.update_of_ne h.1]

/-- The loop stores to the fields of the blocks that it links. -/
theorem linkStores_addresses (current i left : Nat) :
    (linkStores buffer blockSize current i left).map Prod.fst =
      current :: (List.range' i left).map (blockAt buffer blockSize) := by
  induction left generalizing current i with
  | zero => rfl
  | succ left ih =>
    rw [linkStores, List.map_cons, ih, List.range'_succ, List.map_cons]

/-- It leaves the chain of these blocks, in the order of their addresses. -/
theorem linked_linkStores {current i left : Nat}
    (hNodup : (current :: (List.range' i left).map (blockAt buffer blockSize)).Nodup)
    (hNull : 0 ∉ current :: (List.range' i left).map (blockAt buffer blockSize)) :
    Linked (store next (linkStores buffer blockSize current i left)) 0 current
      (current :: (List.range' i left).map (blockAt buffer blockSize)) := by
  have hCurrent : current ≠ 0 := fun hEq => hNull (hEq ▸ List.mem_cons_self)
  induction left generalizing current i next with
  | zero =>
    refine Linked.cons hCurrent ?_
    rw [linkStores, store, store, Function.update_self]
    rfl
  | succ left ih =>
    rw [List.range'_succ, List.map_cons] at hNodup hNull ⊢
    obtain ⟨hFront, hRest⟩ := List.nodup_cons.mp hNodup
    have hNullRest := fun hMem => hNull (List.mem_cons_of_mem current hMem)
    refine Linked.cons hCurrent ?_
    -- no later store goes to the field of the front block
    rw [linkStores, store, store_of_not_mem, Function.update_self]
    · exact ih hRest hNullRest fun hEq => hNullRest (hEq ▸ List.mem_cons_self)
    · rw [linkStores_addresses]
      exact hFront

/-- The first block is the buffer itself. -/
theorem blocksOf_eq_cons (hPos : 1 ≤ count) :
    blocksOf buffer blockSize count =
      buffer :: (List.range' 1 (count - 1)).map (blockAt buffer blockSize) := by
  obtain ⟨n, rfl⟩ := Nat.exists_eq_add_of_le' hPos
  rw [blocksOf, List.range_eq_range', List.range'_succ, List.map_cons]
  congr 1
  simp [blockAt]

-- ---------------------------------------------------------------------------
-- The code against the abstract pool
-- ---------------------------------------------------------------------------

variable {s : State} {p : BlockPool Nat}

theorem State.blocks_eq (s : State) :
    s.blocks = blocksOf s.pool.memoryBuffer s.pool.blockSize s.count := rfl

/-- An initialized pool stands for the abstract pool `p` of its blocks. -/
structure Represents (s : State) (p : BlockPool Nat) : Prop where
  initialized : s.pool.initialized = true
  fits : Fits s.pool.memoryBuffer s.pool.blockSize s.count
  /-- The free list is that of the abstract pool, in its order. -/
  chain : Linked s.pool.next 0 s.pool.freeList p.free
  /-- What is with the clients is what is taken. -/
  taken : p.taken = s.outstanding
  /-- Together they are the blocks of the buffer. -/
  accounts : p.Accounts s.blocks

/-- What `init` makes of a pool that is not initialized and of the buffer that `new` returns. -/
theorem Pool.init_of_uninitialized {pool : Pool} (hUninit : pool.initialized = false) :
    pool.init max_coroutines block_size (some buffer) =
      { memoryBuffer := buffer
        freeList := buffer
        blockSize := roundBlockSize block_size
        initialized := true
        next := store pool.next
          (linkStores buffer (roundBlockSize block_size) buffer 1 (max_coroutines - 1)) } := by
  rw [Pool.init, hUninit]
  rfl

/-- `init` makes the pool of all blocks, if none of them is with a client. -/
theorem represents_init {pool : Pool} (hUninit : pool.initialized = false)
    (hMax : 1 ≤ max_coroutines) (hNoOverflow : NoOverflow max_coroutines block_size)
    (hNull : buffer ≠ 0) {outstanding : List Nat} (hNodup : outstanding.Nodup)
    (hNew : ∀ b ∈ blocksOf buffer (roundBlockSize block_size) max_coroutines, b ∉ outstanding) :
    Represents ⟨pool.init max_coroutines block_size (some buffer), max_coroutines, outstanding⟩
      ⟨blocksOf buffer (roundBlockSize block_size) max_coroutines, outstanding⟩ := by
  have hFits : Fits buffer (roundBlockSize block_size) max_coroutines :=
    ⟨hNull, (le_roundBlockSize hNoOverflow.1).2, hNoOverflow.2⟩
  rw [Pool.init_of_uninitialized hUninit]
  refine ⟨rfl, hFits, ?_, rfl, .fresh hFits.nodup hNodup hNew⟩
  have hBlocks := hFits.nodup
  have hZero : 0 ∉ blocksOf buffer (roundBlockSize block_size) max_coroutines :=
    fun hMem => hFits.ne_zero hMem rfl
  rw [blocksOf_eq_cons hMax] at hBlocks hZero ⊢
  exact linked_linkStores hBlocks hZero

/-- `allocate` hands out the front free block, or fails and changes nothing. -/
theorem Represents.allocate (h : Represents s p) (size : Nat) :
    (size ≤ s.pool.blockSize ∧ ∃ ptr p', p.take = some (ptr, p') ∧
      s.allocate size = (some ptr,
        { s with
          pool := { s.pool with freeList := s.pool.next ptr }
          outstanding := ptr :: s.outstanding }) ∧
      Represents (s.allocate size).2 p') ∨
    ((s.pool.blockSize < size ∨ p.free = []) ∧ s.allocate size = (none, s)) := by
  by_cases hSize : s.pool.blockSize < size
  · refine Or.inr ⟨Or.inl hSize, ?_⟩
    rw [State.allocate, Pool.allocate]
    simp [h.initialized, hSize]
  by_cases hNull : s.pool.freeList = 0
  · have hFree : p.free = [] := (hNull ▸ h.chain).eq_nil
    refine Or.inr ⟨Or.inr hFree, ?_⟩
    rw [State.allocate, Pool.allocate]
    simp [h.initialized, hSize, hNull]
  · obtain ⟨rest, hFree, hRest⟩ := h.chain.eq_cons hNull
    have hAllocate : s.allocate size = (some s.pool.freeList,
        { s with
          pool := { s.pool with freeList := s.pool.next s.pool.freeList }
          outstanding := s.pool.freeList :: s.outstanding }) := by
      rw [State.allocate, Pool.allocate]
      simp [h.initialized, hSize, hNull]
    have hTake : p.take = some (s.pool.freeList, ⟨rest, s.pool.freeList :: p.taken⟩) := by
      rw [BlockPool.take, hFree]
    refine Or.inl ⟨Nat.le_of_not_lt hSize, _, _, hTake, hAllocate, ?_⟩
    rw [hAllocate]
    exact ⟨h.initialized, h.fits, hRest, congrArg _ h.taken, h.accounts.take hTake⟩

/-- `deallocate` puts a block of the buffer back in front. -/
theorem Represents.deallocate (h : Represents s p) (hTaken : ptr ∈ s.outstanding)
    (hBlock : ptr ∈ s.blocks) : Represents (s.deallocate ptr) (p.give ptr) := by
  have hNull : ptr ≠ 0 := h.fits.ne_zero hBlock
  have hTaken' : ptr ∈ p.taken := h.taken ▸ hTaken
  have hFree : ptr ∉ p.free := fun hMem => (h.accounts.split ptr hBlock).mp hMem hTaken'
  have hPool : s.pool.deallocate ptr =
      { s.pool with
        next := Function.update s.pool.next ptr s.pool.freeList
        freeList := ptr } := by
    rw [Pool.deallocate]
    simp [h.initialized, hNull]
  rw [State.deallocate, hPool]
  refine ⟨h.initialized, h.fits, ?_, ?_, h.accounts.give hTaken' hBlock⟩
  · refine Linked.cons hNull ?_
    show Linked (Function.update s.pool.next ptr s.pool.freeList) 0
      (Function.update s.pool.next ptr s.pool.freeList ptr) p.free
    rw [Function.update_self]
    exact h.chain.update hFree _
  · rw [← h.taken]
    rfl

/-- A write to a block that a client holds goes past the free blocks. -/
theorem Represents.write (h : Represents s p) (hTaken : ptr ∈ s.outstanding)
    (hBlock : ptr ∈ s.blocks) (contents : Nat → Nat) :
    Represents { s with
      pool := { s.pool with
        next := overwrite s.pool.next ptr s.pool.blockSize contents } } p := by
  refine ⟨h.initialized, h.fits, h.chain.congr ?_, h.taken, h.accounts⟩
  intro b hb
  have hNot : b ∉ p.taken := (h.accounts.split b (h.accounts.freeMem b hb)).mp hb
  have hne : b ≠ ptr := fun hEq => hNot (hEq ▸ h.taken ▸ hTaken)
  have hApart := h.fits.apart (h.accounts.freeMem b hb) hBlock hne
  have hRoomy := h.fits.roomy
  show (if _ then _ else _) = _
  rw [if_neg]
  rintro ⟨hFrom, hTo⟩
  omega

-- ---------------------------------------------------------------------------
-- Every run after `init`
-- ---------------------------------------------------------------------------

/-- `deallocate` changes the list only. -/
theorem Pool.deallocate_frame (pool : Pool) (ptr : Nat) :
    (pool.deallocate ptr).memoryBuffer = pool.memoryBuffer ∧
      (pool.deallocate ptr).blockSize = pool.blockSize := by
  rw [Pool.deallocate]
  split
  · exact ⟨rfl, rfl⟩
  · split <;> exact ⟨rfl, rfl⟩

/-- What the clients promise: they give back pointers that are outstanding. -/
def Promised (s : State) : Call → Prop
  | .deallocate ptr => ptr ∈ s.outstanding
  | _ => True

instance (s : State) : DecidablePred (Promised s)
  | .allocate _ => inferInstanceAs (Decidable True)
  | .deallocate ptr => inferInstanceAs (Decidable (ptr ∈ s.outstanding))
  | .write _ _ => inferInstanceAs (Decidable True)

/-- The pool is still the one that `init` made, and the clients hold blocks of
it only. -/
structure Pooled (max_coroutines block_size buffer : Nat) (s : State) : Prop where
  represents : ∃ p, Represents s p
  buffer : s.pool.memoryBuffer = buffer
  blockSize : s.pool.blockSize = roundBlockSize block_size
  count : s.count = max_coroutines
  own : ∀ ptr ∈ s.outstanding, ptr ∈ s.blocks

/-- `init` builds the list of all blocks. -/
theorem pooled_init {pool : Pool} (hUninit : pool.initialized = false) (hMax : 1 ≤ max_coroutines)
    (hNoOverflow : NoOverflow max_coroutines block_size) (hNull : buffer ≠ 0) :
    Pooled max_coroutines block_size buffer
      (callSystem pool max_coroutines block_size buffer).init := by
  have hRepresents := represents_init hUninit hMax hNoOverflow hNull
    List.nodup_nil fun _ _ => List.not_mem_nil
  refine ⟨⟨_, hRepresents⟩, ?_, ?_, rfl, fun _ hMem => absurd hMem List.not_mem_nil⟩
  · rw [callSystem, Pool.init_of_uninitialized hUninit]
  · rw [callSystem, Pool.init_of_uninitialized hUninit]

/-- Each call of a client keeps the list and the outstanding pointers together: the case
analysis over `allocate`, `deallocate` and a write to a block. -/
theorem pooled_step {s' : State} {c : Call} (h : Pooled max_coroutines block_size buffer s)
    (hPromised : Promised s c) (hst : callStep s c = some s') :
    Pooled max_coroutines block_size buffer s' := by
  obtain ⟨p, hRepresents⟩ := h.represents
  cases c with
  | allocate size =>
    obtain rfl := Option.some.inj hst
    rcases hRepresents.allocate size with ⟨-, ptr, p', hTake, hEq, hNew⟩ | ⟨-, hEq⟩
    · rw [hEq] at hNew ⊢
      refine ⟨⟨p', hNew⟩, h.buffer, h.blockSize, h.count, ?_⟩
      intro q hq
      rcases List.mem_cons.mp hq with rfl | hq
      · exact hRepresents.accounts.mem_of_take hTake
      · exact h.own q hq
    · rw [hEq]
      exact h
  | deallocate ptr =>
    obtain rfl := Option.some.inj hst
    have hNew := hRepresents.deallocate hPromised (h.own ptr hPromised)
    obtain ⟨hBuffer, hSize⟩ := s.pool.deallocate_frame ptr
    refine ⟨⟨_, hNew⟩, hBuffer.trans h.buffer, hSize.trans h.blockSize, h.count, ?_⟩
    intro q hq
    rw [State.blocks_eq, State.deallocate, hBuffer, hSize]
    exact h.own q (List.mem_of_mem_erase hq)
  | write ptr contents =>
    simp only [callStep] at hst
    split at hst <;> cases hst
    next hGuard =>
    exact ⟨⟨p, hRepresents.write hGuard.2.1 hGuard.2.2 contents⟩, h.buffer, h.blockSize, h.count,
      h.own⟩

/-- What the pool promises in every state: the free list and the outstanding
blocks are the blocks of the buffer, and when `allocate` succeeds. -/
structure PoolContract (max_coroutines block_size buffer : Nat) (s : State) : Prop where
  /-- The free list and the outstanding blocks are the blocks of the buffer, each
  once. -/
  conserved : ∃ free, Linked s.pool.next 0 s.pool.freeList free ∧
    (free ++ s.outstanding).Perm (blocksOf buffer s.pool.blockSize max_coroutines)
  length : (blocksOf buffer s.pool.blockSize max_coroutines).length = max_coroutines
  disjoint : (blocksOf buffer s.pool.blockSize max_coroutines).Pairwise
    fun a b => a + s.pool.blockSize ≤ b
  inside : ∀ b ∈ blocksOf buffer s.pool.blockSize max_coroutines,
    buffer ≤ b ∧ b + s.pool.blockSize ≤ buffer + bufferBytes max_coroutines block_size
  roomy : block_size ≤ s.pool.blockSize
  /-- The exact condition for success. -/
  succeeds : ∀ size, (∃ ptr, (s.allocate size).1 = some ptr) ↔
    size ≤ s.pool.blockSize ∧ s.outstanding.length < max_coroutines
  fresh : ∀ size ptr, (s.allocate size).1 = some ptr →
    ptr ∉ s.outstanding ∧ ptr ∈ blocksOf buffer s.pool.blockSize max_coroutines
  /-- `std::bad_alloc` changes neither the free list nor the outstanding blocks. -/
  refused : ∀ size, (s.allocate size).1 = none → (s.allocate size).2 = s

/-- The contract is read off the abstract pool that the list represents. -/
theorem Pooled.contract (h : Pooled max_coroutines block_size buffer s)
    (hNoOverflow : NoOverflow max_coroutines block_size) :
    PoolContract max_coroutines block_size buffer s := by
  obtain ⟨p, hRepresents⟩ := h.represents
  have hFits := hRepresents.fits
  have hOwn : ∀ b ∈ p.taken, b ∈ s.blocks := fun b hb => h.own b (hRepresents.taken ▸ hb)
  have hNodup : s.blocks.Nodup := hFits.nodup
  have hBlocks : s.blocks = blocksOf buffer s.pool.blockSize max_coroutines := by
    rw [State.blocks_eq, h.buffer, h.count]
  have hLength : s.blocks.length = max_coroutines := by
    rw [hBlocks, blocksOf, List.length_map, List.length_range]
  have hBytes : bufferBytes max_coroutines block_size = max_coroutines * s.pool.blockSize := by
    rw [bufferBytes, Nat.mod_eq_of_lt hNoOverflow.2, h.blockSize]
  rw [h.buffer, h.count] at hFits
  refine ⟨⟨p.free, hRepresents.chain, ?_⟩, hBlocks ▸ hLength, hFits.disjoint, ?_, ?_, ?_, ?_, ?_⟩
  · rw [← hBlocks, ← hRepresents.taken]
    exact hRepresents.accounts.perm hNodup hOwn
  · rw [hBytes]
    exact fun b hb => hFits.inside hb
  · rw [h.blockSize]
    exact (le_roundBlockSize hNoOverflow.1).1
  · intro size
    have hCount := hRepresents.accounts.free_ne_nil_iff hNodup hOwn
    rw [hLength, hRepresents.taken] at hCount
    rw [← hCount]
    rcases hRepresents.allocate size with ⟨hSize, ptr, p', hTake, hEq, -⟩ | ⟨hWhy, hEq⟩
    · rw [hEq]
      refine ⟨fun _ => ⟨hSize, ?_⟩, fun _ => ⟨ptr, rfl⟩⟩
      intro hFree
      rw [BlockPool.take, hFree] at hTake
      cases hTake
    · rw [hEq]
      refine ⟨fun hSome => absurd hSome (by simp), ?_⟩
      rintro ⟨hSize, hFree⟩
      rcases hWhy with hLarge | hNil
      · omega
      · exact absurd hNil hFree
  · intro size ptr hSome
    rcases hRepresents.allocate size with ⟨-, q, p', hTake, hEq, -⟩ | ⟨-, hEq⟩
    · rw [hEq] at hSome
      obtain rfl : q = ptr := Option.some.inj hSome
      rw [← hRepresents.taken, ← hBlocks]
      exact ⟨hRepresents.accounts.not_taken hTake, hRepresents.accounts.mem_of_take hTake⟩
    · rw [hEq] at hSome
      cases hSome
  · intro size hNone
    rcases hRepresents.allocate size with ⟨-, q, p', hTake, hEq, -⟩ | ⟨-, hEq⟩
    · rw [hEq] at hNone
      cases hNone
    · rw [hEq]

/-- In every state of a run whose calls keep the promise. -/
theorem pooled {pool : Pool} (hUninit : pool.initialized = false) (hMax : 1 ≤ max_coroutines)
    (hNoOverflow : NoOverflow max_coroutines block_size) (hNull : buffer ≠ 0)
    (h : (callSystem pool max_coroutines block_size buffer).ReachableWhere Promised s) :
    Pooled max_coroutines block_size buffer s :=
  h.invariant (pooled_init hUninit hMax hNoOverflow hNull)
    fun _ _ _ _ hI hPromised hst => pooled_step hI hPromised hst

/-- **The accounting of the pool**, after `init` on any pool that is not initialized, over every
sequence of calls that keeps the promise. `hNoOverflow` excludes the arguments for which the
rounding wraps (`init_in_bounds` says which those are), and the promise excludes a second
`deallocate` of one pointer and a pointer of another pool; contents that clients write to their
blocks may be anything. -/
theorem pool_contract {pool : Pool} (hUninit : pool.initialized = false)
    (hMax : 1 ≤ max_coroutines) (hNoOverflow : NoOverflow max_coroutines block_size)
    (hNew : Newed (bufferBytes max_coroutines block_size) buffer)
    (h : (callSystem pool max_coroutines block_size buffer).ReachableWhere Promised s) :
    PoolContract max_coroutines block_size buffer s :=
  (pooled hUninit hMax hNoOverflow hNew.1 h).contract hNoOverflow

/-- Three blocks of 32 bytes: all are handed out, one is written over, and two
come back in another order. -/
theorem pool_contract_three :
    ∃ s, (callSystem (Pool.start fun _ => 0) 3 20 64).ReachableWhere Promised s ∧
      s.outstanding = [96] ∧ s.pool.freeList = 64 ∧ PoolContract 3 20 64 s := by
  obtain ⟨s, hs, hp⟩ := System.exists_reachableWhere_of_exec
    (S := callSystem (Pool.start fun _ => 0) 3 20 64)
    (c := fun s a => decide (Promised s a)) (fun _ _ => of_decide_eq_true)
    (p := fun s => s.outstanding = [96] ∧ s.pool.freeList = 64)
    [.allocate 20, .allocate 32, .allocate 1, .write 96 (fun _ => 7), .allocate 1,
      .deallocate 128, .deallocate 64] (by decide)
  exact ⟨s, hs, hp.1, hp.2,
    pool_contract rfl (by decide) (by decide) (by decide) hs⟩

end EmbLinux.CoroutinePool
