import EmbLinux.Lib.System
import Mathlib.Algebra.Group.Nat.Defs
import Mathlib.Logic.Function.Basic

/-!
# EmbLinux — `CoroutinePoolAllocator`

The model of `CoroutinePoolAllocator`. Its functions run under one spinlock, so a
step is one call. Addresses are numbers, 0 is the null pointer, and `size_t`
wraps modulo `2 ^ 64`. The free list is threaded through the blocks: `next` is
the field `Block::next` at an address.

`new` and the clients are outside. `init` takes the address that `new` returns,
or none if it throws; between its calls a client may write over a block that it
holds, so over the fields in it (`Call.write`).

History that no function reads: `count` is the number of blocks of the buffer,
`outstanding` the pointers that `allocate` returned and that no call has given
back since.
-/

namespace EmbLinux.CoroutinePool

/-- The number of values of `size_t`. -/
def sizeModulus : Nat := 2 ^ 64

/-- `sizeof(Block)` -/
def sizeofBlock : Nat := 8

/-- `alignof(std::max_align_t)` -/
def alignofMaxAlign : Nat := 16

-- ---------------------------------------------------------------------------
-- The static members and the functions
-- ---------------------------------------------------------------------------

/-- The static members of the class, and the memory: `next` is the word at each address. -/
structure Pool where
  memoryBuffer : Nat
  freeList : Nat
  blockSize : Nat
  initialized : Bool
  next : Nat → Nat

/-- The members before the program calls `init`. -/
def Pool.start (next : Nat → Nat) : Pool where
  memoryBuffer := 0
  freeList := 0
  blockSize := 0
  initialized := false
  next := next

/-- `s_block_size` as `init` computes it. -/
def roundBlockSize (block_size : Nat) : Nat :=
  let size := if block_size < sizeofBlock then sizeofBlock else block_size
  -- `& ~(alignof(std::max_align_t) - 1)`
  (size + alignofMaxAlign - 1) % sizeModulus &&& (sizeModulus - 1 - (alignofMaxAlign - 1))

/-- The bytes that `init` asks `new` for. -/
def bufferBytes (max_coroutines block_size : Nat) : Nat :=
  max_coroutines * roundBlockSize block_size % sizeModulus

/-- The address of block `i` as the loop of `init` computes it. -/
def blockAt (buffer blockSize i : Nat) : Nat :=
  buffer + i * blockSize % sizeModulus

/-- The stores of the loop of `init` and of the line after it, in order: the
address of a `next` field and the pointer stored there. -/
def linkStores (buffer blockSize current i : Nat) : Nat → List (Nat × Nat)
  | 0 => [(current, 0)]
  | left + 1 =>
    let block := blockAt buffer blockSize i
    (current, block) :: linkStores buffer blockSize block (i + 1) left

/-- The stores of a loop, one after the other. -/
def store (next : Nat → Nat) : List (Nat × Nat) → Nat → Nat
  | [] => next
  | (address, pointer) :: stores => store (Function.update next address pointer) stores

/-- `init`; `buffer` is the address that `new` returns, none if it throws. -/
def Pool.init (p : Pool) (max_coroutines block_size : Nat) (buffer : Option Nat) : Pool :=
  if p.initialized then p
  else
    let blockSize := roundBlockSize block_size
    match buffer with
    | none => { p with blockSize := blockSize }
    | some buffer =>
      { memoryBuffer := buffer
        freeList := buffer
        blockSize := blockSize
        initialized := true
        next := store p.next (linkStores buffer blockSize buffer 1 (max_coroutines - 1)) }

/-- `destroy`: the buffer is freed and the list forgotten; the pointers that are out stay out.
-/
def Pool.destroy (p : Pool) : Pool :=
  if !p.initialized then p
  else { p with memoryBuffer := 0, freeList := 0, initialized := false }

/-- `allocate`: the pointer returned, none for `std::bad_alloc`. -/
def Pool.allocate (p : Pool) (size : Nat) : Option Nat × Pool :=
  if !p.initialized then (none, p)
  else if p.blockSize < size then (none, p)
  else if p.freeList = 0 then (none, p)
  else (some p.freeList, { p with freeList := p.next p.freeList })

/-- `deallocate`: a null pointer and a pool that is not initialized are ignored, anything else
becomes the head of the list. -/
def Pool.deallocate (p : Pool) (ptr : Nat) : Pool :=
  if ptr = 0 then p
  else if !p.initialized then p
  else { p with next := Function.update p.next ptr p.freeList, freeList := ptr }

-- ---------------------------------------------------------------------------
-- The calls
-- ---------------------------------------------------------------------------

/-- The pool, with the number of its blocks and the pointers that clients hold. -/
structure State where
  pool : Pool
  count : Nat
  outstanding : List Nat

/-- The calls of a client on a pool, and its writes to a block that it holds. -/
inductive Call
  | allocate (size : Nat)
  | deallocate (ptr : Nat)
  | write (ptr : Nat) (contents : Nat → Nat)

/-- The blocks of the buffer. -/
def State.blocks (s : State) : List Nat :=
  (List.range s.count).map (blockAt s.pool.memoryBuffer s.pool.blockSize)

/-- The fields that overlap the block at `ptr` after a write to it. -/
def overwrite (next : Nat → Nat) (ptr blockSize : Nat) (contents : Nat → Nat) : Nat → Nat :=
  fun address =>
    if ptr < address + sizeofBlock ∧ address < ptr + blockSize then contents address
    else next address

/-- `allocate`, with the pointer noted. -/
def State.allocate (s : State) (size : Nat) : Option Nat × State :=
  match s.pool.allocate size with
  | (none, pool) => (none, { s with pool := pool })
  | (some ptr, pool) => (some ptr, { s with pool := pool, outstanding := ptr :: s.outstanding })

/-- A client gives a pointer back and holds it no longer. -/
def State.deallocate (s : State) (ptr : Nat) : State :=
  { s with pool := s.pool.deallocate ptr, outstanding := s.outstanding.erase ptr }

/-- A call of a client, or a write of his to a block that he holds. -/
def callStep (s : State) : Call → Option State
  | .allocate size => some (s.allocate size).2
  | .deallocate ptr => some (s.deallocate ptr)
  | .write ptr contents =>
    if s.pool.initialized ∧ ptr ∈ s.outstanding ∧ ptr ∈ s.blocks then
      some { s with
        pool := { s.pool with next := overwrite s.pool.next ptr s.pool.blockSize contents } }
    else none

/-- The calls after `init` took effect on a pool. -/
def callSystem (p : Pool) (max_coroutines block_size buffer : Nat) : System State Call where
  init := ⟨p.init max_coroutines block_size (some buffer), max_coroutines, []⟩
  step := callStep

-- ---------------------------------------------------------------------------
-- Several lifetimes
-- ---------------------------------------------------------------------------

/-- What a program does with the pool, over several lives of it. -/
inductive Action
  | init (max_coroutines block_size : Nat) (buffer : Option Nat)
  | destroy
  | call (c : Call)

/-- What `new` returns for `bytes` bytes: memory, aligned, whose end has an
address. -/
def Newed (bytes buffer : Nat) : Prop :=
  buffer ≠ 0 ∧ alignofMaxAlign ∣ buffer ∧ buffer + bytes ≤ sizeModulus

instance (bytes buffer : Nat) : Decidable (Newed bytes buffer) :=
  inferInstanceAs (Decidable (_ ∧ _ ∧ _))

/-- `init` on an initialized pool does nothing. A buffer that is not what `new` can return is no
step. -/
def step (s : State) : Action → Option State
  | .init max_coroutines block_size buffer =>
    if s.pool.initialized then some s
    else
      match buffer with
      | none => some { s with pool := s.pool.init max_coroutines block_size none }
      | some buffer =>
        if Newed (bufferBytes max_coroutines block_size) buffer then
          some { s with
            pool := s.pool.init max_coroutines block_size (some buffer)
            count := max_coroutines }
        else none
  | .destroy => some { s with pool := s.pool.destroy }
  | .call c => callStep s c

/-- A program that begins before the first `init`, with any contents of the memory. -/
def system (next : Nat → Nat) : System State Action where
  init := ⟨Pool.start next, 0, []⟩
  step := step

end EmbLinux.CoroutinePool
