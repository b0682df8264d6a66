import Mathlib.Algebra.Group.Nat.Defs

/-!
# EmbLinux — `barrier`

The spin barrier of the concurrent code: `count`, `spaces` and `generation` are `unsigned`,
so a decrement of 0 gives the largest value and an increment of that gives 0. A step of
`wait` is one access to `spaces` or `generation`.
-/

namespace EmbLinux.DesignConcurrentCode

/-- The number of values of an `unsigned`. -/
def unsignedModulus : Nat := 2 ^ 32

/-- The members of the class, whose accesses are atomic. -/
structure Barrier where
  count : Nat
  spaces : Nat
  generation : Nat
  deriving DecidableEq

/-- `barrier b(length)`, where `length` becomes an `unsigned`. -/
def Barrier.make (length : Nat) : Barrier :=
  ⟨length % unsignedModulus, length % unsignedModulus, 0⟩

/-- Where a thread stands in `wait`. -/
inductive Wait
  | load
  | arrive (myGeneration : Nat)
  | reset
  | advance
  | spin (myGeneration : Nat)
  | left
  deriving DecidableEq

/-- The next access of a thread in `wait`. -/
def Barrier.wait (b : Barrier) : Wait → Barrier × Wait
  | .load => (b, .arrive b.generation)
  -- `--spaces`
  | .arrive myGeneration =>
    let spaces := (b.spaces + (unsignedModulus - 1)) % unsignedModulus
    ({ b with spaces := spaces }, if spaces = 0 then .reset else .spin myGeneration)
  | .reset => ({ b with spaces := b.count }, .advance)
  | .advance => ({ b with generation := (b.generation + 1) % unsignedModulus }, .left)
  | .spin myGeneration =>
    (b, if b.generation = myGeneration then .spin myGeneration else .left)
  | .left => (b, .left)

/-- `--spaces` without a wrap-around: the one that takes the last space goes on to reset. -/
theorem Barrier.wait_arrive {b b' : Barrier} {myGeneration : Nat} {pc : Wait}
    (hPos : 0 < b.spaces) (hLt : b.spaces < unsignedModulus)
    (hWait : b.wait (.arrive myGeneration) = (b', pc)) :
    b' = { b with spaces := b.spaces - 1 } ∧
      (pc = .reset ∧ b.spaces = 1 ∨ pc = .spin myGeneration ∧ b.spaces ≠ 1) := by
  have hDecrement : (b.spaces + (unsignedModulus - 1)) % unsignedModulus = b.spaces - 1 := by
    unfold unsignedModulus at *
    omega
  simp only [Barrier.wait, hDecrement, Prod.mk.injEq] at hWait
  obtain ⟨rfl, rfl⟩ := hWait
  refine ⟨rfl, ?_⟩
  by_cases hOne : b.spaces = 1
  · exact Or.inl ⟨if_pos (by omega), hOne⟩
  · exact Or.inr ⟨if_neg (by omega), hOne⟩

end EmbLinux.DesignConcurrentCode
