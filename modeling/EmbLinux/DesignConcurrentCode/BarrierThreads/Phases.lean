import EmbLinux.DesignConcurrentCode.BarrierThreads.Model
import EmbLinux.Lib.Measure
import Mathlib.Tactic.Ring

/-!
# EmbLinux — the phases of a `barrier`

A phase ends when the last arriver adds one to `generation`. In phase `p` a thread has
returned from `p` calls and is before or after its decrement of `spaces`, or it still
spins in the call before, with a generation that is not the current one.

* `Inv.wait` — what one access keeps, a case for each place in `wait`;
* `barrier_phases` — nobody returns from a call that somebody has not entered, `spaces`
  does not wrap, and nobody is left behind.

The two counters are accessed one at a time in a sequentially consistent order, and a generation
is a number modulo `2 ^ 32`: two generations in a row differ, and no thread is further behind.
-/

namespace EmbLinux.DesignConcurrentCode.BarrierThreads

-- ---------------------------------------------------------------------------
-- One phase
-- ---------------------------------------------------------------------------

/-- The number of times that the thread has decremented `spaces`. -/
def Thread.arrivals (t : Thread) : Nat :=
  match t.pc with
  | .left | .load | .arrive _ => t.returned
  | .reset | .advance | .spin _ => t.returned + 1

/-- The thread is the last arriver and has not finished. -/
def Thread.Closing (t : Thread) : Prop :=
  t.pc = .reset ∨ t.pc = .advance

/-- Where a thread can be in phase `phase`. -/
def Thread.Ok (phase : Nat) (t : Thread) : Prop :=
  match t.pc with
  | .left => t.entered = phase ∧ t.returned = phase
  | .load | .reset | .advance => t.entered = phase + 1 ∧ t.returned = phase
  | .arrive myGeneration =>
    t.entered = phase + 1 ∧ t.returned = phase ∧ myGeneration = phase % unsignedModulus
  | .spin myGeneration =>
    t.entered = t.returned + 1 ∧ myGeneration = t.returned % unsignedModulus ∧
      (t.returned = phase ∨ t.returned + 1 = phase)

/-- The barrier and its threads in phase `phase`. -/
structure Inv (count phase : Nat) (s : State) : Prop where
  size : s.barrier.count = count
  /-- The generation counts the phases, modulo its width. -/
  generation : s.barrier.generation = phase % unsignedModulus
  outside : ∀ i, count ≤ i → (s.thread i).pc = .left
  /-- Where each thread is, seen from the present phase. -/
  ok : ∀ i < count, (s.thread i).Ok phase
  /-- When the last arriver is there, everybody has arrived. -/
  full : ∀ i < count, (s.thread i).Closing → ∀ j < count, (s.thread j).arrivals = phase + 1
  /-- There is one last arriver. -/
  closer : ∀ i < count, ∀ j < count, (s.thread i).Closing → (s.thread j).Closing → i = j
  /-- It refills the spaces before it begins the next phase. -/
  refilled : ∀ i < count, (s.thread i).pc = .advance → s.barrier.spaces = count
  /-- Until then a space is left for every arrival that is missing. -/
  spaces : (∀ i < count, (s.thread i).pc ≠ .advance) →
    s.barrier.spaces + ∑ i ∈ Finset.range count, (s.thread i).arrivals = count * (phase + 1)
  spare : (∀ i < count, ¬ (s.thread i).Closing) → 0 < s.barrier.spaces

variable {count phase i : Nat} {s s' : State} {t : Thread} {a : Action}

/-- A thread has arrived in each phase that is over, and perhaps in this one, -/
theorem Thread.Ok.arrivals_eq (h : t.Ok phase) :
    t.arrivals = phase ∨ t.arrivals = phase + 1 := by
  obtain ⟨pc, entered, returned⟩ := t
  cases pc <;> simp only [Thread.Ok, Thread.arrivals] at h ⊢ <;> omega

/-- has returned from no phase that is not over, -/
theorem Thread.Ok.returned_le (h : t.Ok phase) : t.returned ≤ phase := by
  unfold Thread.Ok at h
  split at h <;> omega

/-- and has entered every phase that is. -/
theorem Thread.Ok.le_entered (h : t.Ok phase) : phase ≤ t.entered := by
  unfold Thread.Ok at h
  split at h <;> omega

/-- Two generations in a row differ, the modulus is not 1. -/
theorem succ_mod_ne (n : Nat) : (n + 1) % unsignedModulus ≠ n % unsignedModulus := by
  unfold unsignedModulus
  omega

/-- Only the first `count` threads call. -/
theorem Inv.lt_of_pc (h : Inv count phase s) (hPc : (s.thread i).pc ≠ .left) : i < count := by
  by_contra hOut
  exact hPc (h.outside i (Nat.le_of_not_lt hOut))

/-- A thread that has not arrived in this phase: the last arriver is not there yet. -/
theorem Inv.not_closing_of_arrivals (h : Inv count phase s) (hi : i < count)
    (hArrivals : (s.thread i).arrivals = phase) {j : Nat} (hj : j < count) :
    ¬ (s.thread j).Closing := by
  intro hClosing
  have hFull := h.full j hj hClosing i hi
  omega

/-- Everybody has arrived as often as the sum of the arrivals says. -/
theorem arrivals_of_sum_eq (hOk : ∀ j < count, (s.thread j).Ok phase)
    (hSum : ∑ j ∈ Finset.range count, (s.thread j).arrivals = count * (phase + 1)) :
    ∀ j < count, (s.thread j).arrivals = phase + 1 := by
  have hLe : ∀ j ∈ Finset.range count, (s.thread j).arrivals ≤ phase + 1 := by
    intro j hj
    have hArrivals := (hOk j (Finset.mem_range.mp hj)).arrivals_eq
    omega
  have hAll : ∑ j ∈ Finset.range count, (s.thread j).arrivals =
      ∑ _j ∈ Finset.range count, (phase + 1) := by
    rw [hSum, Finset.sum_const_nat fun _ _ => rfl, Finset.card_range]
  intro j hj
  exact (Finset.sum_eq_sum_iff_of_le hLe).mp hAll j (Finset.mem_range.mpr hj)

/-- Somebody has not arrived: there is room. -/
theorem Inv.spaces_pos (h : Inv count phase s) (hi : i < count)
    (hArrivals : (s.thread i).arrivals = phase) : 0 < s.barrier.spaces :=
  h.spare fun _ hj => h.not_closing_of_arrivals hi hArrivals hj

/-- The number of spaces stays within the count, so it does not wrap. -/
theorem Inv.spaces_le (h : Inv count phase s)
    (hOpen : ∀ j < count, (s.thread j).pc ≠ .advance) : s.barrier.spaces ≤ count := by
  have hLow : ∑ _j ∈ Finset.range count, phase ≤
      ∑ j ∈ Finset.range count, (s.thread j).arrivals := by
    refine Finset.sum_le_sum fun j hj => ?_
    have hArrivals := (h.ok j (Finset.mem_range.mp hj)).arrivals_eq
    omega
  rw [Finset.sum_const_nat fun _ _ => rfl, Finset.card_range] at hLow
  have hSum := h.spaces hOpen
  rw [Nat.mul_succ] at hSum
  omega

-- ---------------------------------------------------------------------------
-- One step
-- ---------------------------------------------------------------------------

/-- Phase 0, in which nobody has arrived. -/
theorem inv_init (hPos : 0 < count) (hUnsigned : count < unsignedModulus) :
    Inv count 0 (system count).init := by
  have hMake : count % unsignedModulus = count := Nat.mod_eq_of_lt hUnsigned
  refine ⟨hMake, rfl, fun _ _ => rfl, fun _ _ => ⟨rfl, rfl⟩, ?_, ?_, ?_, ?_, ?_⟩
  · rintro i - (hReset | hAdvance)
    · cases hReset
    · cases hAdvance
  · rintro i - j - (hReset | hAdvance)
    · cases hReset
    · cases hAdvance
  · intro i _ hAdvance
    cases hAdvance
  · intro _
    change count % unsignedModulus + ∑ _j ∈ Finset.range count, 0 = count * (0 + 1)
    rw [hMake, Finset.sum_const_zero]
    omega
  · intro _
    change 0 < count % unsignedModulus
    rwa [hMake]

/-- A step of a thread that is not the last arriver, before or after, and has arrived as
often as before. -/
theorem Inv.move (h : Inv count phase s) (hi : i < count) (hOk : t.Ok phase)
    (hArrivals : t.arrivals = (s.thread i).arrivals) (hOld : ¬ (s.thread i).Closing)
    (hNew : ¬ t.Closing) :
    Inv count phase { s with thread := Function.update s.thread i t } := by
  have hKeep : ∀ j, (Function.update s.thread i t j).arrivals = (s.thread j).arrivals :=
    observe_update Thread.arrivals rfl hArrivals
  have hClosing : ∀ j, (Function.update s.thread i t j).Closing ↔ (s.thread j).Closing := by
    intro j
    rcases update_at s.thread i t j with ⟨rfl, hj⟩ | ⟨-, hj⟩ <;> rw [hj]
    exact ⟨fun hC => absurd hC hNew, fun hC => absurd hC hOld⟩
  have hAdvance : ∀ j, (Function.update s.thread i t j).pc = .advance ↔
      (s.thread j).pc = .advance := by
    intro j
    rcases update_at s.thread i t j with ⟨rfl, hj⟩ | ⟨-, hj⟩ <;> rw [hj]
    exact ⟨fun hC => absurd (Or.inr hC) hNew, fun hC => absurd (Or.inr hC) hOld⟩
  refine ⟨h.size, h.generation, ?_, ?_, ?_, ?_, ?_, ?_, ?_⟩
  · intro j hj
    change (Function.update s.thread i t j).pc = .left
    rw [Function.update_of_ne (by omega)]
    exact h.outside j hj
  · intro j hj
    change (Function.update s.thread i t j).Ok phase
    rcases update_at s.thread i t j with ⟨-, hEq⟩ | ⟨-, hEq⟩ <;> rw [hEq]
    · exact hOk
    · exact h.ok j hj
  · intro j hj hC k hk
    exact (hKeep k).trans (h.full j hj ((hClosing j).mp hC) k hk)
  · intro j hj k hk hCj hCk
    exact h.closer j hj k hk ((hClosing j).mp hCj) ((hClosing k).mp hCk)
  · intro j hj hA
    exact h.refilled j hj ((hAdvance j).mp hA)
  · intro hNone
    change s.barrier.spaces + ∑ j ∈ Finset.range count,
      (Function.update s.thread i t j).arrivals = count * (phase + 1)
    rw [Finset.sum_congr rfl fun j _ => hKeep j]
    exact h.spaces fun j hj hA => hNone j hj ((hAdvance j).mpr hA)
  · intro hNone
    exact h.spare fun j hj hC => hNone j hj ((hClosing j).mpr hC)

/-- `--spaces`, of a thread that the phase waits for. -/
theorem Inv.arrive (h : Inv count phase s) (hUnsigned : count < unsignedModulus) (hi : i < count)
    {myGeneration : Nat} (hPc : (s.thread i).pc = .arrive myGeneration) {b : Barrier} {pc : Wait}
    (hWait : s.barrier.wait (.arrive myGeneration) = (b, pc)) :
    Inv count phase ⟨b, Function.update s.thread i ((s.thread i).goTo pc)⟩ := by
  have hOk := h.ok i hi
  simp only [Thread.Ok, hPc] at hOk
  obtain ⟨hEntered, hReturned, hGeneration⟩ := hOk
  have hArrivals : (s.thread i).arrivals = phase := by
    simp only [Thread.arrivals, hPc, hReturned]
  have hNone : ∀ j < count, ¬ (s.thread j).Closing := fun _ hj =>
    h.not_closing_of_arrivals hi hArrivals hj
  have hOpen : ∀ j < count, (s.thread j).pc ≠ .advance := fun j hj hA => hNone j hj (Or.inr hA)
  have hPos := h.spaces_pos hi hArrivals
  have hLe := h.spaces_le hOpen
  obtain ⟨rfl, hLast⟩ := Barrier.wait_arrive hPos (hLe.trans_lt hUnsigned) hWait
  have hNew : ((s.thread i).goTo pc).arrivals = phase + 1 ∧ ((s.thread i).goTo pc).Ok phase := by
    rcases hLast with ⟨rfl, -⟩ | ⟨rfl, -⟩ <;>
      simp [Thread.goTo, Thread.arrivals, Thread.Ok, hReturned, hEntered, hGeneration]
  have hOks : ∀ j < count,
      (Function.update s.thread i ((s.thread i).goTo pc) j).Ok phase := by
    intro j hj
    rcases update_at s.thread i ((s.thread i).goTo pc) j with ⟨-, hEq⟩ | ⟨-, hEq⟩ <;> rw [hEq]
    · exact hNew.2
    · exact h.ok j hj
  have hSum := sum_update (m := fun _ => Thread.arrivals) (f := s.thread)
    (b := (s.thread i).goTo pc) rfl hi
  rw [hArrivals, hNew.1] at hSum
  have hOld := h.spaces hOpen
  -- the last arriver is this thread, and it found one space
  have hCloser : ∀ j < count,
      (Function.update s.thread i ((s.thread i).goTo pc) j).Closing →
      j = i ∧ s.barrier.spaces = 1 := by
    intro j hj hC
    rcases update_at s.thread i ((s.thread i).goTo pc) j with ⟨rfl, hEq⟩ | ⟨-, hEq⟩ <;>
      rw [hEq] at hC
    · rcases hLast with ⟨-, hOne⟩ | ⟨rfl, -⟩
      · exact ⟨rfl, hOne⟩
      · rcases hC with hC | hC <;> cases hC
    · exact absurd hC (hNone j hj)
  refine ⟨h.size, h.generation, ?_, hOks, ?_, ?_, ?_, ?_, ?_⟩
  · intro j hj
    change (Function.update s.thread i ((s.thread i).goTo pc) j).pc = .left
    rw [Function.update_of_ne (by omega)]
    exact h.outside j hj
  · intro j hj hC
    have hOne := (hCloser j hj hC).2
    have hTotal : ∑ k ∈ Finset.range count,
        (Function.update s.thread i ((s.thread i).goTo pc) k).arrivals = count * (phase + 1) := by
      omega
    exact arrivals_of_sum_eq (s := ⟨s.barrier, _⟩) hOks hTotal
  · intro j hj k hk hCj hCk
    exact (hCloser j hj hCj).1.trans (hCloser k hk hCk).1.symm
  · intro j hj hA
    obtain ⟨rfl, hOne⟩ := hCloser j hj (Or.inr hA)
    change (Function.update s.thread j ((s.thread j).goTo pc) j).pc = .advance at hA
    rw [Function.update_self] at hA
    rcases hLast with ⟨rfl, -⟩ | ⟨-, hMore⟩
    · cases hA
    · exact absurd hOne hMore
  · intro _
    change s.barrier.spaces - 1 + ∑ j ∈ Finset.range count,
      (Function.update s.thread i ((s.thread i).goTo pc) j).arrivals = count * (phase + 1)
    omega
  · intro hNoCloser
    change 0 < s.barrier.spaces - 1
    rcases hLast with ⟨rfl, -⟩ | ⟨-, hMore⟩
    · refine absurd (Or.inl ?_) (hNoCloser i hi)
      change (Function.update s.thread i ((s.thread i).goTo .reset) i).pc = .reset
      rw [Function.update_self]
      rfl
    · omega

/-- `spaces = count`, of the last arriver. -/
theorem Inv.reset (h : Inv count phase s) (hi : i < count) (hPc : (s.thread i).pc = .reset) :
    Inv count phase ⟨{ s.barrier with spaces := s.barrier.count },
      Function.update s.thread i ((s.thread i).goTo .advance)⟩ := by
  have hOk := h.ok i hi
  simp only [Thread.Ok, hPc] at hOk
  have hArrivals : ((s.thread i).goTo .advance).arrivals = (s.thread i).arrivals := by
    simp only [Thread.goTo, Thread.arrivals, hPc, reduceCtorEq, if_false]
  have hKeep : ∀ j, (Function.update s.thread i ((s.thread i).goTo .advance) j).arrivals =
      (s.thread j).arrivals := observe_update Thread.arrivals rfl hArrivals
  have hFull := h.full i hi (Or.inl hPc)
  have hCloser : ∀ j < count,
      (Function.update s.thread i ((s.thread i).goTo .advance) j).Closing → j = i := by
    intro j hj hC
    rcases update_at s.thread i ((s.thread i).goTo .advance) j with ⟨rfl, -⟩ | ⟨-, hEq⟩
    · rfl
    · rw [hEq] at hC
      exact h.closer j hj i hi hC (Or.inl hPc)
  have hHere : (Function.update s.thread i ((s.thread i).goTo .advance) i).pc = .advance := by
    rw [Function.update_self]
    rfl
  refine ⟨h.size, h.generation, ?_, ?_, ?_, ?_, ?_, ?_, ?_⟩
  · intro j hj
    change (Function.update s.thread i ((s.thread i).goTo .advance) j).pc = .left
    rw [Function.update_of_ne (by omega)]
    exact h.outside j hj
  · intro j hj
    change (Function.update s.thread i ((s.thread i).goTo .advance) j).Ok phase
    rcases update_at s.thread i ((s.thread i).goTo .advance) j with ⟨-, hEq⟩ | ⟨-, hEq⟩ <;>
      rw [hEq]
    · simpa only [Thread.Ok, Thread.goTo, reduceCtorEq, if_false] using hOk
    · exact h.ok j hj
  · intro _ _ _ k hk
    exact (hKeep k).trans (hFull k hk)
  · intro j hj k hk hCj hCk
    exact (hCloser j hj hCj).trans (hCloser k hk hCk).symm
  · intro _ _ _
    exact h.size
  · intro hNone
    exact absurd hHere (hNone i hi)
  · intro hNone
    exact absurd (Or.inr hHere) (hNone i hi)

/-- A thread that arrived and is not the last arriver spins, and is one call behind when
the phase ends. -/
theorem Thread.Ok.next_phase (h : t.Ok phase) (hArrivals : t.arrivals = phase + 1)
    (hClosing : ¬ t.Closing) : t.Ok (phase + 1) ∧ ¬ t.Closing := by
  refine ⟨?_, hClosing⟩
  obtain ⟨pc, entered, returned⟩ := t
  cases pc with
  | left | load | arrive =>
    simp only [Thread.Ok, Thread.arrivals] at h hArrivals
    omega
  | reset => exact absurd (Or.inl rfl) hClosing
  | advance => exact absurd (Or.inr rfl) hClosing
  | spin =>
    simp only [Thread.Ok, Thread.arrivals] at h hArrivals ⊢
    omega

/-- `++generation`, of the last arriver: the next phase begins. -/
theorem Inv.advance (h : Inv count phase s) (hi : i < count)
    (hPc : (s.thread i).pc = .advance) :
    Inv count (phase + 1)
      ⟨{ s.barrier with generation := (s.barrier.generation + 1) % unsignedModulus },
        Function.update s.thread i ((s.thread i).goTo .left)⟩ := by
  have hOk := h.ok i hi
  simp only [Thread.Ok, hPc] at hOk
  obtain ⟨hEntered, hReturned⟩ := hOk
  have hFull := h.full i hi (Or.inr hPc)
  have hRefilled := h.refilled i hi hPc
  have hNew : (s.thread i).goTo .left = ⟨.left, phase + 1, phase + 1⟩ := by
    simp only [Thread.goTo, if_true, hEntered, hReturned]
  have hThread : ∀ j < count,
      (Function.update s.thread i ((s.thread i).goTo .left) j).Ok (phase + 1) ∧
      ¬ (Function.update s.thread i ((s.thread i).goTo .left) j).Closing := by
    intro j hj
    rcases update_at s.thread i ((s.thread i).goTo .left) j with ⟨-, hEq⟩ | ⟨hji, hEq⟩ <;>
      rw [hEq]
    · rw [hNew]
      refine ⟨⟨rfl, rfl⟩, ?_⟩
      rintro (hReset | hAdvance)
      · cases hReset
      · cases hAdvance
    · exact (h.ok j hj).next_phase (hFull j hj) fun hC => hji (h.closer j hj i hi hC (Or.inr hPc))
  have hKeep : ∀ j < count,
      (Function.update s.thread i ((s.thread i).goTo .left) j).arrivals = phase + 1 := by
    intro j hj
    rcases update_at s.thread i ((s.thread i).goTo .left) j with ⟨-, hEq⟩ | ⟨-, hEq⟩ <;> rw [hEq]
    · rw [hNew]
      rfl
    · exact hFull j hj
  refine ⟨h.size, ?_, ?_, fun j hj => (hThread j hj).1, ?_, ?_, ?_, ?_, ?_⟩
  · change (s.barrier.generation + 1) % unsignedModulus = (phase + 1) % unsignedModulus
    rw [h.generation, Nat.mod_add_mod]
  · intro j hj
    change (Function.update s.thread i ((s.thread i).goTo .left) j).pc = .left
    rw [Function.update_of_ne (by omega)]
    exact h.outside j hj
  · intro j hj hC
    exact absurd hC (hThread j hj).2
  · intro j hj _ _ hC
    exact absurd hC (hThread j hj).2
  · intro j hj hA
    exact absurd (Or.inr hA) (hThread j hj).2
  · intro _
    change s.barrier.spaces + ∑ j ∈ Finset.range count,
      (Function.update s.thread i ((s.thread i).goTo .left) j).arrivals = count * (phase + 1 + 1)
    rw [Finset.sum_const_nat fun j hj => hKeep j (Finset.mem_range.mp hj), Finset.card_range,
      hRefilled]
    ring
  · intro _
    change 0 < s.barrier.spaces
    omega

/-- Only a thread of the phase before has another generation. -/
theorem Thread.Ok.spin_behind {myGeneration : Nat} (h : t.Ok phase)
    (hPc : t.pc = .spin myGeneration)
    (hOther : phase % unsignedModulus ≠ myGeneration) :
    t.entered = phase ∧ t.returned + 1 = phase := by
  simp only [Thread.Ok, hPc] at h
  obtain ⟨hEntered, hGeneration, hHere | hBehind⟩ := h
  · exact absurd (hHere ▸ hGeneration.symm) hOther
  · exact ⟨hEntered.trans hBehind, hBehind⟩

/-- One access of a thread in `wait`, at each of its places. -/
theorem Inv.wait (h : Inv count phase s) (hUnsigned : count < unsignedModulus) (hi : i < count)
    (hIn : (s.thread i).pc ≠ .left) {b : Barrier} {pc : Wait}
    (hWait : s.barrier.wait (s.thread i).pc = (b, pc)) :
    ∃ phase', Inv count phase' ⟨b, Function.update s.thread i ((s.thread i).goTo pc)⟩ := by
  have hOk := h.ok i hi
  cases hPc : (s.thread i).pc with
  | left => exact absurd hPc hIn
  | load =>
    rw [hPc] at hWait
    cases hWait
    simp only [Thread.Ok, hPc] at hOk
    refine ⟨phase, h.move hi ?_ ?_ ?_ ?_⟩
    · simp only [Thread.Ok, Thread.goTo, reduceCtorEq, if_false]
      exact ⟨hOk.1, hOk.2, h.generation⟩
    · simp only [Thread.arrivals, Thread.goTo, hPc, reduceCtorEq, if_false]
    · simp [Thread.Closing, hPc]
    · simp [Thread.Closing, Thread.goTo]
  | arrive myGeneration => exact ⟨phase, h.arrive hUnsigned hi hPc (hPc ▸ hWait)⟩
  | reset =>
    rw [hPc] at hWait
    cases hWait
    exact ⟨phase, h.reset hi hPc⟩
  | advance =>
    rw [hPc] at hWait
    cases hWait
    exact ⟨phase + 1, h.advance hi hPc⟩
  | spin myGeneration =>
    rw [hPc] at hWait
    by_cases hSame : s.barrier.generation = myGeneration
    · simp only [Barrier.wait, if_pos hSame, Prod.mk.injEq] at hWait
      obtain ⟨rfl, rfl⟩ := hWait
      refine ⟨phase, h.move hi ?_ ?_ ?_ ?_⟩
      · simpa only [Thread.Ok, Thread.goTo, hPc, reduceCtorEq, if_false] using hOk
      · simp only [Thread.arrivals, Thread.goTo, hPc, reduceCtorEq, if_false]
      · simp [Thread.Closing, hPc]
      · simp [Thread.Closing, Thread.goTo]
    · simp only [Barrier.wait, if_neg hSame, Prod.mk.injEq] at hWait
      obtain ⟨rfl, rfl⟩ := hWait
      obtain ⟨hEntered, hBehind⟩ := hOk.spin_behind hPc (h.generation ▸ hSame)
      refine ⟨phase, h.move hi ?_ ?_ ?_ ?_⟩
      · simp only [Thread.Ok, Thread.goTo, if_true]
        exact ⟨hEntered, hBehind⟩
      · simp only [Thread.arrivals, Thread.goTo, hPc, if_true]
      · simp [Thread.Closing, hPc]
      · simp [Thread.Closing, Thread.goTo]

/-- A call begins in the present phase. -/
theorem Inv.call (h : Inv count phase s) (hi : i < count) (hPc : (s.thread i).pc = .left) :
    Inv count phase { s with thread := Function.update s.thread i (s.thread i).enter } := by
  have hOk := h.ok i hi
  simp only [Thread.Ok, hPc] at hOk
  refine h.move hi ?_ ?_ ?_ ?_
  · simp only [Thread.Ok, Thread.enter]
    exact ⟨congrArg (· + 1) hOk.1, hOk.2⟩
  · simp only [Thread.arrivals, Thread.enter, hPc]
  · simp [Thread.Closing, hPc]
  · simp [Thread.Closing, Thread.enter]

/-- A step inside `wait` is one access of the barrier. -/
theorem step_run (hPc : (s.thread i).pc ≠ .left) :
    step count s (.run i) = some ⟨(s.barrier.wait (s.thread i).pc).1,
      Function.update s.thread i
        ((s.thread i).goTo (s.barrier.wait (s.thread i).pc).2)⟩ := by
  simp only [step, if_neg hPc]

/-- The last arrival resets the spaces and then begins the next phase; a thread that spins sees
the generation of the phase after its own, which differs from its own modulo `2 ^ 32`. -/
theorem inv_step (h : Inv count phase s) (hUnsigned : count < unsignedModulus)
    (hst : step count s a = some s') : ∃ phase', Inv count phase' s' := by
  cases a with
  | call i =>
    simp only [step] at hst
    split at hst
    · next hCall =>
      cases hst
      exact ⟨phase, h.call hCall.1 hCall.2⟩
    · cases hst
  | run i =>
    simp only [step] at hst
    split at hst
    · cases hst
    · next hIn =>
      cases hst
      exact h.wait hUnsigned (h.lt_of_pc hIn) hIn rfl

/-- Every state belongs to a phase. -/
theorem inv_reachable (hPos : 0 < count) (hUnsigned : count < unsignedModulus)
    (hs : (system count).Reachable s) : ∃ phase, Inv count phase s := by
  refine hs.invariant (I := fun s => ∃ phase, Inv count phase s)
    ⟨0, inv_init hPos hUnsigned⟩ ?_
  rintro s a s' - ⟨phase, h⟩ - hst
  exact inv_step h hUnsigned hst

-- ---------------------------------------------------------------------------
-- The end of a call
-- ---------------------------------------------------------------------------

/-- The number of accesses that the thread has before it until it returns from call `k`,
tests in vain apart. -/
def Thread.rank (k : Nat) (t : Thread) : Nat :=
  if k ≤ t.returned then 0
  else
    match t.pc with
    | .load => 4
    | .arrive _ => 3
    | .reset => 2
    | .advance | .spin _ => 1
    | .left => 0

/-- An access that is not a test in vain. -/
theorem Thread.Ok.rank_goTo {k : Nat} (h : t.Ok phase) (hReturned : t.returned < k)
    (hEntered : k ≤ t.entered) {b b' : Barrier} {pc : Wait}
    (hSpin : t.pc ≠ .spin b.generation) (hWait : b.wait t.pc = (b', pc)) :
    (t.goTo pc).rank k < t.rank k := by
  obtain ⟨place, entered, returned⟩ := t
  have hNotYet : ¬ k ≤ returned := Nat.not_le.mpr hReturned
  cases place with
  | left =>
    simp only [Thread.Ok] at h hReturned hEntered
    omega
  | load =>
    cases hWait
    simp [Thread.rank, Thread.goTo, hNotYet]
  | arrive myGeneration =>
    simp only [Barrier.wait, Prod.mk.injEq] at hWait
    obtain ⟨-, rfl⟩ := hWait
    split <;> simp [Thread.rank, Thread.goTo, hNotYet]
  | reset =>
    cases hWait
    simp [Thread.rank, Thread.goTo, hNotYet]
  | advance =>
    cases hWait
    simp only [Thread.Ok] at h hEntered
    simp only [Thread.rank, Thread.goTo, if_true, if_neg hNotYet]
    rw [if_pos (by omega)]
    omega
  | spin myGeneration =>
    have hOther : b.generation ≠ myGeneration := fun hEq => hSpin (by rw [hEq])
    simp only [Barrier.wait, if_neg hOther, Prod.mk.injEq] at hWait
    obtain ⟨-, rfl⟩ := hWait
    simp only [Thread.Ok] at h hEntered
    simp only [Thread.rank, Thread.goTo, if_true, if_neg hNotYet]
    rw [if_pos (by omega)]
    omega

/-- When everybody has entered call `k` and somebody has not returned from it, somebody in
it can do more than test in vain. -/
theorem Inv.exists_not_in_vain (h : Inv count phase s) {k : Nat}
    (hEntered : ∀ i < count, k ≤ (s.thread i).entered) (hi : i < count)
    (hReturned : (s.thread i).returned < k) :
    ∃ j < count, (s.thread j).returned < k ∧ (s.thread j).pc ≠ .spin s.barrier.generation := by
  by_contra hNone
  push Not at hNone
  have hSpins : ∀ j < count, (s.thread j).returned < k →
      (s.thread j).entered = phase + 1 ∧ (s.thread j).returned = phase ∧
        (s.thread j).arrivals = phase + 1 ∧ ¬ (s.thread j).Closing := by
    intro j hj hIn
    have hPc := hNone j hj hIn
    have hOk := h.ok j hj
    simp only [Thread.Ok, hPc] at hOk
    obtain ⟨hOne, hGeneration, hHere | hBehind⟩ := hOk
    · refine ⟨by omega, hHere, ?_, ?_⟩
      · simp only [Thread.arrivals, hPc, hHere]
      · simp [Thread.Closing, hPc]
    · refine absurd (hGeneration.symm.trans h.generation) ?_
      rw [← hBehind]
      exact (succ_mod_ne _).symm
  have hHere := hSpins i hi hReturned
  have hLast := hEntered i hi
  have hAll : ∀ j < count, (s.thread j).returned < k := by
    intro j hj
    have hLe := (h.ok j hj).returned_le
    omega
  have hSpare := h.spare fun j hj => (hSpins j hj (hAll j hj)).2.2.2
  have hSum := h.spaces fun j hj hA => (hSpins j hj (hAll j hj)).2.2.2 (Or.inr hA)
  rw [Finset.sum_const_nat fun j hj =>
    (hSpins j (Finset.mem_range.mp hj) (hAll j (Finset.mem_range.mp hj))).2.2.1,
    Finset.card_range] at hSum
  omega

/-- When all threads have entered phase `k`, there is a schedule in which all return from it. -/
theorem Inv.exists_finish (h : Inv count phase s) (hUnsigned : count < unsignedModulus) {k : Nat}
    (hEntered : ∀ i < count, k ≤ (s.thread i).entered) :
    ∃ as s', (∀ a ∈ as, ∃ i, a = Action.run i) ∧ (system count).exec s as = some s' ∧
      ∀ i < count, k ≤ (s'.thread i).returned := by
  refine System.exists_exec_of_descent (S := system count)
    (m := fun s => ∑ i ∈ Finset.range count, (s.thread i).rank k)
    (I := fun s => (∃ phase, Inv count phase s) ∧ ∀ i < count, k ≤ (s.thread i).entered)
    ?_ ⟨⟨phase, h⟩, hEntered⟩
  rintro s ⟨⟨phase, h⟩, hEntered⟩ hNot
  push Not at hNot
  obtain ⟨i, hi, hReturned⟩ := hNot
  obtain ⟨j, hj, hIn, hSpin⟩ := h.exists_not_in_vain hEntered hi hReturned
  have hOk := h.ok j hj
  have hPc : (s.thread j).pc ≠ .left := by
    intro hLeft
    simp only [Thread.Ok, hLeft] at hOk
    have hLe := hEntered j hj
    omega
  have hst : step count s (.run j) = some _ := step_run hPc
  refine ⟨.run j, _, ⟨j, rfl⟩, hst, ⟨inv_step h hUnsigned hst, ?_⟩, ?_⟩
  · intro i hi
    have hKeep : ((s.thread j).goTo (s.barrier.wait (s.thread j).pc).2).entered =
        (s.thread j).entered := rfl
    exact (hEntered i hi).trans_eq (observe_update Thread.entered rfl hKeep i).symm
  · exact sum_update_lt (m := fun _ => Thread.rank k) rfl hj
      (hOk.rank_goTo hIn (hEntered j hj) hSpin rfl)

-- ---------------------------------------------------------------------------
-- What the barrier is for
-- ---------------------------------------------------------------------------

/-- The contract of the barrier in a state. -/
structure Contract (count : Nat) (s : State) : Prop where
  /-- Who has returned from call `k` knows that everybody has entered it. -/
  separated : ∀ k, ∀ i < count, k ≤ (s.thread i).returned → ∀ j < count, k ≤ (s.thread j).entered
  /-- `--spaces` does not start from zero. -/
  spaces : ∀ i < count, ∀ myGeneration,
    (s.thread i).pc = .arrive myGeneration → 0 < s.barrier.spaces
  /-- Once the last arriver, or anybody else, has finished call `k`, whoever is still in
  it returns at its next access. -/
  released : ∀ k, (∃ i < count, k ≤ (s.thread i).returned) →
    ∀ j < count, (s.thread j).entered = k → (s.thread j).returned < k →
      ∃ s', step count s (.run j) = some s' ∧ (s'.thread j).returned = k
  /-- Once everybody has entered call `k`, accesses alone, without another call, lead
  everybody out of it. -/
  finishes : ∀ k, (∀ i < count, k ≤ (s.thread i).entered) →
    ∃ as s', (∀ a ∈ as, ∃ i, a = .run i) ∧ (system count).exec s as = some s' ∧
      ∀ i < count, k ≤ (s'.thread i).returned

/-- The contract of a state. -/
theorem Inv.contract (h : Inv count phase s) (hUnsigned : count < unsignedModulus) :
    Contract count s := by
  refine ⟨?_, ?_, ?_, ?_⟩
  · intro k i hi hReturned j hj
    exact hReturned.trans ((h.ok i hi).returned_le.trans (h.ok j hj).le_entered)
  · intro i hi myGeneration hPc
    have hOk := h.ok i hi
    simp only [Thread.Ok, hPc] at hOk
    refine h.spaces_pos hi ?_
    simp only [Thread.arrivals, hPc]
    exact hOk.2.1
  · rintro k ⟨i, hi, hFirst⟩ j hj hEntered hReturned
    have hOk := h.ok j hj
    have hLe := (h.ok i hi).returned_le
    obtain ⟨myGeneration, hPc⟩ : ∃ myGeneration, (s.thread j).pc = .spin myGeneration := by
      cases hPc : (s.thread j).pc with
      | spin myGeneration => exact ⟨myGeneration, rfl⟩
      | left | load | arrive | reset | advance =>
        simp only [Thread.Ok, hPc] at hOk
        omega
    simp only [Thread.Ok, hPc] at hOk
    have hOther : s.barrier.generation ≠ myGeneration := by
      rw [h.generation, hOk.2.1, ← show (s.thread j).returned + 1 = phase by omega]
      exact succ_mod_ne _
    refine ⟨⟨s.barrier, Function.update s.thread j ((s.thread j).goTo .left)⟩, ?_, ?_⟩
    · simp only [step, hPc, reduceCtorEq, if_false, Barrier.wait, if_neg hOther]
    · change (Function.update s.thread j ((s.thread j).goTo .left) j).returned = k
      rw [Function.update_self]
      simp only [Thread.goTo, if_true]
      omega
  · intro k hEntered
    exact h.exists_finish hUnsigned hEntered

/-- **The phases of the barrier**: with exactly `count` threads, that call `wait` as often as
they like, no run breaks the contract. The generation wraps at `2 ^ 32`, and `hUnsigned` says
that the count is an `unsigned`; a thread beyond the count, which the constructor does not
promise to serve, is excluded. -/
theorem barrier_phases (hPos : 0 < count) (hUnsigned : count < unsignedModulus)
    (hs : (system count).Reachable s) : Contract count s := by
  obtain ⟨phase, h⟩ := inv_reachable hPos hUnsigned hs
  exact h.contract hUnsigned

/-- Thread 1 spins in its second call, thread 0 has not yet left its first. -/
theorem barrier_phases_overlap : ∃ s, (system 2).Reachable s ∧
    ((s.thread 0).pc = .spin 0 ∧ (s.thread 1).pc = .spin 1 ∧ (s.thread 1).returned = 1) ∧
      Contract 2 s := by
  obtain ⟨s, hs, hOverlap⟩ := System.exists_reachable_of_exec (S := system 2)
    (p := fun s => (s.thread 0).pc = .spin 0 ∧ (s.thread 1).pc = .spin 1 ∧
      (s.thread 1).returned = 1)
    [.call 0, .run 0, .run 0, .call 1, .run 1, .run 1, .run 1, .run 1, .call 1, .run 1, .run 1]
    (by decide +kernel)
  exact ⟨s, hs, hOverlap, barrier_phases (by decide) (by decide) hs⟩

end EmbLinux.DesignConcurrentCode.BarrierThreads
