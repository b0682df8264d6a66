import EmbLinux.DesignLockFree.Queue.Nodes
import EmbLinux.Lib.SplitCount

/-!
# EmbLinux — the reference counts of the queue

`Counts` says what the counts of a node stand for. The internal count and the two
external counts together are the references of threads (`Balanced`), an external
count is in `head` or `tail`, or still 1 ahead of it, or, behind it, with the thread
that will add it; `external_counters` is how many of the two are open. `Deletes` says
that a node without open external counts and references is in the hands of exactly
one thread, which deletes it.
-/

namespace EmbLinux.DesignLockFree.Queue

variable {τ α : Type*} [DecidableEq τ] {s s' : State τ α} {t : τ}

instance : Fintype Side where
  elems := {.head, .tail}
  complete := by
    intro side
    cases side <;> decide

/-- What an external count adds to `external_counters`. -/
def openFlag : Option Int → Fin 4
  | none => 0
  | some _ => 1

/-- The reference counts of every node: internal and external ones balance the threads that hold
it. -/
structure Counts (s : State τ α) : Prop where
  /-- The internal count is what the external ones and the references leave. -/
  balanced : Balanced (fun p => (s.count p).internalCount) s.external fun t => (s.role t).held
  /-- A node that a pointer has not passed has the external count of that pointer, or its first
  one. -/
  ahead : ∀ p side, s.allocated p = true → s.passed p side = false → s.external p side =
    some (if p = (s.counter side).ptr then (s.counter side).externalCount else 1)
  /-- Who is to close an external count holds the node, -/
  closing : ∀ t side old, (s.role t).closing = some (side, old) → (s.role t).held = some old.ptr ∧
    s.external old.ptr side = some old.externalCount ∧ s.passed old.ptr side = true
  /-- and nobody else is to close it. -/
  closingUnique : ∀ t u side old old', (s.role t).closing = some (side, old) →
    (s.role u).closing = some (side, old') → old.ptr = old'.ptr → t = u
  /-- Where a pointer has passed and the count is open, somebody is to close it. -/
  closingCover : ∀ p side c, s.allocated p = true → s.passed p side = true →
    s.external p side = some c → ∃ t, (s.role t).closing = some (side, ⟨c, p⟩)
  /-- The field of two bits counts the open ones. -/
  counters : ∀ p, s.allocated p = true →
    (s.count p).externalCounters = openFlag (s.external p .head) + openFlag (s.external p .tail)

/-- No external count is open and nobody has a reference. -/
def Closed (s : State τ α) (p : Nat) : Prop :=
  (∀ side, s.external p side = none) ∧ (s.count p).internalCount = 0

/-- A node whose counts are all closed is deleted by exactly one thread. -/
structure Deletes (s : State τ α) : Prop where
  deleting : ∀ t p, (s.role t).deleting = some p → s.allocated p = true ∧ Closed s p
  unique : ∀ t u p, (s.role t).deleting = some p → (s.role u).deleting = some p → t = u
  cover : ∀ p, s.allocated p = true → Closed s p → ∃ t, (s.role t).deleting = some p

-- ---------------------------------------------------------------------------
-- Who deletes
-- ---------------------------------------------------------------------------

namespace Deletes

/-- Nothing that decides about a delete changes. -/
theorem keep (h : Deletes s) {r : Role} (hRole : s'.role = Function.update s.role t r)
    (hAllocated : s'.allocated = s.allocated) (hClosed : ∀ p, Closed s' p ↔ Closed s p)
    (hDeleting : r.deleting = (s.role t).deleting) : Deletes s' := by
  have hSame : ∀ u, (s'.role u).deleting = (s.role u).deleting :=
    observe_update Role.deleting hRole hDeleting
  refine ⟨?_, ?_, ?_⟩
  · simp only [hSame, hAllocated, hClosed]
    exact h.deleting
  · simp only [hSame]
    exact h.unique
  · simp only [hSame, hAllocated, hClosed]
    exact h.cover

/-- A thread drops its reference to `p`, and sees whether it was the last one. -/
theorem drop (h : Deletes s) {r : Role} {p : Nat} (hRole : s'.role = Function.update s.role t r)
    (hAllocated : s'.allocated = s.allocated) (hClosed : ∀ q, q ≠ p → (Closed s' q ↔ Closed s q))
    (hOpen : ¬ Closed s p) (hAlloc : s.allocated p = true) (hOld : (s.role t).deleting = none)
    (hNew : ∀ q, r.deleting = some q ↔ q = p ∧ Closed s' p) : Deletes s' := by
  have hNe : ∀ u q, (s.role u).deleting = some q → u ≠ t ∧ q ≠ p := by
    intro u q hu
    constructor
    · rintro rfl
      rw [hOld] at hu
      cases hu
    · rintro rfl
      exact hOpen (h.deleting u q hu).2
  have hCases : ∀ u q, (s'.role u).deleting = some q →
      (u = t ∧ q = p ∧ Closed s' p) ∨ (s.role u).deleting = some q := by
    intro u q hu
    rcases update_cases hRole u with ⟨rfl, hAt⟩ | ⟨-, hAt⟩ <;> rw [hAt] at hu
    · exact Or.inl ⟨rfl, (hNew q).mp hu⟩
    · exact Or.inr hu
  refine ⟨?_, ?_, ?_⟩
  · rw [hAllocated]
    intro u q hu
    rcases hCases u q hu with ⟨-, rfl, hNow⟩ | hOldU
    · exact ⟨hAlloc, hNow⟩
    · obtain ⟨hAllocQ, hClosedQ⟩ := h.deleting u q hOldU
      exact ⟨hAllocQ, (hClosed q (hNe u q hOldU).2).mpr hClosedQ⟩
  · intro u v q hu hv
    rcases hCases u q hu with ⟨hut, hqp, -⟩ | hOldU <;>
      rcases hCases v q hv with ⟨hvt, hqp', -⟩ | hOldV
    · rw [hut, hvt]
    · exact absurd hqp (hNe v q hOldV).2
    · exact absurd hqp' (hNe u q hOldU).2
    · exact h.unique u v q hOldU hOldV
  · rw [hAllocated]
    intro q hAllocQ hClosedQ
    by_cases hqp : q = p
    · refine ⟨t, ?_⟩
      rw [hRole, Function.update_self]
      exact (hNew q).mpr ⟨hqp, hqp ▸ hClosedQ⟩
    · obtain ⟨u, hu⟩ := h.cover q hAllocQ ((hClosed q hqp).mp hClosedQ)
      refine ⟨u, ?_⟩
      rw [hRole, Function.update_of_ne (hNe u q hu).1]
      exact hu

omit [DecidableEq τ] in
/-- A node is deleted. -/
theorem remove (h : Deletes s) {p : Nat}
    (hAllocated : s'.allocated = Function.update s.allocated p false)
    (hClosed : ∀ q, Closed s' q ↔ Closed s q)
    (hDeleting : ∀ u q, (s'.role u).deleting = some q ↔ (s.role u).deleting = some q ∧ q ≠ p) :
    Deletes s' := by
  refine ⟨?_, ?_, ?_⟩
  · intro u q hu
    obtain ⟨hOld, hqp⟩ := (hDeleting u q).mp hu
    rw [hAllocated, Function.update_of_ne hqp, hClosed]
    exact h.deleting u q hOld
  · intro u v q hu hv
    exact h.unique u v q ((hDeleting u q).mp hu).1 ((hDeleting v q).mp hv).1
  · intro q hAlloc hClosedQ
    rcases update_cases hAllocated q with ⟨-, hAt⟩ | ⟨hqp, hAt⟩ <;> rw [hAt] at hAlloc
    · cases hAlloc
    · obtain ⟨u, hu⟩ := h.cover q hAlloc ((hClosed q).mp hClosedQ)
      exact ⟨u, (hDeleting u q).mpr ⟨hu, hqp⟩⟩

/-- A new node has open counts. -/
theorem create (h : Deletes s) {r : Role} {p : Nat}
    (hRole : s'.role = Function.update s.role t r)
    (hAllocated : s'.allocated = Function.update s.allocated p true)
    (hFree : s.allocated p = false) (hClosed : ∀ q, q ≠ p → (Closed s' q ↔ Closed s q))
    (hOpen : ¬ Closed s' p) (hDeleting : r.deleting = (s.role t).deleting) : Deletes s' := by
  have hSame : ∀ u, (s'.role u).deleting = (s.role u).deleting :=
    observe_update Role.deleting hRole hDeleting
  have hNe : ∀ q, s.allocated q = true → q ≠ p := by
    rintro q hq rfl
    rw [hFree] at hq
    cases hq
  refine ⟨?_, ?_, ?_⟩
  · intro u q hu
    obtain ⟨hAlloc, hClosedQ⟩ := h.deleting u q (hSame u ▸ hu)
    rw [hAllocated, Function.update_of_ne (hNe q hAlloc), hClosed q (hNe q hAlloc)]
    exact ⟨hAlloc, hClosedQ⟩
  · simp only [hSame]
    exact h.unique
  · intro q hAlloc hClosedQ
    have hqp : q ≠ p := by
      rintro rfl
      exact hOpen hClosedQ
    rw [hAllocated, Function.update_of_ne hqp] at hAlloc
    simp only [hSame]
    exact h.cover q hAlloc ((hClosed q hqp).mp hClosedQ)

end Deletes

-- ---------------------------------------------------------------------------
-- Where the external counts are
-- ---------------------------------------------------------------------------

namespace Counts

omit [DecidableEq τ] in
/-- A node that somebody has a reference to is not closed. -/
theorem not_closed (h : Counts s) {p : Nat} (hHeld : (s.role t).held = some p) : ¬ Closed s p :=
  fun hClosed => h.balanced.no_ref hClosed.1 hClosed.2 t hHeld

/-- An access that leaves the counts, the references and the duties of its thread. -/
theorem keep (h : Counts s) {r : Role} (hRole : s'.role = Function.update s.role t r)
    (hCount : s'.count = s.count) (hAllocated : s'.allocated = s.allocated)
    (hCounter : s'.counter = s.counter) (hPassed : s'.passed = s.passed)
    (hExternal : s'.external = s.external) (hHeld : r.held = (s.role t).held)
    (hClosing : r.closing = (s.role t).closing) : Counts s' := by
  have hSameHeld : ∀ u, (s'.role u).held = (s.role u).held := observe_update Role.held hRole hHeld
  have hSameClosing : ∀ u, (s'.role u).closing = (s.role u).closing :=
    observe_update Role.closing hRole hClosing
  refine ⟨?_, ?_, ?_, ?_, ?_, ?_⟩
  · simp only [hSameHeld, hCount, hExternal]
    exact h.balanced
  · rw [hAllocated, hPassed, hExternal, hCounter]
    exact h.ahead
  · simp only [hSameHeld, hSameClosing, hPassed, hExternal]
    exact h.closing
  · simp only [hSameClosing]
    exact h.closingUnique
  · simp only [hSameClosing, hAllocated, hPassed, hExternal]
    exact h.closingCover
  · rw [hAllocated, hCount, hExternal]
    exact h.counters

/-- The reference of a thread, after the thread changed its own. -/
theorem held_step {r : Role} (hRole : s'.role = Function.update s.role t r) :
    (fun u => (s'.role u).held) = Function.update (fun u => (s.role u).held) t r.held := by
  rw [hRole]
  exact part_update Role.held s.role t r

/-- `increase_external_count` takes a reference. -/
theorem increase (h : Counts s) {r : Role} {side : Side}
    (hRole : s'.role = Function.update s.role t r) (hCount : s'.count = s.count)
    (hAllocated : s'.allocated = s.allocated) (hPassed : s'.passed = s.passed)
    (hCounter : s'.counter = Function.update s.counter side
      ⟨(s.counter side).externalCount + 1, (s.counter side).ptr⟩)
    (hExternal : s'.external = Function.update s.external (s.counter side).ptr
      (Function.update (s.external (s.counter side).ptr) side
        (some ((s.counter side).externalCount + 1))))
    (hAlloc : s.allocated (s.counter side).ptr = true)
    (hAhead : s.passed (s.counter side).ptr side = false)
    (hOld : (s.role t).held = none) (hHeld : r.held = some (s.counter side).ptr)
    (hNone : (s.role t).closing = none) (hClosing : r.closing = none) : Counts s' := by
  have hOpen : s.external (s.counter side).ptr side = some (s.counter side).externalCount := by
    rw [h.ahead _ side hAlloc hAhead, if_pos rfl]
  have hSameClosing : ∀ u, (s'.role u).closing = (s.role u).closing :=
    observe_update Role.closing hRole (hClosing.trans hNone.symm)
  -- one external count changes
  have hOther : ∀ p side', ¬ (p = (s.counter side).ptr ∧ side' = side) →
      s'.external p side' = s.external p side' := by
    intro p side' hNot
    rcases update_cases hExternal p with ⟨rfl, hAt⟩ | ⟨-, hAt⟩ <;> rw [hAt]
    rw [Function.update_of_ne fun hEq => hNot ⟨rfl, hEq⟩]
  have hHere : s'.external (s.counter side).ptr side =
      some ((s.counter side).externalCount + 1) := by
    rw [hExternal, Function.update_self, Function.update_self]
  have hFlag : ∀ p side', openFlag (s'.external p side') = openFlag (s.external p side') := by
    intro p side'
    by_cases hEq : p = (s.counter side).ptr ∧ side' = side
    · obtain ⟨rfl, rfl⟩ := hEq
      rw [hHere, hOpen]
      rfl
    · rw [hOther p side' hEq]
  refine ⟨?_, ?_, ?_, ?_, ?_, ?_⟩
  · rw [hCount]
    refine h.balanced.acquire hOld hOpen hExternal ?_
    rw [held_step hRole, hHeld]
  · rw [hAllocated, hPassed]
    intro p side' hAllocP hPassP
    by_cases hEq : p = (s.counter side).ptr ∧ side' = side
    · obtain ⟨rfl, rfl⟩ := hEq
      rw [hHere, hCounter, Function.update_self, if_pos rfl]
    · rw [hOther p side' hEq, h.ahead p side' hAllocP hPassP]
      rcases update_cases hCounter side' with ⟨rfl, hAt⟩ | ⟨-, hAt⟩ <;> rw [hAt]
      rw [if_neg fun hp => hEq ⟨hp, rfl⟩, if_neg fun hp => hEq ⟨hp, rfl⟩]
  · rw [hPassed]
    simp only [hSameClosing]
    intro u side' old hu
    obtain ⟨hHeldU, hExternalU, hPassedU⟩ := h.closing u side' old hu
    have hut : u ≠ t := by
      rintro rfl
      rw [hNone] at hu
      cases hu
    refine ⟨?_, ?_, hPassedU⟩
    · rw [hRole, Function.update_of_ne hut]
      exact hHeldU
    · rw [hOther]
      · exact hExternalU
      · rintro ⟨hEq, rfl⟩
        rw [hEq, hAhead] at hPassedU
        cases hPassedU
  · simp only [hSameClosing]
    exact h.closingUnique
  · simp only [hSameClosing, hAllocated, hPassed]
    intro p side' c hAllocP hPassP hExternalP
    rw [hOther] at hExternalP
    · exact h.closingCover p side' c hAllocP hPassP hExternalP
    · rintro ⟨rfl, rfl⟩
      rw [hAhead] at hPassP
      cases hPassP
  · simp only [hAllocated, hCount, hFlag]
    exact h.counters

/-- A new node has two external counts of 1. -/
theorem create (h : Counts s) {r : Role} {p : Nat}
    (hRole : s'.role = Function.update s.role t r)
    (hCount : s'.count = Function.update s.count p ⟨0, 2⟩)
    (hAllocated : s'.allocated = Function.update s.allocated p true)
    (hPassed : s'.passed = Function.update s.passed p fun _ => false)
    (hExternal : s'.external = Function.update s.external p fun _ => some 1)
    (hCounter : s'.counter = s.counter) (hOff : ∀ side, p ≠ (s.counter side).ptr)
    (hNotHeld : ∀ u, (s.role u).held ≠ some p) (hHeld : r.held = (s.role t).held)
    (hClosing : r.closing = (s.role t).closing) : Counts s' := by
  have hSameHeld : ∀ u, (s'.role u).held = (s.role u).held := observe_update Role.held hRole hHeld
  have hSameClosing : ∀ u, (s'.role u).closing = (s.role u).closing :=
    observe_update Role.closing hRole hClosing
  have hOld : ∀ q, q ≠ p → s'.count q = s.count q ∧ s'.allocated q = s.allocated q ∧
      s'.passed q = s.passed q ∧ s'.external q = s.external q := by
    intro q hq
    rw [hCount, hAllocated, hPassed, hExternal]
    exact ⟨Function.update_of_ne hq .., Function.update_of_ne hq .., Function.update_of_ne hq ..,
      Function.update_of_ne hq ..⟩
  have hHere : s'.passed p = (fun _ => false) ∧ s'.external p = fun _ => some 1 := by
    rw [hPassed, hExternal]
    exact ⟨Function.update_self .., Function.update_self ..⟩
  refine ⟨?_, ?_, ?_, ?_, ?_, ?_⟩
  · simp only [hSameHeld]
    refine h.balanced.create hNotHeld ?_ hExternal
    rw [hCount]
    exact part_update NodeCounter.internalCount s.count p ⟨0, 2⟩
  · intro q side hAlloc hPass
    rw [hCounter]
    by_cases hqp : q = p
    · rw [hqp, hHere.2, if_neg (hOff side)]
    · obtain ⟨-, hAllocEq, hPassEq, hExternalEq⟩ := hOld q hqp
      rw [hExternalEq]
      exact h.ahead q side (hAllocEq ▸ hAlloc) (hPassEq ▸ hPass)
  · simp only [hSameHeld, hSameClosing]
    intro u side old hu
    obtain ⟨hHeldU, hExternalU, hPassedU⟩ := h.closing u side old hu
    have hne : old.ptr ≠ p := fun hEq => hNotHeld u (hEq ▸ hHeldU)
    obtain ⟨-, -, hPassEq, hExternalEq⟩ := hOld _ hne
    rw [hPassEq, hExternalEq]
    exact ⟨hHeldU, hExternalU, hPassedU⟩
  · simp only [hSameClosing]
    exact h.closingUnique
  · simp only [hSameClosing]
    intro q side c hAlloc hPass hExternalQ
    have hqp : q ≠ p := by
      rintro rfl
      rw [hHere.1] at hPass
      cases hPass
    obtain ⟨-, hAllocEq, hPassEq, hExternalEq⟩ := hOld q hqp
    exact h.closingCover q side c (hAllocEq ▸ hAlloc) (hPassEq ▸ hPass) (hExternalEq ▸ hExternalQ)
  · intro q hAlloc
    by_cases hqp : q = p
    · rw [hqp, hHere.2, hCount, Function.update_self]
      rfl
    · obtain ⟨hCountEq, hAllocEq, -, hExternalEq⟩ := hOld q hqp
      rw [hCountEq, hExternalEq]
      exact h.counters q (hAllocEq ▸ hAlloc)

/-- `head` or `tail` moves: its thread will add the external count that was there. -/
theorem move (h : Counts s) {r : Role} {side : Side} {new : CountedNodePtr}
    (hRole : s'.role = Function.update s.role t r) (hCount : s'.count = s.count)
    (hAllocated : s'.allocated = s.allocated) (hExternal : s'.external = s.external)
    (hCounter : s'.counter = Function.update s.counter side new)
    (hPassed : s'.passed = Function.update s.passed (s.counter side).ptr
      (Function.update (s.passed (s.counter side).ptr) side true))
    (hAlloc : s.allocated (s.counter side).ptr = true)
    (hAhead : s.passed (s.counter side).ptr side = false)
    (hOne : new.externalCount = 1) (hNew : new.ptr ≠ (s.counter side).ptr)
    (hOld : (s.role t).held = some (s.counter side).ptr) (hHeld : r.held = (s.role t).held)
    (hNone : (s.role t).closing = none) (hClosing : r.closing = some (side, s.counter side)) :
    Counts s' := by
  have hOpen : s.external (s.counter side).ptr side = some (s.counter side).externalCount := by
    rw [h.ahead _ side hAlloc hAhead, if_pos rfl]
  have hSameHeld : ∀ u, (s'.role u).held = (s.role u).held := observe_update Role.held hRole hHeld
  have hOther : ∀ p side', ¬ (p = (s.counter side).ptr ∧ side' = side) →
      s'.passed p side' = s.passed p side' := by
    intro p side' hNot
    rcases update_cases hPassed p with ⟨rfl, hAt⟩ | ⟨-, hAt⟩ <;> rw [hAt]
    rw [Function.update_of_ne fun hEq => hNot ⟨rfl, hEq⟩]
  have hHere : s'.passed (s.counter side).ptr side = true := by
    rw [hPassed, Function.update_self, Function.update_self]
  -- nobody else has this count to add
  have hAlone : ∀ u old, (s.role u).closing = some (side, old) →
      old.ptr ≠ (s.counter side).ptr := by
    intro u old hu hEq
    have hPass := (h.closing u side old hu).2.2
    rw [hEq, hAhead] at hPass
    cases hPass
  have hCases : ∀ u side' old, (s'.role u).closing = some (side', old) →
      (u = t ∧ side' = side ∧ old = s.counter side) ∨ (s.role u).closing = some (side', old) := by
    intro u side' old hu
    rcases update_cases hRole u with ⟨rfl, hAt⟩ | ⟨-, hAt⟩ <;> rw [hAt] at hu
    · cases hClosing.symm.trans hu
      exact Or.inl ⟨rfl, rfl, rfl⟩
    · exact Or.inr hu
  refine ⟨?_, ?_, ?_, ?_, ?_, ?_⟩
  · simp only [hSameHeld, hCount, hExternal]
    exact h.balanced
  · rw [hAllocated, hExternal]
    intro p side' hAllocP hPassP
    have hNot : ¬ (p = (s.counter side).ptr ∧ side' = side) := by
      rintro ⟨rfl, rfl⟩
      rw [hHere] at hPassP
      cases hPassP
    rw [hOther p side' hNot] at hPassP
    rw [h.ahead p side' hAllocP hPassP]
    rcases update_cases hCounter side' with ⟨rfl, hAt⟩ | ⟨-, hAt⟩ <;> rw [hAt]
    rw [if_neg fun hp => hNot ⟨hp, rfl⟩, hOne, ite_self]
  · simp only [hSameHeld, hExternal]
    intro u side' old hu
    rcases hCases u side' old hu with ⟨rfl, rfl, rfl⟩ | hu
    · exact ⟨hOld, hOpen, hHere⟩
    · obtain ⟨hHeldU, hExternalU, hPassedU⟩ := h.closing u side' old hu
      refine ⟨hHeldU, hExternalU, ?_⟩
      rw [hOther]
      · exact hPassedU
      · rintro ⟨hEq, rfl⟩
        exact hAlone u old hu hEq
  · intro u v side' old old' hu hv hEq
    rcases hCases u side' old hu with ⟨rfl, rfl, rfl⟩ | hu <;>
      rcases hCases v _ old' hv with ⟨rfl, hSide, hOld'⟩ | hv
    · rfl
    · exact absurd hEq.symm (hAlone v old' hv)
    · subst hSide hOld'
      exact absurd hEq (hAlone u old hu)
    · exact h.closingUnique u v side' old old' hu hv hEq
  · rw [hAllocated, hExternal]
    intro p side' c hAllocP hPassP hExternalP
    by_cases hEq : p = (s.counter side).ptr ∧ side' = side
    · obtain ⟨rfl, rfl⟩ := hEq
      cases Option.some.inj (hOpen.symm.trans hExternalP)
      refine ⟨t, ?_⟩
      rw [hRole, Function.update_self]
      exact hClosing
    · rw [hOther p side' hEq] at hPassP
      obtain ⟨u, hu⟩ := h.closingCover p side' c hAllocP hPassP hExternalP
      have hut : u ≠ t := by
        rintro rfl
        rw [hNone] at hu
        cases hu
      refine ⟨u, ?_⟩
      rw [hRole, Function.update_of_ne hut]
      exact hu
  · rw [hAllocated, hCount, hExternal]
    exact h.counters

/-- `free_external_counter` adds the external count. -/
theorem close (h : Counts s) {r : Role} {side : Side} {old : CountedNodePtr}
    (hRole : s'.role = Function.update s.role t r)
    (hCount : s'.count = Function.update s.count old.ptr ((s.count old.ptr).close old))
    (hAllocated : s'.allocated = s.allocated) (hCounter : s'.counter = s.counter)
    (hPassed : s'.passed = s.passed)
    (hExternal : s'.external = Function.update s.external old.ptr
      (Function.update (s.external old.ptr) side none))
    (hOld : (s.role t).closing = some (side, old)) (hHeld : r.held = none)
    (hClosing : r.closing = none) : Counts s' := by
  obtain ⟨hHeldT, hOpen, hPassT⟩ := h.closing t side old hOld
  have hOther : ∀ p side', ¬ (p = old.ptr ∧ side' = side) →
      s'.external p side' = s.external p side' := by
    intro p side' hNot
    rcases update_cases hExternal p with ⟨rfl, hAt⟩ | ⟨-, hAt⟩ <;> rw [hAt]
    rw [Function.update_of_ne fun hEq => hNot ⟨rfl, hEq⟩]
  have hHere : s'.external old.ptr side = none := by
    rw [hExternal, Function.update_self, Function.update_self]
  have hOldClosing : ∀ u side' old', (s'.role u).closing = some (side', old') →
      u ≠ t ∧ (s.role u).closing = some (side', old') := by
    intro u side' old' hu
    rcases update_cases hRole u with ⟨rfl, hAt⟩ | ⟨hut, hAt⟩ <;> rw [hAt] at hu
    · rw [hClosing] at hu
      cases hu
    · exact ⟨hut, hu⟩
  refine ⟨?_, ?_, ?_, ?_, ?_, ?_⟩
  · refine h.balanced.close hHeldT hOpen ?_ hExternal ?_
    · rw [hCount]
      exact part_update NodeCounter.internalCount s.count old.ptr _
    · rw [held_step hRole, hHeld]
  · rw [hAllocated, hPassed, hCounter]
    intro p side' hAllocP hPassP
    rw [hOther]
    · exact h.ahead p side' hAllocP hPassP
    · rintro ⟨rfl, rfl⟩
      rw [hPassT] at hPassP
      cases hPassP
  · rw [hPassed]
    intro u side' old' hu
    obtain ⟨hut, hu⟩ := hOldClosing u side' old' hu
    obtain ⟨hHeldU, hExternalU, hPassedU⟩ := h.closing u side' old' hu
    refine ⟨?_, ?_, hPassedU⟩
    · rw [hRole, Function.update_of_ne hut]
      exact hHeldU
    · rw [hOther]
      · exact hExternalU
      · rintro ⟨hEq, rfl⟩
        exact hut (h.closingUnique u t side' old' old hu hOld hEq)
  · intro u v side' old₁ old₂ hu hv hEq
    exact h.closingUnique u v side' old₁ old₂ (hOldClosing u side' old₁ hu).2
      (hOldClosing v side' old₂ hv).2 hEq
  · rw [hAllocated, hPassed]
    intro p side' c hAllocP hPassP hExternalP
    have hNot : ¬ (p = old.ptr ∧ side' = side) := by
      rintro ⟨rfl, rfl⟩
      rw [hHere] at hExternalP
      cases hExternalP
    rw [hOther p side' hNot] at hExternalP
    obtain ⟨u, hu⟩ := h.closingCover p side' c hAllocP hPassP hExternalP
    have hut : u ≠ t := by
      rintro rfl
      cases hOld.symm.trans hu
      exact hNot ⟨rfl, rfl⟩
    refine ⟨u, ?_⟩
    rw [hRole, Function.update_of_ne hut]
    exact hu
  · rw [hAllocated]
    intro p hAllocP
    have hCounters := h.counters p hAllocP
    by_cases hp : p = old.ptr
    · subst hp
      rw [hCount, Function.update_self]
      show (s.count old.ptr).externalCounters - 1 = _
      rw [hCounters]
      cases side with
      | head =>
        rw [hHere, hOpen, hOther _ .tail (by simp), openFlag, openFlag, zero_add,
          add_sub_cancel_left]
      | tail =>
        rw [hHere, hOpen, hOther _ .head (by simp)]
        show openFlag _ + 1 - 1 = openFlag _ + 0
        rw [add_zero, add_sub_cancel_right]
    · rw [hCount, Function.update_of_ne hp, hOther p .head fun hEq => hp hEq.1,
        hOther p .tail fun hEq => hp hEq.1]
      exact hCounters

/-- `release_ref` drops a reference. -/
theorem release (h : Counts s) {r : Role} {p : Nat}
    (hRole : s'.role = Function.update s.role t r)
    (hCount : s'.count = Function.update s.count p (s.count p).release)
    (hAllocated : s'.allocated = s.allocated) (hCounter : s'.counter = s.counter)
    (hPassed : s'.passed = s.passed) (hExternal : s'.external = s.external)
    (hOld : (s.role t).held = some p) (hHeld : r.held = none)
    (hNone : (s.role t).closing = none) (hClosing : r.closing = none) : Counts s' := by
  have hSameClosing : ∀ u, (s'.role u).closing = (s.role u).closing :=
    observe_update Role.closing hRole (hClosing.trans hNone.symm)
  refine ⟨?_, ?_, ?_, ?_, ?_, ?_⟩
  · rw [hExternal]
    refine h.balanced.release hOld ?_ ?_
    · rw [hCount]
      exact part_update NodeCounter.internalCount s.count p _
    · rw [held_step hRole, hHeld]
  · rw [hAllocated, hPassed, hExternal, hCounter]
    exact h.ahead
  · simp only [hSameClosing, hPassed, hExternal]
    intro u side old hu
    have hut : u ≠ t := by
      rintro rfl
      rw [hNone] at hu
      cases hu
    rw [hRole, Function.update_of_ne hut]
    exact h.closing u side old hu
  · simp only [hSameClosing]
    exact h.closingUnique
  · simp only [hSameClosing, hAllocated, hPassed, hExternal]
    exact h.closingCover
  · rw [hAllocated, hExternal]
    intro q hAlloc
    rw [← h.counters q hAlloc]
    rcases update_cases hCount q with ⟨rfl, hAt⟩ | ⟨-, hAt⟩ <;> rw [hAt]
    rfl

omit [DecidableEq τ] in
/-- A node is deleted. -/
theorem remove (h : Counts s) {p : Nat} (hCount : s'.count = s.count)
    (hAllocated : s'.allocated = Function.update s.allocated p false)
    (hCounter : s'.counter = s.counter) (hPassed : s'.passed = s.passed)
    (hExternal : s'.external = s.external)
    (hHeld : ∀ u, (s'.role u).held = (s.role u).held)
    (hClosing : ∀ u, (s'.role u).closing = (s.role u).closing) : Counts s' := by
  have hAlloc : ∀ q, s'.allocated q = true → s.allocated q = true := by
    intro q hq
    rcases update_cases hAllocated q with ⟨-, hAt⟩ | ⟨-, hAt⟩ <;> rw [hAt] at hq
    · cases hq
    · exact hq
  refine ⟨?_, ?_, ?_, ?_, ?_, ?_⟩
  · simp only [hHeld, hCount, hExternal]
    exact h.balanced
  · rw [hPassed, hExternal, hCounter]
    intro q side hq
    exact h.ahead q side (hAlloc q hq)
  · simp only [hHeld, hClosing, hPassed, hExternal]
    exact h.closing
  · simp only [hClosing]
    exact h.closingUnique
  · simp only [hClosing, hPassed, hExternal]
    intro q side c hq
    exact h.closingCover q side c (hAlloc q hq)
  · rw [hCount, hExternal]
    intro q hq
    exact h.counters q (hAlloc q hq)

omit [DecidableEq τ] in
/-- `external_counters` is 0 when both external counts are added. -/
theorem counters_zero (h : Counts s) {p : Nat} (hAlloc : s.allocated p = true) :
    (s.count p).externalCounters = 0 ↔ ∀ side, s.external p side = none := by
  rw [h.counters p hAlloc]
  cases hHead : s.external p .head <;> cases hTail : s.external p .tail
  · refine ⟨fun _ side => ?_, fun _ => rfl⟩
    cases side
    · exact hHead
    · exact hTail
  · refine ⟨fun hZero => absurd (show (0 : Fin 4) + 1 = 0 from hZero) (by decide),
      fun hAll => ?_⟩
    rw [hAll .tail] at hTail
    cases hTail
  · refine ⟨fun hZero => absurd (show (1 : Fin 4) + 0 = 0 from hZero) (by decide),
      fun hAll => ?_⟩
    rw [hAll .head] at hHead
    cases hHead
  · refine ⟨fun hZero => absurd (show (1 : Fin 4) + 1 = 0 from hZero) (by decide),
      fun hAll => ?_⟩
    rw [hAll .head] at hHead
    cases hHead

end Counts

end EmbLinux.DesignLockFree.Queue
