import EmbLinux.DesignLockFree.Stack.Nodes
import EmbLinux.Lib.SplitCount

/-!
# EmbLinux — the reference counts of `lock_free_stack`

`Counts` says what the counts of a node stand for. The internal and the external count
together are the references of threads (`Balanced`), and an open external count belongs
to a node on the stack, to a new one, or to one that a thread took off the stack and
whose count it will add. `Deletes` says that a node without an open external count and
without references is in the hands of exactly one thread, which deletes it.
-/

namespace EmbLinux.DesignLockFree.Stack

variable {τ α : Type*} [DecidableEq τ] {s s' : State τ α} {t : τ} {l : List Nat}

/-- The internal and the external count of every node balance the threads that hold it. -/
structure Counts (s : State τ α) (l : List Nat) : Prop where
  /-- The internal count is what the external one and the references leave. -/
  balanced : Balanced s.internalCount (fun p (_ : Unit) => s.external p) s.held
  /-- Who took a node off holds it and knows its external count, -/
  closing : ∀ t old, s.closing t = some old →
    s.held t = some old.ptr ∧ s.external old.ptr = some old.externalCount ∧ old.ptr ∉ l
  /-- and nobody else took it. -/
  closingUnique : ∀ t u old old', s.closing t = some old → s.closing u = some old' →
    old.ptr = old'.ptr → t = u
  /-- While the external count is open the node is on the stack, new, or taken off by somebody.
  -/
  cover : ∀ p c, s.external p = some c → s.allocated p = true ∧
    (p ∈ l ∨ (∃ t, s.owned t = some p) ∨ ∃ t, s.closing t = some ⟨c, p⟩)
  /-- Until the external count is added, the internal one is what the threads that
  dropped their references subtracted. -/
  low : ∀ p c, s.external p = some c → s.internalCount p ≤ 0

/-- A node without references is deleted by exactly one thread. -/
structure Deletes (s : State τ α) : Prop where
  deleting : ∀ t p, s.deleting t = some p →
    s.allocated p = true ∧ s.external p = none ∧ s.internalCount p = 0
  unique : ∀ t u p, s.deleting t = some p → s.deleting u = some p → t = u
  cover : ∀ p, s.allocated p = true → s.external p = none → s.internalCount p = 0 →
    ∃ t, s.deleting t = some p

/-- One external count is a family with one member. -/
theorem external_update (e : Nat → Option Int) (p : Nat) (x : Option Int) :
    (fun q (_ : Unit) => Function.update e p x q) =
      Function.update (fun q _ => e q) p (Function.update (fun _ => e p) () x) := by
  funext q i
  rcases update_at e p x q with ⟨rfl, hAt⟩ | ⟨hne, hAt⟩ <;> rw [hAt]
  · rw [Function.update_self, Function.update_self]
  · rw [Function.update_of_ne hne]

namespace Counts

omit [DecidableEq τ] in
/-- Nobody has a reference to a node whose counts are gone. -/
theorem no_ref (h : Counts s l) {p : Nat} (hNone : s.external p = none)
    (hZero : s.internalCount p = 0) (t : τ) : s.held t ≠ some p :=
  h.balanced.no_ref (fun _ => hNone) hZero t

omit [DecidableEq τ] in
/-- Nothing that the counts depend on changes. -/
theorem keep (h : Counts s l) (hInternal : s'.internalCount = s.internalCount)
    (hExternal : s'.external = s.external) (hAllocated : s'.allocated = s.allocated)
    (hHeld : s'.held = s.held) (hClosing : s'.closing = s.closing) (hOwned : s'.owned = s.owned) :
    Counts s' l := by
  refine ⟨?_, ?_, ?_, ?_, ?_⟩
  · rw [hInternal, hExternal, hHeld]
    exact h.balanced
  · rw [hClosing, hHeld, hExternal]
    exact h.closing
  · rw [hClosing]
    exact h.closingUnique
  · rw [hExternal, hAllocated, hOwned, hClosing]
    exact h.cover
  · rw [hExternal, hInternal]
    exact h.low

/-- A thread takes a reference through `head`. -/
theorem increase (h : Counts s l) {p : Nat} {c : Int} (hp : p ∈ l) (hOpen : s.external p = some c)
    (hNone : s.held t = none) (hInternal : s'.internalCount = s.internalCount)
    (hExternal : s'.external = Function.update s.external p (some (c + 1)))
    (hAllocated : s'.allocated = s.allocated)
    (hHeld : s'.held = Function.update s.held t (some p)) (hClosing : s'.closing = s.closing)
    (hOwned : s'.owned = s.owned) : Counts s' l := by
  have hNotClosing : s.closing t = none := by
    by_contra hSome
    obtain ⟨old, hOld⟩ := Option.ne_none_iff_exists'.mp hSome
    rw [(h.closing t old hOld).1] at hNone
    cases hNone
  refine ⟨?_, ?_, ?_, ?_, ?_⟩
  · rw [hInternal]
    refine h.balanced.acquire (i := ()) hNone hOpen ?_ hHeld
    rw [hExternal]
    exact external_update s.external p (some (c + 1))
  · rw [hClosing, hHeld, hExternal]
    intro u old hu
    obtain ⟨hRef, hOpen', hOff⟩ := h.closing u old hu
    have hut : u ≠ t := by
      rintro rfl
      rw [hNotClosing] at hu
      cases hu
    have hne : old.ptr ≠ p := fun hEq => hOff (hEq ▸ hp)
    exact ⟨(Function.update_of_ne hut ..).trans hRef, (Function.update_of_ne hne ..).trans hOpen',
      hOff⟩
  · rw [hClosing]
    exact h.closingUnique
  · rw [hAllocated, hOwned, hClosing, hExternal]
    intro q d hq
    rcases update_at s.external p (some (c + 1)) q with ⟨rfl, -⟩ | ⟨-, hAt⟩
    · exact ⟨(h.cover q c hOpen).1, Or.inl hp⟩
    · exact h.cover q d (hAt ▸ hq)
  · rw [hInternal, hExternal]
    intro q d hq
    rcases update_at s.external p (some (c + 1)) q with ⟨rfl, -⟩ | ⟨-, hAt⟩
    · exact h.low q c hOpen
    · exact h.low q d (hAt ▸ hq)

/-- A `pop` takes the top node off. -/
theorem popCas {rest : List Nat} (h : Counts s (s.head.ptr :: rest)) (hOut : s.head.ptr ∉ rest)
    (hOpen : s.external s.head.ptr = some s.head.externalCount)
    (hRef : s.held t = some s.head.ptr) (hNotClosing : s.closing t = none)
    (hInternal : s'.internalCount = s.internalCount) (hExternal : s'.external = s.external)
    (hAllocated : s'.allocated = s.allocated) (hHeld : s'.held = s.held)
    (hClosing : s'.closing = Function.update s.closing t (some s.head))
    (hOwned : s'.owned = s.owned) : Counts s' rest := by
  refine ⟨?_, ?_, ?_, ?_, ?_⟩
  · rw [hInternal, hExternal, hHeld]
    exact h.balanced
  · rw [hClosing, hHeld, hExternal]
    intro u old hu
    rcases update_at s.closing t (some s.head) u with ⟨hut, hAt⟩ | ⟨-, hAt⟩ <;> rw [hAt] at hu
    · cases hu
      rw [hut]
      exact ⟨hRef, hOpen, hOut⟩
    · obtain ⟨hRef', hOpen', hOff⟩ := h.closing u old hu
      exact ⟨hRef', hOpen', fun hMem => hOff (List.mem_cons_of_mem _ hMem)⟩
  · rw [hClosing]
    intro u v old old' hu hv hEq
    rcases update_at s.closing t (some s.head) u with ⟨hut, hAtU⟩ | ⟨-, hAtU⟩ <;>
      rw [hAtU] at hu <;>
      rcases update_at s.closing t (some s.head) v with ⟨hvt, hAtV⟩ | ⟨-, hAtV⟩ <;> rw [hAtV] at hv
    · rw [hut, hvt]
    · cases hu
      exact absurd (hEq ▸ List.mem_cons_self) (h.closing v old' hv).2.2
    · cases hv
      exact absurd (hEq.symm ▸ List.mem_cons_self) (h.closing u old hu).2.2
    · exact h.closingUnique u v old old' hu hv hEq
  · rw [hExternal, hAllocated, hOwned, hClosing]
    intro p c hp
    obtain ⟨hAlloc, hAt | hAt | ⟨u, hu⟩⟩ := h.cover p c hp
    · rcases List.mem_cons.mp hAt with rfl | hAt
      · refine ⟨hAlloc, Or.inr (Or.inr ⟨t, ?_⟩)⟩
        rw [Function.update_self]
        cases hp.symm.trans hOpen
        rfl
      · exact ⟨hAlloc, Or.inl hAt⟩
    · exact ⟨hAlloc, Or.inr (Or.inl hAt)⟩
    · have hut : u ≠ t := by
        rintro rfl
        rw [hNotClosing] at hu
        cases hu
      exact ⟨hAlloc, Or.inr (Or.inr ⟨u, (Function.update_of_ne hut ..).trans hu⟩)⟩
  · rw [hExternal, hInternal]
    exact h.low

/-- The thread that took a node off the stack adds its external count. -/
theorem close (h : Counts s l) {old : CountedNodePtr} (hOwn : s.closing t = some old)
    (hInternal : s'.internalCount = Function.update s.internalCount old.ptr
      (s.internalCount old.ptr + (old.externalCount - 2)))
    (hExternal : s'.external = Function.update s.external old.ptr none)
    (hAllocated : s'.allocated = s.allocated) (hHeld : s'.held = Function.update s.held t none)
    (hClosing : s'.closing = Function.update s.closing t none) (hOwned : s'.owned = s.owned) :
    Counts s' l := by
  obtain ⟨hRef, hOpen, hOff⟩ := h.closing t old hOwn
  have hOld : ∀ u old', s'.closing u = some old' → s.closing u = some old' ∧ u ≠ t := by
    intro u old' hu
    rw [hClosing] at hu
    rcases update_at s.closing t none u with ⟨-, hAt⟩ | ⟨hut, hAt⟩ <;> rw [hAt] at hu
    · cases hu
    · exact ⟨hu, hut⟩
  refine ⟨?_, ?_, ?_, ?_, ?_⟩
  · refine h.balanced.close (i := ()) hRef hOpen hInternal ?_ hHeld
    rw [hExternal]
    exact external_update s.external old.ptr none
  · rw [hHeld, hExternal]
    intro u old' hu
    obtain ⟨hu, hut⟩ := hOld u old' hu
    obtain ⟨hRef', hOpen', hOff'⟩ := h.closing u old' hu
    have hne : old'.ptr ≠ old.ptr := fun hEq => hut (h.closingUnique u t old' old hu hOwn hEq)
    exact ⟨(Function.update_of_ne hut ..).trans hRef', (Function.update_of_ne hne ..).trans hOpen',
      hOff'⟩
  · intro u v old' old'' hu hv hEq
    exact h.closingUnique u v old' old'' (hOld u old' hu).1 (hOld v old'' hv).1 hEq
  · rw [hExternal, hAllocated, hOwned, hClosing]
    intro p c hp
    rcases update_at s.external old.ptr none p with ⟨-, hAt⟩ | ⟨hne, hAt⟩ <;> rw [hAt] at hp
    · cases hp
    · obtain ⟨hAlloc, hAt | hAt | ⟨u, hu⟩⟩ := h.cover p c hp
      · exact ⟨hAlloc, Or.inl hAt⟩
      · exact ⟨hAlloc, Or.inr (Or.inl hAt)⟩
      · have hut : u ≠ t := by
          rintro rfl
          rw [hOwn] at hu
          cases hu
          exact hne rfl
        exact ⟨hAlloc, Or.inr (Or.inr ⟨u, (Function.update_of_ne hut ..).trans hu⟩)⟩
  · rw [hExternal, hInternal]
    intro p c hp
    rcases update_at s.external old.ptr none p with ⟨-, hAt⟩ | ⟨hne, hAt⟩ <;> rw [hAt] at hp
    · cases hp
    · rw [Function.update_of_ne hne]
      exact h.low p c hp

/-- A thread drops its reference. -/
theorem release (h : Counts s l) {p : Nat} (hRef : s.held t = some p)
    (hNotClosing : s.closing t = none)
    (hInternal : s'.internalCount = Function.update s.internalCount p (s.internalCount p - 1))
    (hExternal : s'.external = s.external) (hAllocated : s'.allocated = s.allocated)
    (hHeld : s'.held = Function.update s.held t none) (hClosing : s'.closing = s.closing)
    (hOwned : s'.owned = s.owned) : Counts s' l := by
  refine ⟨?_, ?_, ?_, ?_, ?_⟩
  · rw [hExternal]
    exact h.balanced.release hRef hInternal hHeld
  · rw [hClosing, hHeld, hExternal]
    intro u old hu
    obtain ⟨hRef', hOpen, hOff⟩ := h.closing u old hu
    have hut : u ≠ t := by
      rintro rfl
      rw [hNotClosing] at hu
      cases hu
    exact ⟨(Function.update_of_ne hut ..).trans hRef', hOpen, hOff⟩
  · rw [hClosing]
    exact h.closingUnique
  · rw [hExternal, hAllocated, hOwned, hClosing]
    exact h.cover
  · rw [hExternal, hInternal]
    intro q c hq
    have hLow := h.low q c hq
    rcases update_at s.internalCount p (s.internalCount p - 1) q with ⟨rfl, hAt⟩ | ⟨-, hAt⟩ <;>
      rw [hAt]
    · omega
    · exact hLow

omit [DecidableEq τ] in
/-- A node without counts is deleted. -/
theorem remove (h : Counts s l) {p : Nat} (hNone : s.external p = none)
    (hInternal : s'.internalCount = s.internalCount) (hExternal : s'.external = s.external)
    (hAllocated : s'.allocated = Function.update s.allocated p false) (hHeld : s'.held = s.held)
    (hClosing : s'.closing = s.closing) (hOwned : s'.owned = s.owned) : Counts s' l := by
  refine ⟨?_, ?_, ?_, ?_, ?_⟩
  · rw [hInternal, hExternal, hHeld]
    exact h.balanced
  · rw [hClosing, hHeld, hExternal]
    exact h.closing
  · rw [hClosing]
    exact h.closingUnique
  · rw [hExternal, hAllocated, hOwned, hClosing]
    intro q c hq
    have hne : q ≠ p := by
      rintro rfl
      rw [hNone] at hq
      cases hq
    obtain ⟨hAlloc, hAt⟩ := h.cover q c hq
    exact ⟨(Function.update_of_ne hne ..).trans hAlloc, hAt⟩
  · rw [hExternal, hInternal]
    exact h.low

/-- A `push` makes its node. -/
theorem create (h : Counts s l) {p : Nat} (hFree : s.allocated p = false)
    (hHeldAlloc : ∀ u q, s.held u = some q → s.allocated q = true) (hNotOwning : s.owned t = none)
    (hInternal : s'.internalCount = Function.update s.internalCount p 0)
    (hExternal : s'.external = Function.update s.external p (some 1))
    (hAllocated : s'.allocated = Function.update s.allocated p true) (hHeld : s'.held = s.held)
    (hClosing : s'.closing = s.closing)
    (hOwned : s'.owned = Function.update s.owned t (some p)) : Counts s' l := by
  have hNe : ∀ u q, s.held u = some q → q ≠ p := by
    rintro u q hu rfl
    rw [hHeldAlloc u q hu] at hFree
    cases hFree
  refine ⟨?_, ?_, ?_, ?_, ?_⟩
  · rw [hHeld]
    refine h.balanced.create (fun u hu => hNe u p hu rfl) hInternal ?_
    rw [hExternal]
    funext q i
    rcases update_at s.external p (some 1) q with ⟨rfl, hAt⟩ | ⟨hne, hAt⟩ <;> rw [hAt]
    · rw [Function.update_self]
    · rw [Function.update_of_ne hne]
  · rw [hClosing, hHeld, hExternal]
    intro u old hu
    obtain ⟨hRef, hOpen, hOff⟩ := h.closing u old hu
    exact ⟨hRef, (Function.update_of_ne (hNe u _ hRef) ..).trans hOpen, hOff⟩
  · rw [hClosing]
    exact h.closingUnique
  · rw [hExternal, hAllocated, hOwned, hClosing]
    intro q c hq
    rcases update_at s.external p (some 1) q with ⟨rfl, -⟩ | ⟨hne, hAt⟩
    · exact ⟨Function.update_self .., Or.inr (Or.inl ⟨t, Function.update_self ..⟩)⟩
    · obtain ⟨hAlloc, hAt'⟩ := h.cover q c (hAt ▸ hq)
      refine ⟨(Function.update_of_ne hne ..).trans hAlloc, ?_⟩
      refine hAt'.imp_right fun hAt' => hAt'.imp_left ?_
      rintro ⟨u, hu⟩
      have hut : u ≠ t := by
        rintro rfl
        rw [hNotOwning] at hu
        cases hu
      exact ⟨u, (Function.update_of_ne hut ..).trans hu⟩
  · rw [hExternal, hInternal]
    intro q c hq
    rcases update_at s.external p (some 1) q with ⟨rfl, -⟩ | ⟨hne, hAt⟩
    · rw [Function.update_self]
    · rw [Function.update_of_ne hne]
      exact h.low q c (hAt ▸ hq)

/-- A `push` puts its node on the stack. -/
theorem pushCas (h : Counts s l) {p : Nat} (hOwn : s.owned t = some p)
    (hNotHeld : ∀ u, s.held u ≠ some p) (hInternal : s'.internalCount = s.internalCount)
    (hExternal : s'.external = s.external) (hAllocated : s'.allocated = s.allocated)
    (hHeld : s'.held = s.held) (hClosing : s'.closing = s.closing)
    (hOwned : s'.owned = Function.update s.owned t none) : Counts s' (p :: l) := by
  refine ⟨?_, ?_, ?_, ?_, ?_⟩
  · rw [hInternal, hExternal, hHeld]
    exact h.balanced
  · rw [hClosing, hHeld, hExternal]
    intro u old hu
    obtain ⟨hRef, hOpen, hOff⟩ := h.closing u old hu
    refine ⟨hRef, hOpen, ?_⟩
    intro hMem
    rcases List.mem_cons.mp hMem with hEq | hMem
    · exact hNotHeld u (hEq ▸ hRef)
    · exact hOff hMem
  · rw [hClosing]
    exact h.closingUnique
  · rw [hExternal, hAllocated, hOwned, hClosing]
    intro q c hq
    obtain ⟨hAlloc, hAt | ⟨u, hu⟩ | hAt⟩ := h.cover q c hq
    · exact ⟨hAlloc, Or.inl (List.mem_cons_of_mem _ hAt)⟩
    · rcases update_at s.owned t none u with ⟨rfl, -⟩ | ⟨-, hAt⟩
      · cases hu.symm.trans hOwn
        exact ⟨hAlloc, Or.inl List.mem_cons_self⟩
      · exact ⟨hAlloc, Or.inr (Or.inl ⟨u, hAt.trans hu⟩)⟩
    · exact ⟨hAlloc, Or.inr (Or.inr hAt)⟩
  · rw [hExternal, hInternal]
    exact h.low

end Counts

-- ---------------------------------------------------------------------------
-- Who deletes
-- ---------------------------------------------------------------------------

namespace Deletes

omit [DecidableEq τ] in
/-- Nothing that decides about a delete changes. -/
theorem keep (h : Deletes s) (hAllocated : s'.allocated = s.allocated)
    (hExternal : ∀ p, s'.external p = none ↔ s.external p = none)
    (hInternal : s'.internalCount = s.internalCount) (hDeleting : s'.deleting = s.deleting) :
    Deletes s' := by
  refine ⟨?_, ?_, ?_⟩
  · rw [hDeleting, hAllocated, hInternal]
    simp only [hExternal]
    exact h.deleting
  · rw [hDeleting]
    exact h.unique
  · rw [hDeleting, hAllocated, hInternal]
    simp only [hExternal]
    exact h.cover

/-- A thread drops its reference to `p`; the last one deletes. -/
theorem drop (h : Deletes s) {p : Nat} {r : Option Nat} (hAlloc : s.allocated p = true)
    (hOpen : ¬ (s.external p = none ∧ s.internalCount p = 0)) (hNone : s.deleting t = none)
    (hAllocated : s'.allocated = s.allocated)
    (hExternal : ∀ q, q ≠ p → s'.external q = s.external q)
    (hInternal : ∀ q, q ≠ p → s'.internalCount q = s.internalCount q)
    (hDeleting : s'.deleting = Function.update s.deleting t r)
    (hr : (r = none ∧ ¬ (s'.external p = none ∧ s'.internalCount p = 0)) ∨
      (r = some p ∧ s'.external p = none ∧ s'.internalCount p = 0)) : Deletes s' := by
  have hOld : ∀ u q, s.deleting u = some q → q ≠ p := by
    rintro u q hu rfl
    exact hOpen (h.deleting u q hu).2
  refine ⟨?_, ?_, ?_⟩
  · rw [hDeleting, hAllocated]
    intro u q hu
    rcases update_at s.deleting t r u with ⟨-, hAt⟩ | ⟨-, hAt⟩ <;> rw [hAt] at hu
    · rcases hr with ⟨rfl, -⟩ | ⟨rfl, hClosed⟩
      · cases hu
      · cases hu
        exact ⟨hAlloc, hClosed⟩
    · rw [hExternal q (hOld u q hu), hInternal q (hOld u q hu)]
      exact h.deleting u q hu
  · rw [hDeleting]
    intro u v q hu hv
    rcases update_at s.deleting t r u with ⟨hut, hAtU⟩ | ⟨-, hAtU⟩ <;> rw [hAtU] at hu <;>
      rcases update_at s.deleting t r v with ⟨hvt, hAtV⟩ | ⟨-, hAtV⟩ <;> rw [hAtV] at hv
    · rw [hut, hvt]
    · rcases hr with ⟨rfl, -⟩ | ⟨rfl, -⟩
      · cases hu
      · cases hu
        exact absurd rfl (hOld v p hv)
    · rcases hr with ⟨rfl, -⟩ | ⟨rfl, -⟩
      · cases hv
      · cases hv
        exact absurd rfl (hOld u p hu)
    · exact h.unique u v q hu hv
  · rw [hDeleting, hAllocated]
    intro q hAllocQ hExternalQ hInternalQ
    by_cases hq : q = p
    · rw [hq] at hExternalQ hInternalQ ⊢
      rcases hr with ⟨-, hNot⟩ | ⟨rfl, -⟩
      · exact absurd ⟨hExternalQ, hInternalQ⟩ hNot
      · exact ⟨t, Function.update_self ..⟩
    · rw [hExternal q hq] at hExternalQ
      rw [hInternal q hq] at hInternalQ
      obtain ⟨u, hu⟩ := h.cover q hAllocQ hExternalQ hInternalQ
      have hut : u ≠ t := by
        rintro rfl
        rw [hNone] at hu
        cases hu
      exact ⟨u, (Function.update_of_ne hut ..).trans hu⟩

/-- The node is deleted. -/
theorem remove (h : Deletes s) {p : Nat} (hOwn : s.deleting t = some p)
    (hAllocated : s'.allocated = Function.update s.allocated p false)
    (hExternal : s'.external = s.external) (hInternal : s'.internalCount = s.internalCount)
    (hDeleting : s'.deleting = Function.update s.deleting t none) : Deletes s' := by
  have hOld : ∀ u q, s'.deleting u = some q → s.deleting u = some q ∧ u ≠ t := by
    intro u q hu
    rw [hDeleting] at hu
    rcases update_at s.deleting t none u with ⟨-, hAt⟩ | ⟨hut, hAt⟩ <;> rw [hAt] at hu
    · cases hu
    · exact ⟨hu, hut⟩
  refine ⟨?_, ?_, ?_⟩
  · rw [hAllocated, hExternal, hInternal]
    intro u q hu
    obtain ⟨hu, hut⟩ := hOld u q hu
    obtain ⟨hAlloc, hClosed⟩ := h.deleting u q hu
    have hne : q ≠ p := by
      rintro rfl
      exact hut (h.unique u t q hu hOwn)
    exact ⟨(Function.update_of_ne hne ..).trans hAlloc, hClosed⟩
  · intro u v q hu hv
    exact h.unique u v q (hOld u q hu).1 (hOld v q hv).1
  · rw [hAllocated, hExternal, hInternal, hDeleting]
    intro q hAllocQ hExternalQ hInternalQ
    rcases update_at s.allocated p false q with ⟨-, hAt⟩ | ⟨hne, hAt⟩ <;> rw [hAt] at hAllocQ
    · cases hAllocQ
    · obtain ⟨u, hu⟩ := h.cover q hAllocQ hExternalQ hInternalQ
      have hut : u ≠ t := by
        rintro rfl
        cases hu.symm.trans hOwn
        exact hne rfl
      exact ⟨u, (Function.update_of_ne hut ..).trans hu⟩

omit [DecidableEq τ] in
/-- A `push` makes its node. -/
theorem create (h : Deletes s) {p : Nat} (hFree : s.allocated p = false)
    (hAllocated : s'.allocated = Function.update s.allocated p true)
    (hExternal : s'.external = Function.update s.external p (some 1))
    (hInternal : s'.internalCount = Function.update s.internalCount p 0)
    (hDeleting : s'.deleting = s.deleting) : Deletes s' := by
  refine ⟨?_, ?_, ?_⟩
  · rw [hAllocated, hExternal, hInternal, hDeleting]
    intro u q hu
    obtain ⟨hAlloc, hOpen, hZero⟩ := h.deleting u q hu
    have hne : q ≠ p := by
      rintro rfl
      rw [hAlloc] at hFree
      cases hFree
    exact ⟨(Function.update_of_ne hne ..).trans hAlloc, (Function.update_of_ne hne ..).trans hOpen,
      (Function.update_of_ne hne ..).trans hZero⟩
  · rw [hDeleting]
    exact h.unique
  · rw [hAllocated, hExternal, hInternal, hDeleting]
    intro q hAllocQ hExternalQ hInternalQ
    by_cases hne : q = p
    · rw [hne, Function.update_self] at hExternalQ
      cases hExternalQ
    · rw [Function.update_of_ne hne] at hAllocQ hExternalQ hInternalQ
      exact h.cover q hAllocQ hExternalQ hInternalQ

end Deletes

end EmbLinux.DesignLockFree.Stack
