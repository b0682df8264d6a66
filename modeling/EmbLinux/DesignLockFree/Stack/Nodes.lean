import EmbLinux.DesignLockFree.Stack.Steps
import EmbLinux.Lib.Chain

/-!
# EmbLinux — the nodes of `lock_free_stack`

`Nodes s l` — the chain from `head` runs through the nodes `l`, and the external count
of each of them is in the pointer that leads to it: in `head` for the first one, in the
`next` of the node above it for the others. A new node is with one `push`, and nobody
else knows it; a node that a thread has a reference to is not new.
-/

namespace EmbLinux.DesignLockFree.Stack

variable {τ α : Type*} [DecidableEq τ] {s s' : State τ α} {t : τ} {l : List Nat}

-- ---------------------------------------------------------------------------
-- External counts along a chain
-- ---------------------------------------------------------------------------

/-- Each node has the count of the pointer that leads to it. -/
def Counted (external : Nat → Option Int) (next : Nat → CountedNodePtr) :
    CountedNodePtr → List Nat → Prop
  | _, [] => True
  | c, p :: rest => external p = some c.externalCount ∧ Counted external next (next p) rest

/-- The counts along a chain depend on its own nodes only. -/
theorem Counted.congr {external external' : Nat → Option Int} {next next' : Nat → CountedNodePtr}
    {c : CountedNodePtr} (h : Counted external next c l)
    (hExternal : ∀ p ∈ l, external' p = external p) (hNext : ∀ p ∈ l, next' p = next p) :
    Counted external' next' c l := by
  induction l generalizing c with
  | nil => trivial
  | cons p rest ih =>
    obtain ⟨hHere, hRest⟩ := h
    refine ⟨(hExternal p List.mem_cons_self).trans hHere, ?_⟩
    rw [hNext p List.mem_cons_self]
    exact ih hRest (fun q hq => hExternal q (List.mem_cons_of_mem p hq))
      fun q hq => hNext q (List.mem_cons_of_mem p hq)

/-- No node of the chain has had its external count closed. -/
theorem Counted.open {external : Nat → Option Int} {next : Nat → CountedNodePtr}
    {c : CountedNodePtr} (h : Counted external next c l) {p : Nat} (hp : p ∈ l) :
    ∃ n, external p = some n := by
  induction l generalizing c with
  | nil => cases hp
  | cons q rest ih =>
    obtain ⟨hHere, hRest⟩ := h
    rcases List.mem_cons.mp hp with rfl | hp
    · exact ⟨_, hHere⟩
    · exact ih hRest hp

-- ---------------------------------------------------------------------------
-- The invariant
-- ---------------------------------------------------------------------------

/-- The nodes of the chain, and those that threads hold or own beside it. -/
structure Nodes (s : State τ α) (l : List Nat) : Prop where
  /-- The chain leads from `head` to the end. -/
  linked : Linked (fun p => (s.next p).ptr) 0 s.head.ptr l
  /-- The count of a node is in the pointer that leads to it. -/
  counted : Counted s.external s.next s.head l
  onChain : ∀ p ∈ l, s.allocated p = true
  /-- A new node is on no chain and has the count 1, -/
  owned : ∀ t p, s.owned t = some p →
    p ≠ 0 ∧ s.allocated p = true ∧ p ∉ l ∧ s.external p = some 1
  /-- and is with one thread. -/
  ownedUnique : ∀ t u p, s.owned t = some p → s.owned u = some p → t = u
  /-- A node that a thread holds exists and is not new. -/
  held : ∀ t p, s.held t = some p → p ≠ 0 ∧ s.allocated p = true ∧ ∀ u, s.owned u ≠ some p

namespace Nodes

section

omit [DecidableEq τ]

/-- No node is on the chain twice. -/
theorem nodup (h : Nodes s l) : l.Nodup :=
  h.linked.nodup

/-- The node that `head` points to is the first one. -/
theorem head_cons (h : Nodes s l) (hPtr : s.head.ptr ≠ 0) :
    ∃ rest, l = s.head.ptr :: rest ∧ s.external s.head.ptr = some s.head.externalCount ∧
      Linked (fun p => (s.next p).ptr) 0 (s.next s.head.ptr).ptr rest ∧
      Counted s.external s.next (s.next s.head.ptr) rest ∧ s.head.ptr ∉ rest := by
  obtain ⟨rest, rfl, hRest⟩ := h.linked.eq_cons hPtr
  obtain ⟨hCount, hCounts⟩ := h.counted
  exact ⟨rest, rfl, hCount, hRest, hCounts, (List.nodup_cons.mp h.nodup).1⟩

/-- Nothing happens to the nodes. -/
theorem keep (h : Nodes s l) (hNext : s'.next = s.next) (hHead : s'.head = s.head)
    (hExternal : s'.external = s.external) (hAllocated : s'.allocated = s.allocated)
    (hOwned : s'.owned = s.owned) (hHeld : s'.held = s.held) : Nodes s' l := by
  refine ⟨?_, ?_, ?_, ?_, ?_, ?_⟩
  · rw [hNext, hHead]
    exact h.linked
  · rw [hExternal, hNext, hHead]
    exact h.counted
  · rw [hAllocated]
    exact h.onChain
  · rw [hOwned, hAllocated, hExternal]
    exact h.owned
  · rw [hOwned]
    exact h.ownedUnique
  · rw [hHeld, hAllocated, hOwned]
    exact h.held

/-- The count of a null `head` grows. -/
theorem empty (h : Nodes s l) (hNull : s.head.ptr = 0)
    (hHead : s'.head.ptr = s.head.ptr) (hExternal : s'.external = s.external)
    (hAllocated : s'.allocated = s.allocated) (hOwned : s'.owned = s.owned)
    (hHeld : s'.held = s.held) : Nodes s' l := by
  have hLinked := h.linked
  rw [hNull] at hLinked
  obtain rfl := hLinked.eq_nil
  refine ⟨hHead.trans hNull, trivial, ?_, ?_, ?_, ?_⟩
  · intro p hp
    cases hp
  · rw [hOwned, hAllocated, hExternal]
    exact h.owned
  · rw [hOwned]
    exact h.ownedUnique
  · rw [hHeld, hAllocated, hOwned]
    exact h.held

end

/-- A thread takes a reference through `head`. -/
theorem increase (h : Nodes s l) {c : Int} (hPtr : s.head.ptr ≠ 0) (hNext : s'.next = s.next)
    (hHead : s'.head = ⟨c, s.head.ptr⟩)
    (hExternal : s'.external = Function.update s.external s.head.ptr (some c))
    (hAllocated : s'.allocated = s.allocated) (hOwned : s'.owned = s.owned)
    (hHeld : s'.held = Function.update s.held t (some s.head.ptr)) : Nodes s' l := by
  obtain ⟨rest, rfl, hCount, hRest, hCounts, hOut⟩ := h.head_cons hPtr
  have hNotOwned : ∀ u, s.owned u ≠ some s.head.ptr :=
    fun u hu => (h.owned u _ hu).2.2.1 List.mem_cons_self
  refine ⟨?_, ⟨?_, ?_⟩, ?_, ?_, ?_, ?_⟩
  · rw [hNext, hHead]
    exact h.linked
  · rw [hExternal, hHead, Function.update_self]
  · rw [hExternal, hNext]
    refine hCounts.congr ?_ fun _ _ => rfl
    intro p hp
    have hne : p ≠ s.head.ptr := fun hEq => hOut (hEq ▸ hp)
    exact Function.update_of_ne hne ..
  · rw [hAllocated]
    exact h.onChain
  · rw [hOwned, hAllocated, hExternal]
    intro u p hu
    obtain ⟨hZero, hAlloc, hOff, hOne⟩ := h.owned u p hu
    have hne : p ≠ s.head.ptr := fun hEq => hNotOwned u (hEq ▸ hu)
    exact ⟨hZero, hAlloc, hOff, (Function.update_of_ne hne ..).trans hOne⟩
  · rw [hOwned]
    exact h.ownedUnique
  · rw [hHeld, hAllocated, hOwned]
    intro u p hu
    rcases update_at s.held t (some s.head.ptr) u with ⟨-, hAt⟩ | ⟨-, hAt⟩ <;> rw [hAt] at hu
    · cases hu
      exact ⟨hPtr, h.onChain _ List.mem_cons_self, hNotOwned⟩
    · exact h.held u p hu

omit [DecidableEq τ] in
/-- A thread drops its reference, or deletes: nothing happens to the nodes of the stack
and to the new ones. -/
theorem drop (h : Nodes s l) (hNext : s'.next = s.next) (hHead : s'.head = s.head)
    (hExternal : ∀ q, (q ∈ l ∨ ∃ u, s.owned u = some q) → s'.external q = s.external q)
    (hAllocated : ∀ q, (q ∈ l ∨ ∃ u, s.owned u = some q) → s'.allocated q = s.allocated q)
    (hOwned : s'.owned = s.owned)
    (hHeld : ∀ u q, s'.held u = some q → s.held u = some q ∧ s'.allocated q = s.allocated q) :
    Nodes s' l := by
  refine ⟨?_, ?_, ?_, ?_, ?_, ?_⟩
  · rw [hNext, hHead]
    exact h.linked
  · rw [hNext, hHead]
    exact h.counted.congr (fun q hq => hExternal q (Or.inl hq)) fun _ _ => rfl
  · intro q hq
    rw [hAllocated q (Or.inl hq)]
    exact h.onChain q hq
  · rw [hOwned]
    intro u q hu
    rw [hAllocated q (Or.inr ⟨u, hu⟩), hExternal q (Or.inr ⟨u, hu⟩)]
    exact h.owned u q hu
  · rw [hOwned]
    exact h.ownedUnique
  · rw [hOwned]
    intro u q hu
    obtain ⟨hOld, hSame⟩ := hHeld u q hu
    rw [hSame]
    exact h.held u q hOld

omit [DecidableEq τ] in
/-- A `pop` takes the top node off. -/
theorem popCas (h : Nodes s l) (hPtr : s.head.ptr ≠ 0) (hNext : s'.next = s.next)
    (hHead : s'.head = s.next s.head.ptr) (hExternal : s'.external = s.external)
    (hAllocated : s'.allocated = s.allocated) (hOwned : s'.owned = s.owned)
    (hHeld : s'.held = s.held) : Nodes s' l.tail := by
  obtain ⟨rest, rfl, -, hRest, hCounts, -⟩ := h.head_cons hPtr
  refine ⟨?_, ?_, ?_, ?_, ?_, ?_⟩
  · rw [hNext, hHead]
    exact hRest
  · rw [hExternal, hNext, hHead]
    exact hCounts
  · rw [hAllocated]
    exact fun p hp => h.onChain p (List.mem_cons_of_mem _ hp)
  · rw [hOwned, hAllocated, hExternal]
    intro u p hu
    obtain ⟨hZero, hAlloc, hOff, hOne⟩ := h.owned u p hu
    exact ⟨hZero, hAlloc, fun hMem => hOff (List.mem_cons_of_mem _ hMem), hOne⟩
  · rw [hOwned]
    exact h.ownedUnique
  · rw [hHeld, hAllocated, hOwned]
    exact h.held

/-- A `push` makes its node. -/
theorem alloc (h : Nodes s l) {p : Nat} (hZero : p ≠ 0) (hFree : s.allocated p = false)
    (hNext : ∀ q, q ≠ p → s'.next q = s.next q) (hHead : s'.head = s.head)
    (hExternal : s'.external = Function.update s.external p (some 1))
    (hAllocated : s'.allocated = Function.update s.allocated p true)
    (hOwned : s'.owned = Function.update s.owned t (some p)) (hHeld : s'.held = s.held) :
    Nodes s' l := by
  have hNe : ∀ q, s.allocated q = true → q ≠ p := by
    rintro q hq rfl
    rw [hFree] at hq
    cases hq
  have hChain : ∀ q ∈ l, q ≠ p := fun q hq => hNe q (h.onChain q hq)
  refine ⟨?_, ?_, ?_, ?_, ?_, ?_⟩
  · rw [hHead]
    exact h.linked.congr fun q hq => by rw [hNext q (hChain q hq)]
  · rw [hHead]
    refine h.counted.congr ?_ fun q hq => hNext q (hChain q hq)
    intro q hq
    rw [hExternal, Function.update_of_ne (hChain q hq)]
  · intro q hq
    rw [hAllocated, Function.update_of_ne (hChain q hq)]
    exact h.onChain q hq
  · rw [hOwned, hAllocated, hExternal]
    intro u q hu
    rcases update_at s.owned t (some p) u with ⟨-, hAt⟩ | ⟨-, hAt⟩ <;> rw [hAt] at hu
    · cases hu
      exact ⟨hZero, Function.update_self .., fun hMem => hChain p hMem rfl,
        Function.update_self ..⟩
    · obtain ⟨hZero', hAlloc, hOff, hOne⟩ := h.owned u q hu
      have hq := hNe q hAlloc
      exact ⟨hZero', by rw [Function.update_of_ne hq]; exact hAlloc, hOff,
        by rw [Function.update_of_ne hq]; exact hOne⟩
  · rw [hOwned]
    intro u v q hu hv
    rcases update_at s.owned t (some p) u with ⟨hut, hAtU⟩ | ⟨-, hAtU⟩ <;> rw [hAtU] at hu <;>
      rcases update_at s.owned t (some p) v with ⟨hvt, hAtV⟩ | ⟨-, hAtV⟩ <;> rw [hAtV] at hv
    · rw [hut, hvt]
    · cases hu
      exact absurd rfl (hNe p (h.owned v p hv).2.1)
    · cases hv
      exact absurd rfl (hNe p (h.owned u p hu).2.1)
    · exact h.ownedUnique u v q hu hv
  · rw [hHeld, hAllocated, hOwned]
    intro u q hu
    obtain ⟨hZero', hAlloc, hNot⟩ := h.held u q hu
    have hq := hNe q hAlloc
    refine ⟨hZero', by rw [Function.update_of_ne hq]; exact hAlloc, ?_⟩
    intro v hv
    rcases update_at s.owned t (some p) v with ⟨-, hAt⟩ | ⟨-, hAt⟩ <;> rw [hAt] at hv
    · cases hv
      exact hq rfl
    · exact hNot v hv

omit [DecidableEq τ] in
/-- A `push` writes the `next` of its own node. -/
theorem storeNext (h : Nodes s l) {p : Nat} (hOwn : s.owned t = some p)
    (hNext : ∀ q, q ≠ p → s'.next q = s.next q) (hHead : s'.head = s.head)
    (hExternal : s'.external = s.external) (hAllocated : s'.allocated = s.allocated)
    (hOwned : s'.owned = s.owned) (hHeld : s'.held = s.held) : Nodes s' l := by
  have hChain : ∀ q ∈ l, s'.next q = s.next q := by
    intro q hq
    exact hNext q fun hEq => (h.owned t p hOwn).2.2.1 (hEq ▸ hq)
  refine ⟨?_, ?_, ?_, ?_, ?_, ?_⟩
  · rw [hHead]
    exact h.linked.congr fun q hq => by rw [hChain q hq]
  · rw [hExternal, hHead]
    exact h.counted.congr (fun _ _ => rfl) hChain
  · rw [hAllocated]
    exact h.onChain
  · rw [hOwned, hAllocated, hExternal]
    exact h.owned
  · rw [hOwned]
    exact h.ownedUnique
  · rw [hHeld, hAllocated, hOwned]
    exact h.held

/-- A `push` puts its node on the stack. -/
theorem pushCas (h : Nodes s l) {p : Nat} (hOwn : s.owned t = some p) (hTop : s.head = s.next p)
    (hNext : s'.next = s.next) (hHead : s'.head = ⟨1, p⟩) (hExternal : s'.external = s.external)
    (hAllocated : s'.allocated = s.allocated) (hOwned : s'.owned = Function.update s.owned t none)
    (hHeld : s'.held = s.held) : Nodes s' (p :: l) := by
  obtain ⟨hZero, hAlloc, -, hOne⟩ := h.owned t p hOwn
  have hOld : ∀ u q, s'.owned u = some q → s.owned u = some q ∧ u ≠ t := by
    intro u q hu
    rw [hOwned] at hu
    rcases update_at s.owned t none u with ⟨-, hAt⟩ | ⟨hut, hAt⟩ <;> rw [hAt] at hu
    · cases hu
    · exact ⟨hu, hut⟩
  refine ⟨?_, ⟨?_, ?_⟩, ?_, ?_, ?_, ?_⟩
  · rw [hNext, hHead]
    refine Linked.cons hZero ?_
    rw [← hTop]
    exact h.linked
  · rw [hExternal, hHead]
    exact hOne
  · rw [hExternal, hNext, ← hTop]
    exact h.counted
  · rw [hAllocated]
    intro q hq
    rcases List.mem_cons.mp hq with rfl | hq
    · exact hAlloc
    · exact h.onChain q hq
  · rw [hAllocated, hExternal]
    intro u q hu
    obtain ⟨hOldOwned, hut⟩ := hOld u q hu
    obtain ⟨hZero', hAlloc', hOff, hOne'⟩ := h.owned u q hOldOwned
    refine ⟨hZero', hAlloc', ?_, hOne'⟩
    intro hMem
    rcases List.mem_cons.mp hMem with rfl | hMem
    · exact hut (h.ownedUnique u t q hOldOwned hOwn)
    · exact hOff hMem
  · intro u v q hu hv
    exact h.ownedUnique u v q (hOld u q hu).1 (hOld v q hv).1
  · rw [hHeld, hAllocated]
    intro u q hu
    obtain ⟨hZero', hAlloc', hNot⟩ := h.held u q hu
    exact ⟨hZero', hAlloc', fun v hv => hNot v (hOld v q hv).1⟩

end Nodes

end EmbLinux.DesignLockFree.Stack
