import EmbLinux.DesignLockFree.Queue.Steps
import EmbLinux.Lib.Chain
import EmbLinux.Lib.Update

/-!
# EmbLinux — where the nodes of the queue are

`Nodes s before after` — the chain from `head` runs through `before`, the tail node
and `after`, where `after` is empty or the one node that `tail` has not moved to yet.
Every allocated node is on this chain, or behind it (`head` and `tail` have passed
it), or it is the new node of one running `push`.

There is one lemma for each kind of access: most leave the chain alone (`keep`), the
others allocate a node, link it, move `tail` or `head`, or delete a node.
-/

namespace EmbLinux.DesignLockFree.Queue

variable {τ α : Type*} [DecidableEq τ] {s s' : State τ α} {t : τ} {before after : List Nat}

/-- The nodes from `head` on. -/
def State.chain (s : State τ α) (before after : List Nat) : List Nat :=
  before ++ (s.counter .tail).ptr :: after

omit [DecidableEq τ] in
/-- The tail node is on the chain. -/
theorem tail_mem_chain (s : State τ α) (before after : List Nat) :
    (s.counter .tail).ptr ∈ s.chain before after :=
  List.mem_append_right _ List.mem_cons_self

/-- The nodes from `head` to the end, of which at most one is beyond `tail`, and those that have
left them. -/
structure Nodes (s : State τ α) (before after : List Nat) : Prop where
  /-- The chain leads from `head` past `tail` to the end. -/
  linked : Linked (fun p => (s.next p).ptr) 0 (s.counter .head).ptr (s.chain before after)
  /-- One node at most is beyond `tail`. -/
  short : after.length ≤ 1
  /-- Its nodes exist, and `head` has passed none of them. -/
  onChain : ∀ p ∈ s.chain before after,
    s.allocated p = true ∧ s.published p = true ∧ s.passed p .head = false
  /-- `tail` has passed those before it -/
  tailPassed : ∀ p ∈ before, s.passed p .tail = true
  /-- and no others. -/
  tailAhead : ∀ p ∈ (s.counter .tail).ptr :: after, s.passed p .tail = false
  /-- What was linked once and is not on the chain, both have passed. -/
  behind : ∀ p, s.allocated p = true → s.published p = true → p ∉ s.chain before after →
    ∀ side, s.passed p side = true
  /-- The count in a `next` is 1. -/
  next : ∀ p, s.allocated p = true →
    s.next p = nullNext ∨ ((s.next p).externalCount = 1 ∧ (s.next p).ptr ≠ 0)
  nextPassed : ∀ p, s.allocated p = true → s.passed p .tail = true → s.next p ≠ nullNext
  /-- A node that was never linked is as `new` made it, -/
  unlinked : ∀ p, s.allocated p = true → s.published p = false →
    s.next p = nullNext ∧ ∀ side, s.passed p side = false
  /-- and with one thread, which alone knows it. -/
  owned : ∀ t new, (s.role t).owned = some new →
    new.externalCount = 1 ∧ new.ptr ≠ 0 ∧ s.allocated new.ptr = true ∧ s.published new.ptr = false
  ownedUnique : ∀ t u new new', (s.role t).owned = some new → (s.role u).owned = some new' →
    new.ptr = new'.ptr → t = u
  ownedCover : ∀ p, s.allocated p = true → s.published p = false →
    ∃ t new, (s.role t).owned = some new ∧ new.ptr = p
  /-- A node that a thread holds exists; `tail` is at it or has passed it. -/
  held : ∀ t p, (s.role t).held = some p → s.allocated p = true ∧ s.published p = true ∧
    (p = (s.counter .tail).ptr ∨ s.passed p .tail = true)

/-- A step moves one thread. -/
theorem role_step {pc : Pc (Numbered α)} (hPc : s'.pc = Function.update s.pc t pc) :
    s'.role = Function.update s.role t pc.role := by
  show (fun u => (s'.pc u).role) = _
  rw [hPc]
  exact part_update Pc.role s.pc t pc

namespace Nodes

section

omit [DecidableEq τ]

/-- No node is on the chain twice. -/
theorem nodup (h : Nodes s before after) : (s.chain before after).Nodup :=
  h.linked.nodup

/-- `head` is at the first node of the chain. -/
theorem head_mem (h : Nodes s before after) : (s.counter .head).ptr ∈ s.chain before after := by
  have hLinked := h.linked
  cases hChain : s.chain before after with
  | nil =>
    have hMem := tail_mem_chain s before after
    rw [hChain] at hMem
    cases hMem
  | cons p rest =>
    rw [hChain] at hLinked
    obtain ⟨hEq, -⟩ := hLinked
    rw [hEq]
    exact List.mem_cons_self

/-- Both pointers are on it. -/
theorem counter_mem (h : Nodes s before after) (side : Side) :
    (s.counter side).ptr ∈ s.chain before after := by
  cases side
  · exact h.head_mem
  · exact tail_mem_chain s before after

/-- Neither `head` nor `tail` has passed the node that it is at. -/
theorem counter_ahead (h : Nodes s before after) (side : Side) :
    s.passed (s.counter side).ptr side = false := by
  cases side
  · exact (h.onChain _ h.head_mem).2.2
  · exact h.tailAhead _ List.mem_cons_self

/-- `head` is at the tail node, or `tail` has passed its node. -/
theorem head_at (h : Nodes s before after) : (s.counter .head).ptr = (s.counter .tail).ptr ∨
    s.passed (s.counter .head).ptr .tail = true := by
  have hLinked := h.linked
  cases before with
  | nil => exact Or.inl hLinked.1
  | cons p rest =>
    right
    obtain ⟨hEq, -⟩ := hLinked
    rw [hEq]
    exact h.tailPassed p List.mem_cons_self

end

/-- An access that moves no node: at most, the thread takes or drops a reference. -/
theorem keep (h : Nodes s before after) {r : Role} (hRole : s'.role = Function.update s.role t r)
    (hNext : s'.next = s.next) (hAllocated : s'.allocated = s.allocated)
    (hPublished : s'.published = s.published) (hPassed : s'.passed = s.passed)
    (hCounter : ∀ side, (s'.counter side).ptr = (s.counter side).ptr)
    (hOwned : r.owned = (s.role t).owned)
    (hHeld : ∀ p, r.held = some p → (s.role t).held = some p ∨ ∃ side, p = (s.counter side).ptr) :
    Nodes s' before after := by
  have hChain : s'.chain before after = s.chain before after := by
    rw [State.chain, hCounter]
    rfl
  have hSame : ∀ u, (s'.role u).owned = (s.role u).owned :=
    observe_update Role.owned hRole hOwned
  refine ⟨?_, h.short, ?_, ?_, ?_, ?_, ?_, ?_, ?_, ?_, ?_, ?_, ?_⟩
  · rw [hChain, hNext, hCounter]
    exact h.linked
  · rw [hChain, hAllocated, hPublished, hPassed]
    exact h.onChain
  · rw [hPassed]
    exact h.tailPassed
  · rw [hPassed, hCounter]
    exact h.tailAhead
  · rw [hChain, hAllocated, hPublished, hPassed]
    exact h.behind
  · rw [hAllocated, hNext]
    exact h.next
  · rw [hAllocated, hNext, hPassed]
    exact h.nextPassed
  · rw [hAllocated, hNext, hPublished, hPassed]
    exact h.unlinked
  · simp only [hSame, hAllocated, hPublished]
    exact h.owned
  · simp only [hSame]
    exact h.ownedUnique
  · simp only [hSame, hAllocated, hPublished]
    exact h.ownedCover
  · rw [hAllocated, hPublished, hPassed, hCounter]
    intro u p hu
    rcases update_cases hRole u with ⟨rfl, hAt⟩ | ⟨-, hAt⟩ <;> rw [hAt] at hu
    · rcases hHeld p hu with hOld | ⟨side, rfl⟩
      · exact h.held u p hOld
      · obtain ⟨hAlloc, hPub, -⟩ := h.onChain _ (h.counter_mem side)
        refine ⟨hAlloc, hPub, ?_⟩
        cases side
        · exact h.head_at
        · exact Or.inl rfl
    · exact h.held u p hu

/-- A new node. -/
theorem alloc (h : Nodes s before after) {r : Role} {p : Nat}
    (hRole : s'.role = Function.update s.role t r)
    (hNext : s'.next = Function.update s.next p nullNext)
    (hAllocated : s'.allocated = Function.update s.allocated p true)
    (hPublished : s'.published = Function.update s.published p false)
    (hPassed : s'.passed = Function.update s.passed p fun _ => false)
    (hCounter : s'.counter = s.counter) (hZero : p ≠ 0) (hFree : s.allocated p = false)
    {new : CountedNodePtr} (hNew : new.externalCount = 1 ∧ new.ptr = p)
    (hOwned : (s.role t).owned = none) (hOwned' : r.owned = some new)
    (hHeld : r.held = (s.role t).held) : Nodes s' before after := by
  have hChain : s'.chain before after = s.chain before after := by
    rw [State.chain, hCounter]
    rfl
  -- no allocated node is the new one
  have hNe : ∀ q, s.allocated q = true → q ≠ p := by
    rintro q hq rfl
    rw [hFree] at hq
    cases hq
  have hOld : ∀ q, q ≠ p → s'.next q = s.next q ∧ s'.allocated q = s.allocated q ∧
      s'.published q = s.published q ∧ s'.passed q = s.passed q := by
    intro q hq
    rw [hNext, hAllocated, hPublished, hPassed]
    exact ⟨Function.update_of_ne hq .., Function.update_of_ne hq .., Function.update_of_ne hq ..,
      Function.update_of_ne hq ..⟩
  have hHere : s'.next p = nullNext ∧ s'.allocated p = true ∧ s'.published p = false ∧
      s'.passed p = fun _ => false := by
    rw [hNext, hAllocated, hPublished, hPassed]
    exact ⟨Function.update_self .., Function.update_self .., Function.update_self ..,
      Function.update_self ..⟩
  have hOn : ∀ q ∈ s.chain before after, q ≠ p := fun q hq => hNe q (h.onChain q hq).1
  refine ⟨?_, h.short, ?_, ?_, ?_, ?_, ?_, ?_, ?_, ?_, ?_, ?_, ?_⟩
  · rw [hChain, hCounter]
    refine h.linked.congr ?_
    intro q hq
    rw [(hOld q (hOn q hq)).1]
  · rw [hChain]
    intro q hq
    obtain ⟨-, hAlloc, hPub, hPass⟩ := hOld q (hOn q hq)
    rw [hAlloc, hPub, hPass]
    exact h.onChain q hq
  · intro q hq
    rw [(hOld q (hOn q (List.mem_append_left _ hq))).2.2.2]
    exact h.tailPassed q hq
  · rw [hCounter]
    intro q hq
    rw [(hOld q (hOn q (List.mem_append_right _ hq))).2.2.2]
    exact h.tailAhead q hq
  · rw [hChain]
    intro q hAlloc hPub hOut
    have hqp : q ≠ p := by
      rintro rfl
      rw [hHere.2.2.1] at hPub
      cases hPub
    obtain ⟨-, hAllocEq, hPubEq, hPass⟩ := hOld q hqp
    rw [hPass]
    exact h.behind q (hAllocEq ▸ hAlloc) (hPubEq ▸ hPub) hOut
  · intro q hAlloc
    by_cases hqp : q = p
    · exact Or.inl (hqp ▸ hHere.1)
    · obtain ⟨hNextEq, hAllocEq, -, -⟩ := hOld q hqp
      rw [hNextEq]
      exact h.next q (hAllocEq ▸ hAlloc)
  · intro q hAlloc hPass
    by_cases hqp : q = p
    · rw [hqp, hHere.2.2.2] at hPass
      cases hPass
    · obtain ⟨hNextEq, hAllocEq, -, hPassEq⟩ := hOld q hqp
      rw [hNextEq]
      exact h.nextPassed q (hAllocEq ▸ hAlloc) (hPassEq ▸ hPass)
  · intro q hAlloc hPub
    by_cases hqp : q = p
    · rw [hqp, hHere.2.2.2]
      exact ⟨hHere.1, fun _ => rfl⟩
    · obtain ⟨hNextEq, hAllocEq, hPubEq, hPassEq⟩ := hOld q hqp
      rw [hNextEq, hPassEq]
      exact h.unlinked q (hAllocEq ▸ hAlloc) (hPubEq ▸ hPub)
  · intro u new' hu
    rcases update_cases hRole u with ⟨rfl, hAt⟩ | ⟨-, hAt⟩ <;> rw [hAt] at hu
    · cases Option.some.inj (hOwned'.symm.trans hu)
      rw [hNew.2]
      exact ⟨hNew.1, hZero, hHere.2.1, hHere.2.2.1⟩
    · obtain ⟨hOne, hNonzero, hAlloc, hPub⟩ := h.owned u new' hu
      obtain ⟨-, hAllocEq, hPubEq, -⟩ := hOld _ (hNe _ hAlloc)
      rw [hAllocEq, hPubEq]
      exact ⟨hOne, hNonzero, hAlloc, hPub⟩
  · intro u v new₁ new₂ hu hv hEq
    rcases update_cases hRole u with ⟨rfl, hAtU⟩ | ⟨-, hAtU⟩ <;>
      rcases update_cases hRole v with ⟨rfl, hAtV⟩ | ⟨-, hAtV⟩ <;> rw [hAtU] at hu <;>
      rw [hAtV] at hv
    · cases Option.some.inj (hOwned'.symm.trans hu)
      exact absurd (hEq.symm.trans hNew.2) (hNe _ (h.owned v new₂ hv).2.2.1)
    · cases Option.some.inj (hOwned'.symm.trans hv)
      exact absurd (hEq.trans hNew.2) (hNe _ (h.owned u new₁ hu).2.2.1)
    · exact h.ownedUnique u v new₁ new₂ hu hv hEq
  · intro q hAlloc hPub
    by_cases hqp : q = p
    · refine ⟨t, new, ?_, hNew.2.trans hqp.symm⟩
      rw [hRole, Function.update_self]
      exact hOwned'
    · obtain ⟨-, hAllocEq, hPubEq, -⟩ := hOld q hqp
      obtain ⟨u, new', hu, hEq⟩ := h.ownedCover q (hAllocEq ▸ hAlloc) (hPubEq ▸ hPub)
      have hut : u ≠ t := by
        rintro rfl
        rw [hOwned] at hu
        cases hu
      refine ⟨u, new', ?_, hEq⟩
      rw [hRole, Function.update_of_ne hut]
      exact hu
  · rw [hCounter]
    intro u q hu
    have hOldHeld : (s.role u).held = some q :=
      (observe_update Role.held hRole hHeld u).symm.trans hu
    obtain ⟨hAlloc, hPub, hAt⟩ := h.held u q hOldHeld
    obtain ⟨-, hAllocEq, hPubEq, hPassEq⟩ := hOld q (hNe q hAlloc)
    rw [hAllocEq, hPubEq, hPassEq]
    exact ⟨hAlloc, hPub, hAt⟩

section

omit [DecidableEq τ]

/-- The successor of a node is null, or it is a node. -/
theorem next_ptr (h : Nodes s before after) {p : Nat} (hAlloc : s.allocated p = true) :
    s.next p = nullNext ↔ (s.next p).ptr = 0 := by
  constructor
  · intro hNull
    rw [hNull]
    rfl
  · intro hZero
    exact (h.next p hAlloc).resolve_right fun hNe => hNe.2 hZero

/-- `after` is the successor of the tail node. -/
theorem after_eq (h : Nodes s before after) :
    (s.next (s.counter .tail).ptr = nullNext → after = []) ∧
      (s.next (s.counter .tail).ptr ≠ nullNext →
        after = [(s.next (s.counter .tail).ptr).ptr]) := by
  have hAlloc := (h.onChain _ (tail_mem_chain s before after)).1
  have hLinked := h.linked.append_right
  obtain ⟨-, -, hAfter⟩ := hLinked
  replace hAfter : Linked _ 0 (s.next (s.counter .tail).ptr).ptr after := hAfter
  constructor
  · intro hNull
    rw [(h.next_ptr hAlloc).mp hNull] at hAfter
    exact hAfter.eq_nil
  · intro hSome
    obtain ⟨rest, hEq, -⟩ := hAfter.eq_cons fun hZero => hSome ((h.next_ptr hAlloc).mpr hZero)
    have hShort := h.short
    rw [hEq, List.length_cons] at hShort
    obtain rfl : rest = [] := List.eq_nil_of_length_eq_zero (by omega)
    exact hEq

/-- The node with a null successor that a thread holds is the tail node. -/
theorem tail_of_null (h : Nodes s before after) {p : Nat} (hHeld : (s.role t).held = some p)
    (hNull : s.next p = nullNext) : p = (s.counter .tail).ptr := by
  obtain ⟨hAlloc, -, hAt⟩ := h.held t p hHeld
  exact hAt.resolve_right fun hPassed => h.nextPassed p hAlloc hPassed hNull

end

/-- A `push` links its new node behind the tail node. -/
theorem link (h : Nodes s before after) {r : Role} {new : CountedNodePtr}
    (hRole : s'.role = Function.update s.role t r)
    (hNext : s'.next = Function.update s.next (s.counter .tail).ptr new)
    (hPublished : s'.published = Function.update s.published new.ptr true)
    (hAllocated : s'.allocated = s.allocated) (hPassed : s'.passed = s.passed)
    (hCounter : s'.counter = s.counter) (hNull : s.next (s.counter .tail).ptr = nullNext)
    (hOwned : (s.role t).owned = some new) (hOwned' : r.owned = none)
    (hHeld : r.held = (s.role t).held) : Nodes s' before [new.ptr] := by
  obtain rfl : after = [] := h.after_eq.1 hNull
  obtain ⟨hOne, hZero, hAlloc, hPub⟩ := h.owned t new hOwned
  obtain ⟨hNewNext, hNewPassed⟩ := h.unlinked _ hAlloc hPub
  have hTail := h.onChain _ (tail_mem_chain s before [])
  have hChain : s'.chain before [new.ptr] = s.chain before [] ++ [new.ptr] := by
    rw [State.chain, State.chain, hCounter, List.append_assoc]
    rfl
  -- the new node was not published
  have hNe : ∀ q, s.published q = true → q ≠ new.ptr := by
    rintro q hq rfl
    rw [hPub] at hq
    cases hq
  have hPubOld : ∀ q, s.published q = true → s'.published q = true := by
    intro q hq
    rw [hPublished, Function.update_of_ne (hNe q hq)]
    exact hq
  have hPubNew : ∀ q, q ≠ new.ptr → s'.published q = s.published q := by
    intro q hq
    rw [hPublished, Function.update_of_ne hq]
  have hNotOwner : ∀ u new', (s'.role u).owned = some new' → u ≠ t ∧
      (s.role u).owned = some new' := by
    intro u new' hu
    rcases update_cases hRole u with ⟨rfl, hAt⟩ | ⟨hut, hAt⟩ <;> rw [hAt] at hu
    · rw [hOwned'] at hu
      cases hu
    · exact ⟨hut, hu⟩
  refine ⟨?_, Nat.le_refl 1, ?_, ?_, ?_, ?_, ?_, ?_, ?_, ?_, ?_, ?_, ?_⟩
  · have hLinked := h.linked.snoc (j := new.ptr) hZero (hNe _ hTail.2.1).symm
      (by rw [hNewNext]; rfl)
    rw [hChain, hCounter, hNext, part_update CountedNodePtr.ptr, State.chain, List.append_assoc]
    exact hLinked
  · rw [hChain, hAllocated, hPassed]
    intro q hq
    rcases List.mem_append.mp hq with hq | hq
    · obtain ⟨hAllocQ, hPubQ, hPassQ⟩ := h.onChain q hq
      exact ⟨hAllocQ, hPubOld q hPubQ, hPassQ⟩
    · rw [List.mem_singleton.mp hq, hPublished, Function.update_self]
      exact ⟨hAlloc, rfl, hNewPassed .head⟩
  · rw [hPassed]
    exact h.tailPassed
  · rw [hPassed, hCounter]
    intro q hq
    rcases List.mem_cons.mp hq with rfl | hq
    · exact h.tailAhead _ List.mem_cons_self
    · rw [List.mem_singleton.mp hq]
      exact hNewPassed .tail
  · rw [hChain, hAllocated, hPassed]
    intro q hAllocQ hPubQ hOut
    rw [List.mem_append, List.mem_singleton, not_or] at hOut
    exact h.behind q hAllocQ (hPubNew q hOut.2 ▸ hPubQ) hOut.1
  · rw [hAllocated]
    intro q hAllocQ
    rcases update_cases hNext q with ⟨-, hAt⟩ | ⟨-, hAt⟩ <;> rw [hAt]
    · exact Or.inr ⟨hOne, hZero⟩
    · exact h.next q hAllocQ
  · rw [hAllocated, hPassed]
    intro q hAllocQ hPassQ
    rcases update_cases hNext q with ⟨-, hAt⟩ | ⟨-, hAt⟩ <;> rw [hAt]
    · intro hEq
      rw [hEq] at hZero
      exact hZero rfl
    · exact h.nextPassed q hAllocQ hPassQ
  · rw [hAllocated, hPassed]
    intro q hAllocQ hPubQ
    have hqNew : q ≠ new.ptr := by
      rintro rfl
      rw [hPublished, Function.update_self] at hPubQ
      cases hPubQ
    rw [hPubNew q hqNew] at hPubQ
    have hqTail : q ≠ (s.counter .tail).ptr := by
      rintro rfl
      rw [hTail.2.1] at hPubQ
      cases hPubQ
    rw [hNext, Function.update_of_ne hqTail]
    exact h.unlinked q hAllocQ hPubQ
  · intro u new' hu
    obtain ⟨hut, hu⟩ := hNotOwner u new' hu
    have hne : new'.ptr ≠ new.ptr := fun hEq => hut (h.ownedUnique u t new' new hu hOwned hEq)
    rw [hAllocated, hPubNew _ hne]
    exact h.owned u new' hu
  · intro u v new₁ new₂ hu hv hEq
    exact h.ownedUnique u v new₁ new₂ (hNotOwner u new₁ hu).2 (hNotOwner v new₂ hv).2 hEq
  · rw [hAllocated]
    intro q hAllocQ hPubQ
    have hqNew : q ≠ new.ptr := by
      rintro rfl
      rw [hPublished, Function.update_self] at hPubQ
      cases hPubQ
    obtain ⟨u, new', hu, hEq⟩ := h.ownedCover q hAllocQ (hPubNew q hqNew ▸ hPubQ)
    have hut : u ≠ t := by
      rintro rfl
      cases Option.some.inj (hOwned.symm.trans hu)
      exact hqNew hEq.symm
    refine ⟨u, new', ?_, hEq⟩
    rw [hRole, Function.update_of_ne hut]
    exact hu
  · rw [hAllocated, hPassed, hCounter]
    intro u q hu
    obtain ⟨hAllocQ, hPubQ, hAt⟩ :=
      h.held u q ((observe_update Role.held hRole hHeld u).symm.trans hu)
    exact ⟨hAllocQ, hPubOld q hPubQ, hAt⟩

/-- `tail` moves to the successor of its node. -/
theorem moveTail (h : Nodes s before after) {r : Role} {new : CountedNodePtr}
    (hRole : s'.role = Function.update s.role t r) (hNext : s'.next = s.next)
    (hPublished : s'.published = s.published) (hAllocated : s'.allocated = s.allocated)
    (hPassed : s'.passed = Function.update s.passed (s.counter .tail).ptr
      (Function.update (s.passed (s.counter .tail).ptr) .tail true))
    (hCounter : s'.counter = Function.update s.counter .tail new)
    (hNew : new = s.next (s.counter .tail).ptr) (hSome : new ≠ nullNext)
    (hOwned : r.owned = (s.role t).owned) (hHeld : r.held = (s.role t).held) :
    Nodes s' (before ++ [(s.counter .tail).ptr]) [] := by
  obtain rfl : after = [new.ptr] := hNew ▸ h.after_eq.2 (hNew ▸ hSome)
  have hNodup := h.nodup
  have hTail := h.onChain _ (tail_mem_chain s before [new.ptr])
  have hNewTail : s'.counter .tail = new := by
    rw [hCounter, Function.update_self]
  have hHead : s'.counter .head = s.counter .head := by
    rw [hCounter, Function.update_of_ne (by decide)]
  have hChain : s'.chain (before ++ [(s.counter .tail).ptr]) [] = s.chain before [new.ptr] := by
    rw [State.chain, State.chain, hNewTail, List.append_assoc]
    rfl
  have hSame : ∀ u, (s'.role u).owned = (s.role u).owned := observe_update Role.owned hRole hOwned
  -- `passed` changes for the old tail node only, and there for `tail`
  have hPassHead : ∀ q, s'.passed q .head = s.passed q .head := by
    intro q
    rcases update_cases hPassed q with ⟨rfl, hAt⟩ | ⟨-, hAt⟩ <;> rw [hAt]
    rw [Function.update_of_ne (by decide)]
  have hPassOld : ∀ q, q ≠ (s.counter .tail).ptr → s'.passed q = s.passed q := by
    intro q hq
    rw [hPassed, Function.update_of_ne hq]
  have hPassTail : s'.passed (s.counter .tail).ptr .tail = true := by
    rw [hPassed, Function.update_self, Function.update_self]
  have hPassMono : ∀ q side, s.passed q side = true → s'.passed q side = true := by
    intro q side hq
    cases side with
    | head => exact (hPassHead q).trans hq
    | tail =>
      by_cases hqt : q = (s.counter .tail).ptr
      · exact hqt ▸ hPassTail
      · rw [hPassOld q hqt]
        exact hq
  refine ⟨?_, Nat.zero_le 1, ?_, ?_, ?_, ?_, ?_, ?_, ?_, ?_, ?_, ?_, ?_⟩
  · rw [hChain, hHead, hNext]
    exact h.linked
  · rw [hChain, hAllocated, hPublished]
    intro q hq
    rw [hPassHead]
    exact h.onChain q hq
  · intro q hq
    rcases List.mem_append.mp hq with hq | hq
    · exact hPassMono q .tail (h.tailPassed q hq)
    · rw [List.mem_singleton.mp hq]
      exact hPassTail
  · rw [hNewTail]
    intro q hq
    obtain rfl := List.mem_singleton.mp hq
    have hne : new.ptr ≠ (s.counter .tail).ptr := by
      intro hEq
      rw [State.chain, hEq] at hNodup
      exact (List.nodup_cons.mp (List.nodup_append'.mp hNodup).2.1).1 List.mem_cons_self
    rw [hPassOld _ hne]
    exact h.tailAhead _ (List.mem_cons_of_mem _ List.mem_cons_self)
  · rw [hChain, hAllocated, hPublished]
    intro q hAlloc hPub hOut side
    exact hPassMono q side (h.behind q hAlloc hPub hOut side)
  · rw [hAllocated, hNext]
    exact h.next
  · rw [hAllocated, hNext]
    intro q hAlloc hPass
    by_cases hqt : q = (s.counter .tail).ptr
    · rw [hqt, ← hNew]
      exact hSome
    · rw [hPassOld q hqt] at hPass
      exact h.nextPassed q hAlloc hPass
  · rw [hAllocated, hNext, hPublished]
    intro q hAlloc hPub
    have hqt : q ≠ (s.counter .tail).ptr := by
      rintro rfl
      rw [hTail.2.1] at hPub
      cases hPub
    rw [hPassOld q hqt]
    exact h.unlinked q hAlloc hPub
  · simp only [hSame, hAllocated, hPublished]
    exact h.owned
  · simp only [hSame]
    exact h.ownedUnique
  · simp only [hSame, hAllocated, hPublished]
    exact h.ownedCover
  · rw [hAllocated, hPublished, hNewTail]
    intro u q hu
    obtain ⟨hAlloc, hPub, hAt⟩ :=
      h.held u q ((observe_update Role.held hRole hHeld u).symm.trans hu)
    refine ⟨hAlloc, hPub, Or.inr ?_⟩
    rcases hAt with rfl | hPass
    · exact hPassTail
    · exact hPassMono q .tail hPass

/-- `head` moves to the successor of its node, which `tail` has passed. -/
theorem moveHead (h : Nodes s before after) {r : Role} {new : CountedNodePtr}
    (hRole : s'.role = Function.update s.role t r) (hNext : s'.next = s.next)
    (hPublished : s'.published = s.published) (hAllocated : s'.allocated = s.allocated)
    (hPassed : s'.passed = Function.update s.passed (s.counter .head).ptr
      (Function.update (s.passed (s.counter .head).ptr) .head true))
    (hCounter : s'.counter = Function.update s.counter .head new)
    (hNew : new = s.next (s.counter .head).ptr)
    (hTail : s.passed (s.counter .head).ptr .tail = true)
    (hOwned : r.owned = (s.role t).owned) (hHeld : r.held = (s.role t).held) :
    ∃ rest, before = (s.counter .head).ptr :: rest ∧ Nodes s' rest after := by
  have hLinked := h.linked
  have hNodup := h.nodup
  -- `tail` has passed the node, so it is not the tail node
  obtain ⟨rest, rfl⟩ : ∃ rest, before = (s.counter .head).ptr :: rest := by
    cases before with
    | nil =>
      rw [hLinked.1] at hTail
      rw [h.tailAhead _ List.mem_cons_self] at hTail
      cases hTail
    | cons p rest => exact ⟨rest, by rw [hLinked.1]⟩
  obtain ⟨-, -, hRest⟩ := hLinked
  have hTailSame : s'.counter .tail = s.counter .tail := by
    rw [hCounter, Function.update_of_ne (by decide)]
  have hChain : s'.chain rest after = s.chain rest after := by
    rw [State.chain, hTailSame]
    rfl
  have hOut : (s.counter .head).ptr ∉ s.chain rest after := (List.nodup_cons.mp hNodup).1
  have hSame : ∀ u, (s'.role u).owned = (s.role u).owned := observe_update Role.owned hRole hOwned
  -- only `head` passes a node in this step
  have hPassTail : ∀ q, s'.passed q .tail = s.passed q .tail := by
    intro q
    rcases update_cases hPassed q with ⟨rfl, hAt⟩ | ⟨-, hAt⟩ <;> rw [hAt]
    rw [Function.update_of_ne (by decide)]
  have hPassOld : ∀ q, q ≠ (s.counter .head).ptr → s'.passed q = s.passed q := by
    intro q hq
    rw [hPassed, Function.update_of_ne hq]
  have hMem : ∀ q ∈ s.chain rest after, q ∈ s.chain ((s.counter .head).ptr :: rest) after :=
    fun q hq => List.mem_cons_of_mem _ hq
  refine ⟨rest, rfl, ?_, h.short, ?_, ?_, ?_, ?_, ?_, ?_, ?_, ?_, ?_, ?_, ?_⟩
  -- the chain begins one node later
  · rw [hChain, hNext, hCounter, Function.update_self, hNew]
    exact hRest
  · rw [hChain, hAllocated, hPublished]
    intro q hq
    rw [hPassOld q fun hEq => hOut (hEq ▸ hq)]
    exact h.onChain q (hMem q hq)
  · intro q hq
    rw [hPassTail]
    exact h.tailPassed q (List.mem_cons_of_mem _ hq)
  · rw [hTailSame]
    intro q hq
    rw [hPassTail]
    exact h.tailAhead q hq
  · rw [hChain, hAllocated, hPublished]
    intro q hAlloc hPub hqOut side
    -- the node that was passed is behind both pointers now
    by_cases hqh : q = (s.counter .head).ptr
    · subst hqh
      cases side
      · rw [hPassed, Function.update_self, Function.update_self]
      · rw [hPassTail]
        exact hTail
    · rw [hPassOld q hqh]
      refine h.behind q hAlloc hPub ?_ side
      intro hq
      rcases List.mem_cons.mp hq with hEq | hq
      · exact hqh hEq
      · exact hqOut hq
  · rw [hAllocated, hNext]
    exact h.next
  · rw [hAllocated, hNext]
    intro q hAlloc hPass
    rw [hPassTail] at hPass
    exact h.nextPassed q hAlloc hPass
  · rw [hAllocated, hNext, hPublished]
    intro q hAlloc hPub
    -- a node that was not published is not the old head
    have hqh : q ≠ (s.counter .head).ptr := by
      rintro rfl
      rw [(h.onChain _ h.head_mem).2.1] at hPub
      cases hPub
    rw [hPassOld q hqh]
    exact h.unlinked q hAlloc hPub
  · simp only [hSame, hAllocated, hPublished]
    exact h.owned
  · simp only [hSame]
    exact h.ownedUnique
  · simp only [hSame, hAllocated, hPublished]
    exact h.ownedCover
  · rw [hAllocated, hPublished, hTailSame]
    intro u q hu
    rw [hPassTail]
    exact h.held u q ((observe_update Role.held hRole hHeld u).symm.trans hu)

omit [DecidableEq τ] in
/-- A node off the chain is deleted, which nobody has a reference to. -/
theorem remove (h : Nodes s before after) {p : Nat} (hNext : s'.next = s.next)
    (hPublished : s'.published = s.published) (hPassed : s'.passed = s.passed)
    (hAllocated : s'.allocated = Function.update s.allocated p false)
    (hCounter : s'.counter = s.counter) (hOff : p ∉ s.chain before after)
    (hNotHeld : ∀ u, (s.role u).held ≠ some p)
    (hHeld : ∀ u q, (s'.role u).held = some q → (s.role u).held = some q)
    (hOwned : ∀ u new, (s'.role u).owned = some new ↔ (s.role u).owned = some new ∧ new.ptr ≠ p) :
    Nodes s' before after := by
  have hChain : s'.chain before after = s.chain before after := by
    rw [State.chain, hCounter]
    rfl
  have hAlloc : ∀ q, s'.allocated q = true → s.allocated q = true ∧ q ≠ p := by
    intro q hq
    rcases update_cases hAllocated q with ⟨-, hAt⟩ | ⟨hqp, hAt⟩ <;> rw [hAt] at hq
    · cases hq
    · exact ⟨hq, hqp⟩
  have hAllocOld : ∀ q, q ≠ p → s'.allocated q = s.allocated q := by
    intro q hq
    rw [hAllocated, Function.update_of_ne hq]
  refine ⟨?_, h.short, ?_, ?_, ?_, ?_, ?_, ?_, ?_, ?_, ?_, ?_, ?_⟩
  · rw [hChain, hNext, hCounter]
    exact h.linked
  · rw [hChain, hPublished, hPassed]
    intro q hq
    rw [hAllocOld q fun hEq => hOff (hEq ▸ hq)]
    exact h.onChain q hq
  · rw [hPassed]
    exact h.tailPassed
  · rw [hPassed, hCounter]
    exact h.tailAhead
  · rw [hChain, hPublished, hPassed]
    intro q hq
    exact h.behind q (hAlloc q hq).1
  · rw [hNext]
    intro q hq
    exact h.next q (hAlloc q hq).1
  · rw [hNext, hPassed]
    intro q hq
    exact h.nextPassed q (hAlloc q hq).1
  · rw [hNext, hPublished, hPassed]
    intro q hq
    exact h.unlinked q (hAlloc q hq).1
  · intro u new hu
    obtain ⟨hu, hne⟩ := (hOwned u new).mp hu
    rw [hAllocOld _ hne, hPublished]
    exact h.owned u new hu
  · intro u v new new' hu hv hEq
    exact h.ownedUnique u v new new' ((hOwned u new).mp hu).1 ((hOwned v new').mp hv).1 hEq
  · rw [hPublished]
    intro q hq hPub
    obtain ⟨hOldAlloc, hqp⟩ := hAlloc q hq
    obtain ⟨u, new, hu, rfl⟩ := h.ownedCover q hOldAlloc hPub
    exact ⟨u, new, (hOwned u new).mpr ⟨hu, hqp⟩, rfl⟩
  · rw [hPublished, hPassed, hCounter]
    intro u q hu
    have hOld := hHeld u q hu
    have hqp : q ≠ p := fun hEq => hNotHeld u (hEq ▸ hOld)
    rw [hAllocOld q hqp]
    exact h.held u q hOld

end Nodes

end EmbLinux.DesignLockFree.Queue
