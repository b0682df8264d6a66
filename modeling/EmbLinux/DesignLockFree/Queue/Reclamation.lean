import EmbLinux.DesignLockFree.Queue.Counts

/-!
# EmbLinux — reclamation in the queue

The invariant of `lock_free_queue`, from the lemmas about its nodes and its counts,
and what follows for every run: no access is made to a deleted node, no node is
deleted twice, a linked node is deleted only behind `head` and `tail`, and while no
call is running the allocated nodes are those of the chain from `head` to `tail`.

## Results

* `Inv.increase`, `Inv.moveHead`, `Inv.moveTail`, … — one lemma for each access that changes a
  node, a count or one of the two pointers.
* `inv_effect`, `inv_reachable` — the step and the run lemma.
* `Inv.touches`, `Inv.behind` and `Inv.complete` — what they say of accesses, of deletions and of
  a queue at rest.
-/

namespace EmbLinux.DesignLockFree.Queue

variable {τ α : Type*} [DecidableEq τ] {s s' : State τ α} {a : Action τ α} {t : τ}
  {before after : List Nat}

-- ---------------------------------------------------------------------------
-- The invariant
-- ---------------------------------------------------------------------------

/-- What a thread knows of the successor of the node that it holds. -/
def Knows (s : State τ α) : Pc (Numbered α) → Prop
  | .popNext old => s.passed old.ptr .tail = true
  | .popCas old next => s.passed old.ptr .tail = true ∧ next = s.next old.ptr
  | .pushDelete _ _ old next | .helpNew _ old next | .setNewTail _ old next =>
    next = s.next old.ptr ∧ next ≠ nullNext
  | _ => True

/-- The chain, the counts, the deletions and what the threads know, all in one. -/
structure Inv (s : State τ α) (before after : List Nat) : Prop where
  nodes : Nodes s before after
  counts : Counts s
  deletes : Deletes s
  knows : ∀ t, Knows s (s.pc t)
  /-- Somebody is about to move `tail`, if it can move. -/
  linking : s.next (s.counter .tail).ptr ≠ nullNext →
    ∃ t, (s.pc t).linking = some (s.counter .tail).ptr

/-- How `before` changes with a step: `tail` moves, or `head`. -/
def shift (s : State τ α) (before : List Nat) : Pc (Numbered α) → Pc (Numbered α) → List Nat
  | .popCas _ _, .popData _ => before.tail
  | .setNewTail _ _ _, .freeLoad _ _ _ => before ++ [(s.counter .tail).ptr]
  | _, _ => before

omit [DecidableEq τ] in
/-- What a thread knows depends on the node it holds only. -/
theorem Knows.congr {pc : Pc (Numbered α)} (h : Knows s pc)
    (hNext : ∀ p, pc.role.held = some p → s.next p ≠ nullNext → s'.next p = s.next p)
    (hPassed : ∀ p, pc.role.held = some p → s.passed p .tail = true →
      s.next p ≠ nullNext ∧ s'.passed p .tail = true) : Knows s' pc := by
  cases pc with
  | popNext old => exact (hPassed _ rfl h).2
  | popCas old next =>
    obtain ⟨hPass, hEq⟩ := h
    obtain ⟨hSome, hPass'⟩ := hPassed _ rfl hPass
    exact ⟨hPass', hEq.trans (hNext _ rfl hSome).symm⟩
  | pushDelete value new old next =>
    exact ⟨h.1.trans (hNext _ rfl (h.1 ▸ h.2)).symm, h.2⟩
  | helpNew value old next => exact ⟨h.1.trans (hNext _ rfl (h.1 ▸ h.2)).symm, h.2⟩
  | setNewTail pusher old next => exact ⟨h.1.trans (hNext _ rfl (h.1 ▸ h.2)).symm, h.2⟩
  | _ => trivial

/-- What the threads know, after a step. -/
theorem Inv.knows_step (h : Inv s before after) {pc : Pc (Numbered α)}
    (hPc : s'.pc = Function.update s.pc t pc) (hOwn : Knows s' pc)
    (hNext : ∀ p, s.allocated p = true → s.published p = true → s.next p ≠ nullNext →
      s'.next p = s.next p)
    (hPassed : ∀ p, s.allocated p = true → s.passed p .tail = true → s'.passed p .tail = true) :
    ∀ u, Knows s' (s'.pc u) := by
  intro u
  rcases update_cases hPc u with ⟨-, hAt⟩ | ⟨-, hAt⟩ <;> rw [hAt]
  · exact hOwn
  · refine (h.knows u).congr ?_ ?_
    · intro p hHeld hSome
      obtain ⟨hAlloc, hPub, -⟩ := h.nodes.held u p hHeld
      exact hNext p hAlloc hPub hSome
    · intro p hHeld hPass
      have hAlloc := (h.nodes.held u p hHeld).1
      exact ⟨h.nodes.nextPassed p hAlloc hPass, hPassed p hAlloc hPass⟩

/-- The duty to move `tail` stays with a thread whose program point keeps it. -/
theorem Inv.linking_step (h : Inv s before after) {pc : Pc (Numbered α)}
    (hPc : s'.pc = Function.update s.pc t pc) (hNext : s'.next = s.next)
    (hTail : (s'.counter .tail).ptr = (s.counter .tail).ptr)
    (hOwn : (s.pc t).linking = some (s.counter .tail).ptr →
      pc.linking = some (s.counter .tail).ptr) :
    s'.next (s'.counter .tail).ptr ≠ nullNext →
      ∃ u, (s'.pc u).linking = some (s'.counter .tail).ptr := by
  rw [hNext, hTail]
  intro hSome
  obtain ⟨u, hu⟩ := h.linking hSome
  refine ⟨u, ?_⟩
  rcases update_cases hPc u with ⟨rfl, hAt⟩ | ⟨-, hAt⟩ <;> rw [hAt]
  · exact hOwn hu
  · exact hu

-- ---------------------------------------------------------------------------
-- Steps that leave the nodes alone
-- ---------------------------------------------------------------------------

section

omit [DecidableEq τ]

/-- A quiet step leaves what the thread holds, -/
theorem Quiet.role {pc pc' : Pc (Numbered α)} (h : Quiet s pc pc') : pc'.role = pc.role := by
  cases h with
  | again h => cases h <;> rfl
  | tailSame hEq =>
    show Role.mk (some (s.counter .tail).ptr) none _ none = _
    rw [hEq]
    rfl
  | @tailMoved pusher old new hNe => simp [Pc.role]
  | freeCounter hpc =>
    rcases hpc with rfl | ⟨counter, rfl⟩ <;> rfl
  | releaseCounter hpc =>
    rcases hpc with rfl | ⟨counter, rfl⟩ <;> rfl
  | _ => rfl

/-- the chain, -/
theorem Quiet.shift {pc pc' : Pc (Numbered α)} (h : Quiet s pc pc') (before : List Nat) :
    shift s before pc pc' = before := by
  cases h with
  | again h => cases h <;> rfl
  | freeCounter hpc =>
    rcases hpc with rfl | ⟨counter, rfl⟩ <;> rfl
  | releaseCounter hpc =>
    rcases hpc with rfl | ⟨counter, rfl⟩ <;> rfl
  | _ => rfl

/-- and the duty to move `tail`. -/
theorem Quiet.linking {pc pc' : Pc (Numbered α)} (h : Quiet s pc pc')
    (hLinking : pc.linking = some (s.counter .tail).ptr) :
    pc'.linking = some (s.counter .tail).ptr := by
  cases h with
  | again h => cases h <;> cases hLinking
  | tailSame hEq => rfl
  | tailMoved hNe => exact absurd (Option.some.inj hLinking).symm hNe
  | freeCounter hpc =>
    rcases hpc with rfl | ⟨counter, rfl⟩ <;> cases hLinking
  | releaseCounter hpc =>
    rcases hpc with rfl | ⟨counter, rfl⟩ <;> cases hLinking
  | _ => cases hLinking

/-- What it learns is true. -/
theorem Quiet.knows {pc pc' : Pc (Numbered α)} (h : Quiet s pc pc') (hKnows : Knows s pc)
    (hHeld : ∀ p, pc.role.held = some p → p = (s.counter .tail).ptr ∨ s.passed p .tail = true) :
    Knows s pc' := by
  cases h with
  | again h => cases h <;> trivial
  | popTail hNe => exact (hHeld _ rfl).resolve_left hNe
  | popNext => exact ⟨hKnows, rfl⟩
  | pushHelped hNext => exact ⟨rfl, hNext⟩
  | helpHelped hNext => exact ⟨rfl, hNext⟩
  | tailSame hEq => exact ⟨hEq ▸ hKnows.1, hKnows.2⟩
  | _ => trivial

end

/-- So it keeps the invariant. -/
theorem Inv.quiet (h : Inv s before after) {pc : Pc (Numbered α)} (hSame : SameNodes s s')
    (hPc : s'.pc = Function.update s.pc t pc) (hRole : pc.role = s.role t)
    (hKnows : Knows s' pc)
    (hLinking : (s.pc t).linking = some (s.counter .tail).ptr →
      pc.linking = some (s.counter .tail).ptr) : Inv s' before after := by
  have hCounter : ∀ side, (s'.counter side).ptr = (s.counter side).ptr := by
    intro side
    rw [hSame.counter]
  refine ⟨?_, ?_, ?_, ?_, ?_⟩
  · refine h.nodes.keep (role_step hPc) hSame.next hSame.allocated hSame.published hSame.passed
      hCounter (by rw [hRole]) ?_
    intro p hp
    exact Or.inl (hRole ▸ hp)
  · exact h.counts.keep (role_step hPc) hSame.count hSame.allocated hSame.counter hSame.passed
      hSame.external (by rw [hRole]) (by rw [hRole])
  · refine h.deletes.keep (role_step hPc) hSame.allocated ?_ (by rw [hRole])
    intro p
    rw [Closed, Closed, hSame.external, hSame.count]
  · refine h.knows_step hPc hKnows ?_ ?_
    · intro p _ _ _
      rw [hSame.next]
    · intro p _ hPass
      rw [hSame.passed]
      exact hPass
  · exact h.linking_step hPc hSame.next (hCounter .tail) hLinking

-- ---------------------------------------------------------------------------
-- The other steps
-- ---------------------------------------------------------------------------

/-- The thread held nothing, and holds the node of the counter now; -/
theorem Increases.role {side : Side} {old : CountedNodePtr} {pc : Pc (Numbered α)}
    {again after : CountedNodePtr → Pc (Numbered α)} (h : Increases side old pc again after) :
    pc.role.held = none ∧ pc.role.closing = none ∧ pc.linking = none ∧
      ∀ c, (after c).role = { pc.role with held := some c.ptr } := by
  cases h <;> exact ⟨rfl, rfl, rfl, fun _ => rfl⟩

/-- it deletes nothing, -/
theorem Increases.role_deleting {side : Side} {old : CountedNodePtr} {pc : Pc (Numbered α)}
    {again after : CountedNodePtr → Pc (Numbered α)} (h : Increases side old pc again after) :
    pc.role.deleting = none := by
  cases h <;> rfl

omit [DecidableEq τ] in
/-- claims nothing of the node, -/
theorem Increases.knows {side : Side} {old : CountedNodePtr} {pc : Pc (Numbered α)}
    {again after : CountedNodePtr → Pc (Numbered α)} (h : Increases side old pc again after)
    (c : CountedNodePtr) : Knows s (after c) := by
  cases h <;> trivial

omit [DecidableEq τ] in
/-- and leaves the chain. -/
theorem Increases.shift {side : Side} {old : CountedNodePtr} {pc : Pc (Numbered α)}
    {again after : CountedNodePtr → Pc (Numbered α)} (h : Increases side old pc again after)
    (before : List Nat) (c : CountedNodePtr) : shift s before pc (after c) = before := by
  cases h <;> rfl

/-- An external count goes up. -/
theorem Inv.increase (h : Inv s before after) {side : Side}
    {again aft : CountedNodePtr → Pc (Numbered α)}
    (hInc : Increases side (s.counter side) (s.pc t) again aft) :
    Inv { s.setPc t (aft ⟨(s.counter side).externalCount + 1, (s.counter side).ptr⟩) with
      counter := Function.update s.counter side
        ⟨(s.counter side).externalCount + 1, (s.counter side).ptr⟩
      external := Function.update s.external (s.counter side).ptr
        (Function.update (s.external (s.counter side).ptr) side
          (some ((s.counter side).externalCount + 1)))
      taken := Function.update s.taken t (s.serial (s.counter side).ptr) } before after := by
  obtain ⟨hHeld, hClosing, hLinking, hAfter⟩ := hInc.role
  have hOn := h.nodes.onChain _ (h.nodes.counter_mem side)
  have hAhead := h.nodes.counter_ahead side
  have hCounter : ∀ side', (Function.update s.counter side
      ⟨(s.counter side).externalCount + 1, (s.counter side).ptr⟩ side').ptr =
        (s.counter side').ptr := by
    intro side'
    rcases update_at s.counter side
      ⟨(s.counter side).externalCount + 1, (s.counter side).ptr⟩ side' with
        ⟨rfl, hAt⟩ | ⟨-, hAt⟩ <;> rw [hAt]
  refine ⟨?_, ?_, ?_, ?_, ?_⟩
  · refine h.nodes.keep (t := t) (role_step rfl) rfl rfl rfl rfl hCounter (by rw [hAfter]; rfl) ?_
    intro p hp
    rw [hAfter] at hp
    exact Or.inr ⟨side, (Option.some.inj hp).symm⟩
  · exact h.counts.increase (t := t) (role_step rfl) rfl rfl rfl rfl rfl hOn.1 hAhead hHeld
      (by rw [hAfter]) hClosing (by rw [hAfter]; exact hClosing)
  · refine h.deletes.keep (t := t) (role_step rfl) rfl ?_ (by rw [hAfter]; rfl)
    -- the count that changes was open and stays so
    intro p
    refine and_congr_left fun _ => forall_congr' fun side' => ?_
    show Function.update s.external _ _ p side' = none ↔ _
    rcases update_at s.external (s.counter side).ptr (Function.update
      (s.external (s.counter side).ptr) side (some ((s.counter side).externalCount + 1))) p with
        ⟨rfl, hAt⟩ | ⟨-, hAt⟩ <;> rw [hAt]
    rcases update_at (s.external (s.counter side).ptr) side
      (some ((s.counter side).externalCount + 1)) side' with ⟨rfl, hAt'⟩ | ⟨-, hAt'⟩ <;> rw [hAt']
    rw [h.counts.ahead _ side' hOn.1 hAhead]
    exact iff_of_false (Option.some_ne_none _) (Option.some_ne_none _)
  · exact h.knows_step rfl (hInc.knows _) (fun _ _ _ _ => rfl) fun _ _ hPass => hPass
  · refine h.linking_step rfl rfl (hCounter .tail) ?_
    rw [hLinking]
    intro hNone
    cases hNone

/-- `head` moves: the old node's external count for it is closed by this thread. -/
theorem Inv.moveHead (h : Inv s before after) {next : CountedNodePtr}
    (hpc : s.pc t = .popCas (s.counter .head) next) :
    Inv { (s.move .head (s.counter .head) next).setPc t (.popData (s.counter .head)) with
      popped := s.popped ++ (s.data (s.counter .head).ptr).toList } before.tail after := by
  have hKnows := h.knows t
  rw [hpc] at hKnows
  obtain ⟨hPass, rfl⟩ := hKnows
  have hOn := h.nodes.onChain _ h.nodes.head_mem
  have hSome := h.nodes.nextPassed _ hOn.1 hPass
  have hNext := (h.nodes.next _ hOn.1).resolve_left hSome
  have hRole : s.role t = ⟨some (s.counter .head).ptr, none, none, none⟩ := by
    rw [State.role, hpc]
    rfl
  have hNodes := h.nodes
  obtain ⟨rest, rfl, hNodes'⟩ : ∃ rest, before = (s.counter .head).ptr :: rest ∧
      Nodes { (s.move .head (s.counter .head) (s.next (s.counter .head).ptr)).setPc t
        (.popData (s.counter .head)) with
          popped := s.popped ++ (s.data (s.counter .head).ptr).toList } rest after :=
    h.nodes.moveHead (t := t) (role_step rfl) rfl rfl rfl rfl rfl rfl hPass (by rw [hRole]; rfl)
      (by rw [hRole]; rfl)
  have hNe : (s.next (s.counter .head).ptr).ptr ≠ (s.counter .head).ptr := by
    intro hEq
    have hMem := hNodes'.head_mem
    have hNodup := hNodes.nodup
    replace hMem : (Function.update s.counter Side.head (s.next (s.counter .head).ptr) .head).ptr ∈
        rest ++ (Function.update s.counter Side.head (s.next (s.counter .head).ptr) .tail).ptr ::
          after := hMem
    rw [Function.update_self, Function.update_of_ne (by decide), hEq] at hMem
    exact (List.nodup_cons.mp hNodup).1 hMem
  refine ⟨hNodes', ?_, ?_, ?_, ?_⟩
  · exact h.counts.move (t := t) (role_step rfl) rfl rfl rfl rfl rfl hOn.1 hOn.2.2 hNext.1 hNe
      (by rw [hRole]) (by rw [hRole]; rfl) (by rw [hRole]) rfl
  · exact h.deletes.keep (t := t) (role_step rfl) rfl (fun _ => Iff.rfl) (by rw [hRole]; rfl)
  · refine h.knows_step rfl trivial (fun _ _ _ _ => rfl) ?_
    intro p hAlloc hPassP
    show Function.update s.passed _ _ p Side.tail = true
    rcases update_at s.passed (s.counter .head).ptr
      (Function.update (s.passed (s.counter .head).ptr) .head true) p with
        ⟨rfl, hAt⟩ | ⟨-, hAt⟩ <;> rw [hAt]
    · rw [Function.update_of_ne (by decide)]
      exact hPassP
    · exact hPassP
  · refine h.linking_step rfl rfl ?_ ?_
    · show (Function.update s.counter Side.head (s.next (s.counter .head).ptr) .tail).ptr = _
      rw [Function.update_of_ne (by decide)]
    · rw [hpc]
      intro hNone
      cases hNone

/-- `tail` moves: so is the one for `tail`, and the node passed is behind both in time. -/
theorem Inv.moveTail (h : Inv s before after) {pusher : Pusher (Numbered α)}
    {new : CountedNodePtr} (hpc : s.pc t = .setNewTail pusher (s.counter .tail) new) :
    Inv { (s.move .tail (s.counter .tail) new).setPc t
        (.freeLoad .tail (s.counter .tail) (pusher.cont (s.counter .tail))) with
      pushed := s.pushed ++ (s.data (s.counter .tail).ptr).toList }
      (before ++ [(s.counter .tail).ptr]) [] := by
  have hKnows := h.knows t
  rw [hpc] at hKnows
  obtain ⟨hEq, hSome⟩ := hKnows
  have hOn := h.nodes.onChain _ (tail_mem_chain s before after)
  have hNext := (h.nodes.next _ hOn.1).resolve_left (hEq ▸ hSome)
  have hRole : s.role t = ⟨some (s.counter .tail).ptr, none, pusher.owned, none⟩ := by
    rw [State.role, hpc]
    rfl
  have hAfter := h.nodes.after_eq.2 (hEq ▸ hSome)
  rw [← hEq] at hNext hAfter
  have hNe : new.ptr ≠ (s.counter .tail).ptr := by
    intro hSame
    have hNodup := h.nodes.nodup
    rw [State.chain, hAfter, hSame] at hNodup
    exact (List.nodup_cons.mp (List.nodup_append'.mp hNodup).2.1).1 List.mem_cons_self
  have hNodes : Nodes { (s.move .tail (s.counter .tail) new).setPc t
        (.freeLoad .tail (s.counter .tail) (pusher.cont (s.counter .tail))) with
      pushed := s.pushed ++ (s.data (s.counter .tail).ptr).toList }
        (before ++ [(s.counter .tail).ptr]) [] :=
    h.nodes.moveTail (t := t) (role_step rfl) rfl rfl rfl rfl rfl hEq hSome
      (by rw [hRole]; exact pusher.cont_owned _) (by rw [hRole]; rfl)
  refine ⟨hNodes, ?_, ?_, ?_, ?_⟩
  · exact h.counts.move (t := t) (role_step rfl) rfl rfl rfl rfl rfl hOn.1
      (h.nodes.counter_ahead .tail) hNext.1 hNe (by rw [hRole]) (by rw [hRole]; rfl)
      (by rw [hRole]) rfl
  · exact h.deletes.keep (t := t) (role_step rfl) rfl (fun _ => Iff.rfl) (by rw [hRole]; rfl)
  · refine h.knows_step rfl trivial (fun _ _ _ _ => rfl) ?_
    intro p hAlloc hPassP
    show Function.update s.passed _ _ p Side.tail = true
    rcases update_at s.passed (s.counter .tail).ptr
      (Function.update (s.passed (s.counter .tail).ptr) .tail true) p with
        ⟨rfl, hAt⟩ | ⟨-, hAt⟩ <;> rw [hAt]
    · rw [Function.update_self]
    · exact hPassP
  · -- the new tail node is the last one
    intro hAgain
    refine absurd ?_ hAgain
    have hNull := hNodes.after_eq
    by_contra hNot
    exact List.cons_ne_nil _ _ (hNull.2 hNot).symm

/-- The thread owned no node before `new`, and holds what it held. -/
theorem Allocates.role {p : Nat} {pc pc' : Pc (Numbered α)} (h : Allocates p pc pc') :
    pc.role.owned = none ∧ pc'.role.held = pc.role.held ∧ pc'.role.closing = pc.role.closing ∧
      pc'.role.deleting = pc.role.deleting ∧ pc'.linking = pc.linking := by
  cases h <;> exact ⟨rfl, rfl, rfl, rfl, rfl⟩

section

omit [DecidableEq τ]

/-- The count of a new node is 1; a `push` that helped has it from the node that it linked. -/
theorem Allocates.owned {p : Nat} {pc pc' : Pc (Numbered α)} (h : Allocates p pc pc')
    (hKnows : Knows s pc) (hNext : ∀ q, pc.role.held = some q →
      s.next q = nullNext ∨ ((s.next q).externalCount = 1 ∧ (s.next q).ptr ≠ 0)) :
    ∃ new : CountedNodePtr, (new.externalCount = 1 ∧ new.ptr = p) ∧
      pc'.role.owned = some new := by
  cases h with
  | push => exact ⟨_, ⟨rfl, rfl⟩, rfl⟩
  | @help value old next =>
    obtain ⟨rfl, hSome⟩ := hKnows
    exact ⟨⟨(s.next old.ptr).externalCount, p⟩, ⟨((hNext _ rfl).resolve_left hSome).1, rfl⟩, rfl⟩

/-- It knows what it knew before, -/
theorem Allocates.knows {p : Nat} {pc pc' : Pc (Numbered α)} (h : Allocates p pc pc')
    (hKnows : Knows s pc) (hNext : ∀ q, pc.role.held = some q → s'.next q = s.next q) :
    Knows s' pc' := by
  cases h with
  | push => trivial
  | help => exact ⟨hKnows.1.trans (hNext _ rfl).symm, hKnows.2⟩

/-- and leaves the chain. -/
theorem Allocates.shift {p : Nat} {pc pc' : Pc (Numbered α)} (h : Allocates p pc pc')
    (before : List Nat) : shift s before pc pc' = before := by
  cases h <;> rfl

end

/-- `new` gives an address that no node has. -/
theorem Inv.alloc (h : Inv s before after) {p : Nat} {pc : Pc (Numbered α)}
    (hAllocates : Allocates p (s.pc t) pc) (hZero : p ≠ 0) (hFree : s.allocated p = false) :
    Inv ((s.newNode t p).setPc t pc) before after := by
  obtain ⟨hOwned, hHeld, hClosing, hDeleting, hLinking⟩ := hAllocates.role
  obtain ⟨new, hNew, hOwned'⟩ := hAllocates.owned (h.knows t)
    fun q hq => h.nodes.next q (h.nodes.held t q hq).1
  -- no allocated node is the new one
  have hNe : ∀ q, s.allocated q = true → q ≠ p := by
    rintro q hq rfl
    rw [hFree] at hq
    cases hq
  have hOther : ∀ q, q ≠ p → ((s.newNode t p).setPc t pc).next q = s.next q :=
    fun q hq => Function.update_of_ne hq ..
  refine ⟨?_, ?_, ?_, ?_, ?_⟩
  · exact h.nodes.alloc (t := t) (role_step rfl) rfl rfl rfl rfl rfl hZero hFree hNew hOwned
      hOwned' hHeld
  · refine h.counts.create (t := t) (p := p) (role_step rfl) rfl rfl rfl rfl rfl ?_ ?_ hHeld
      hClosing
    · intro side
      exact (hNe _ (h.nodes.onChain _ (h.nodes.counter_mem side)).1).symm
    · intro u hu
      exact hNe p (h.nodes.held u p hu).1 rfl
  · refine h.deletes.create (t := t) (p := p) (role_step rfl) rfl hFree ?_ ?_ hDeleting
    · intro q hq
      show (∀ side, Function.update s.external p _ q side = none) ∧
        (Function.update s.count p _ q).internalCount = 0 ↔ _
      rw [Function.update_of_ne hq, Function.update_of_ne hq]
      rfl
    · intro hClosed
      have hNone : Function.update s.external p (fun _ => some 1) p Side.head = none :=
        hClosed.1 .head
      rw [Function.update_self] at hNone
      cases hNone
  · refine h.knows_step rfl (hAllocates.knows (h.knows t) ?_) ?_ ?_
    · intro q hq
      exact hOther q (hNe q (h.nodes.held t q hq).1)
    · intro q hAlloc _ _
      exact hOther q (hNe q hAlloc)
    · intro q hAlloc hPass
      show Function.update s.passed p _ q Side.tail = true
      rw [Function.update_of_ne (hNe q hAlloc)]
      exact hPass
  · intro hSome
    have hTail := (h.nodes.onChain _ (tail_mem_chain s before after)).1
    replace hSome : ((s.newNode t p).setPc t pc).next (s.counter .tail).ptr ≠ nullNext := hSome
    rw [hOther _ (hNe _ hTail)] at hSome
    obtain ⟨u, hu⟩ := h.linking hSome
    exact ⟨u, (observe_update Pc.linking rfl hLinking u).trans hu⟩

omit [DecidableEq τ] in
/-- The node that was owned is on the chain now, and its thread is to move `tail`. -/
theorem Links.role {old new : CountedNodePtr} {pc pc' : Pc (Numbered α)}
    (h : Links old new pc pc') : pc.role = ⟨some old.ptr, none, some new, none⟩ ∧
      pc'.role = ⟨some old.ptr, none, none, none⟩ ∧ pc'.linking = some old.ptr ∧
      (s.next old.ptr = new → new ≠ nullNext → Knows s pc') := by
  cases h <;> exact ⟨rfl, rfl, rfl, fun hEq hSome => ⟨hEq.symm, hSome⟩⟩

omit [DecidableEq τ] in
/-- What is before `tail` stays. -/
theorem Links.shift {old new : CountedNodePtr} {pc pc' : Pc (Numbered α)}
    (h : Links old new pc pc') (before : List Nat) : shift s before pc pc' = before := by
  cases h <;> rfl

/-- A node is linked behind the tail node, which had no successor. -/
theorem Inv.link (h : Inv s before after) {old new : CountedNodePtr} {pc : Pc (Numbered α)}
    (hLinks : Links old new (s.pc t) pc) (hNext : s.next old.ptr = nullNext) :
    Inv ((s.link old.ptr new).setPc t pc) before [new.ptr] := by
  obtain ⟨hRole, hRole', hLinking, hKnows⟩ := hLinks.role (s := (s.link old.ptr new).setPc t pc)
  replace hRole : s.role t = ⟨some old.ptr, none, some new, none⟩ := hRole
  have hTail := h.nodes.tail_of_null (t := t) (by rw [hRole]) hNext
  have hOwned := h.nodes.owned t new (by rw [hRole])
  have hSome : new ≠ nullNext := fun hEq => hOwned.2.1 (by rw [hEq]; rfl)
  have hNew : ((s.link old.ptr new).setPc t pc).next old.ptr = new := Function.update_self ..
  refine ⟨?_, ?_, ?_, ?_, ?_⟩
  · exact h.nodes.link (t := t) (role_step rfl) (by rw [← hTail]; rfl) rfl rfl rfl rfl
      (hTail ▸ hNext) (by rw [hRole]) (by rw [hRole']) (by rw [hRole', hRole])
  · exact h.counts.keep (t := t) (role_step rfl) rfl rfl rfl rfl rfl (by rw [hRole', hRole])
      (by rw [hRole', hRole])
  · exact h.deletes.keep (t := t) (role_step rfl) rfl (fun _ => Iff.rfl) (by rw [hRole', hRole])
  · refine h.knows_step rfl (hKnows hNew hSome) ?_ fun _ _ hPass => hPass
    intro p _ _ hSomeP
    have hne : p ≠ old.ptr := fun hEq => hSomeP (hEq ▸ hNext)
    exact Function.update_of_ne hne ..
  · intro _
    refine ⟨t, ?_⟩
    show (Function.update s.pc t pc t).linking = some (s.counter .tail).ptr
    rw [Function.update_self, hLinking, hTail]

/-- A node that lost the race is deleted by its owner, who alone knew it. -/
theorem Inv.discard (h : Inv s before after) {value : Numbered α}
    {new old next : CountedNodePtr} (hpc : s.pc t = .pushDelete value new old next) :
    Inv ((s.deleteNode new.ptr).setPc t (.setNewTail (.finish value) old next)) before after := by
  have hRole : s.role t = ⟨some old.ptr, none, some new, none⟩ := by
    rw [State.role, hpc]
    rfl
  have hKnows := h.knows t
  rw [hpc] at hKnows
  obtain ⟨-, -, hAlloc, hPub⟩ := h.nodes.owned t new (by rw [hRole])
  have hStep : State.role ((s.deleteNode new.ptr).setPc t (.setNewTail (.finish value) old next)) =
      Function.update s.role t (Pc.role (.setNewTail (.finish value) old next)) := role_step rfl
  have hHeld := observe_update Role.held hStep (by rw [hRole]; rfl)
  have hClosing := observe_update Role.closing hStep (by rw [hRole]; rfl)
  have hDeleting := observe_update Role.deleting hStep (by rw [hRole]; rfl)
  refine ⟨?_, ?_, ?_, ?_, ?_⟩
  · refine h.nodes.remove rfl rfl rfl rfl rfl ?_ ?_ (fun u q hu => (hHeld u).symm.trans hu) ?_
    · intro hMem
      rw [(h.nodes.onChain _ hMem).2.1] at hPub
      cases hPub
    · intro u hu
      rw [(h.nodes.held u _ hu).2.1] at hPub
      cases hPub
    · intro u new'
      rcases update_cases hStep u with ⟨rfl, hAt⟩ | ⟨hut, hAt⟩ <;> rw [hAt]
      · refine iff_of_false (fun hNone => by cases hNone) ?_
        rintro ⟨hOld, hne⟩
        rw [hRole] at hOld
        cases hOld
        exact hne rfl
      · refine ⟨fun hu => ⟨hu, fun hEq => ?_⟩, fun hu => hu.1⟩
        exact hut (h.nodes.ownedUnique u t new' new hu (by rw [hRole]) hEq)
  · exact h.counts.remove rfl rfl rfl rfl rfl hHeld hClosing
  · refine h.deletes.remove rfl (fun _ => Iff.rfl) ?_
    intro u q
    rw [hDeleting u]
    refine ⟨fun hu => ⟨hu, ?_⟩, fun hu => hu.1⟩
    -- the count of a node that is not linked is open
    rintro rfl
    have hOpen := h.counts.ahead _ .head hAlloc ((h.nodes.unlinked _ hAlloc hPub).2 .head)
    rw [(h.deletes.deleting u _ hu).2.1 .head] at hOpen
    cases hOpen
  · exact h.knows_step rfl hKnows (fun _ _ _ _ => rfl) fun _ _ hPass => hPass
  · refine h.linking_step rfl rfl rfl ?_
    rw [hpc]
    exact fun hOld => hOld

/-- A thread drops its reference, by one of the two exchanges of `count`. -/
theorem Inv.dropped (h : Inv s before after) {s₁ : State τ α} {p : Nat} {new : NodeCounter}
    {k : Cont (Numbered α)} (hPc : s₁.pc = s.pc) (hNext : s₁.next = s.next)
    (hAllocated : s₁.allocated = s.allocated) (hPublished : s₁.published = s.published)
    (hPassed : s₁.passed = s.passed) (hCounter : s₁.counter = s.counter)
    (hCount : s₁.count = Function.update s.count p new)
    (hExternal : ∀ q, q ≠ p → s₁.external q = s.external q) (hHeld : (s.role t).held = some p)
    (hOwned : (s.role t).owned = k.owned) (hDeleting : (s.role t).deleting = none)
    (hLinking : (s.pc t).linking = none)
    (hCounts : ∀ s', SameNodes s₁ s' → s'.role = Function.update s.role t
      (droppedPc p new k).role → Counts s') : Inv (s₁.dropped t p new k) before after := by
  have hSame := sameNodes_dropped s₁ t p new k
  have hPc' : (s₁.dropped t p new k).pc = Function.update s.pc t (droppedPc p new k) := by
    rw [dropped_pc, hPc]
  have hRole := role_step hPc'
  have hNewCounts := hCounts _ hSame hRole
  have hAlloc := (h.nodes.held t p hHeld).1
  have hNew : (s₁.dropped t p new k).count p = new := by
    rw [hSame.count, hCount, Function.update_self]
  have hDropped : (droppedPc p new k).role.held = none ∧
      (droppedPc p new k).role.owned = k.owned ∧ (droppedPc p new k).linking = none ∧
      Knows (s₁.dropped t p new k) (droppedPc p new k) := by
    unfold droppedPc
    split
    · exact ⟨rfl, rfl, rfl, trivial⟩
    · rw [k.pc_role]
      refine ⟨rfl, rfl, k.pc_linking, ?_⟩
      cases k <;> trivial
  obtain ⟨hNoRef, hOwn, hNoLink, hKnows⟩ := hDropped
  refine ⟨?_, hNewCounts, ?_, ?_, ?_⟩
  · refine h.nodes.keep hRole (hSame.next.trans hNext) (hSame.allocated.trans hAllocated)
      (hSame.published.trans hPublished) (hSame.passed.trans hPassed) ?_ (hOwn.trans hOwned.symm) ?_
    · intro side
      rw [hSame.counter, hCounter]
    · intro q hq
      rw [hNoRef] at hq
      cases hq
  · refine h.deletes.drop hRole (hSame.allocated.trans hAllocated) ?_ (h.counts.not_closed hHeld)
      hAlloc hDeleting ?_
    · intro q hq
      rw [Closed, Closed, hSame.external, hExternal q hq, hSame.count, hCount,
        Function.update_of_ne hq]
    · -- the test on the new counter is the right one
      intro q
      have hZero := hNewCounts.counters_zero (p := p) (by rw [hSame.allocated, hAllocated, hAlloc])
      rw [hNew] at hZero
      have hClosed : Closed (s₁.dropped t p new k) p ↔
          new.internalCount = 0 ∧ new.externalCounters = 0 := by
        rw [Closed, hNew, hZero]
        exact and_comm
      rw [hClosed]
      unfold droppedPc
      split
      · next hTest => exact ⟨fun hq => ⟨(Option.some.inj hq).symm, hTest⟩, fun hq => hq.1 ▸ rfl⟩
      · next hTest =>
        rw [k.pc_role]
        exact iff_of_false (fun hq => by cases hq) fun hq => hTest hq.2
  · refine h.knows_step hPc' hKnows ?_ ?_
    · intro q _ _ _
      rw [hSame.next, hNext]
    · intro q _ hPass
      rw [hSame.passed, hPassed]
      exact hPass
  · refine h.linking_step hPc' (hSame.next.trans hNext) ?_ ?_
    · rw [hSame.counter, hCounter]
    · rw [hLinking]
      intro hNone
      cases hNone

/-- An external count is added to the internal one, -/
theorem Inv.close (h : Inv s before after) {side : Side} {old : CountedNodePtr}
    {k : Cont (Numbered α)} (hpc : s.pc t = .freeCas side old (s.count old.ptr) k) :
    Inv ((s.close side old).dropped t old.ptr ((s.count old.ptr).close old) k) before after := by
  have hRole : s.role t = ⟨some old.ptr, some (side, old), k.owned, none⟩ := by
    rw [State.role, hpc]
    rfl
  refine h.dropped rfl rfl rfl rfl rfl rfl rfl (fun q hq => Function.update_of_ne hq ..)
    (by rw [hRole]) (by rw [hRole]) (by rw [hRole]) (by rw [hpc]; rfl) ?_
  intro s' hSame hStep
  have hDropped : (droppedPc old.ptr ((s.count old.ptr).close old) k).role.held = none ∧
      (droppedPc old.ptr ((s.count old.ptr).close old) k).role.closing = none := by
    unfold droppedPc
    split
    · exact ⟨rfl, rfl⟩
    · rw [k.pc_role]
      exact ⟨rfl, rfl⟩
  exact h.counts.close hStep hSame.count hSame.allocated hSame.counter hSame.passed hSame.external
    (by rw [hRole]) hDropped.1 hDropped.2

/-- or a reference is dropped. -/
theorem Inv.release (h : Inv s before after) {p : Nat} {k : Cont (Numbered α)}
    (hpc : s.pc t = .releaseCas p (s.count p) k) :
    Inv ((s.release p).dropped t p (s.count p).release k) before after := by
  have hRole : s.role t = ⟨some p, none, k.owned, none⟩ := by
    rw [State.role, hpc]
    rfl
  refine h.dropped rfl rfl rfl rfl rfl rfl rfl (fun _ _ => rfl) (by rw [hRole]) (by rw [hRole])
    (by rw [hRole]) (by rw [hpc]; rfl) ?_
  intro s' hSame hStep
  have hDropped : (droppedPc p (s.count p).release k).role.held = none ∧
      (droppedPc p (s.count p).release k).role.closing = none := by
    unfold droppedPc
    split
    · exact ⟨rfl, rfl⟩
    · rw [k.pc_role]
      exact ⟨rfl, rfl⟩
  exact h.counts.release hStep hSame.count hSame.allocated hSame.counter hSame.passed
    hSame.external (by rw [hRole]) hDropped.1 (by rw [hRole]) hDropped.2

/-- The thread that brought the counts to zero deletes the node. -/
theorem Inv.delete (h : Inv s before after) {p : Nat} {k : Cont (Numbered α)}
    (hpc : s.pc t = .delete p k) : Inv ((s.deleteNode p).resume t k) before after := by
  have hRole : s.role t = ⟨none, none, k.owned, some p⟩ := by
    rw [State.role, hpc]
    rfl
  obtain ⟨hAlloc, hClosed⟩ := h.deletes.deleting t p (by rw [hRole])
  have hSame := sameNodes_resume (s.deleteNode p) t k
  have hPc : ((s.deleteNode p).resume t k).pc = Function.update s.pc t k.pc :=
    resume_pc (s.deleteNode p) t k
  have hStep := role_step hPc
  rw [k.pc_role] at hStep
  have hHeld := observe_update Role.held hStep (by rw [hRole])
  have hClosing := observe_update Role.closing hStep (by rw [hRole])
  have hOwned := observe_update Role.owned hStep (by rw [hRole])
  -- an open count would be there, ahead of `head` or in the hands of a thread
  have hPassed : ∀ side, s.passed p side = true := by
    intro side
    by_contra hNot
    have hOpen := h.counts.ahead p side hAlloc (Bool.not_eq_true _ ▸ hNot)
    rw [hClosed.1 side] at hOpen
    cases hOpen
  refine ⟨?_, ?_, ?_, ?_, ?_⟩
  · refine h.nodes.remove hSame.next hSame.published hSame.passed hSame.allocated hSame.counter
      ?_ ?_
      (fun u q hu => (hHeld u).symm.trans hu) ?_
    · intro hMem
      have hAhead := (h.nodes.onChain p hMem).2.2
      rw [hPassed .head] at hAhead
      cases hAhead
    · exact fun u hu => h.counts.not_closed hu hClosed
    · intro u new
      rw [hOwned u]
      refine ⟨fun hu => ⟨hu, ?_⟩, fun hu => hu.1⟩
      rintro rfl
      obtain ⟨-, -, -, hPub⟩ := h.nodes.owned u new hu
      have hAhead := (h.nodes.unlinked _ hAlloc hPub).2 .head
      rw [hPassed .head] at hAhead
      cases hAhead
  · exact h.counts.remove hSame.count hSame.allocated hSame.counter hSame.passed hSame.external
      hHeld hClosing
  · refine h.deletes.remove hSame.allocated ?_ ?_
    · intro q
      rw [Closed, Closed, hSame.external, hSame.count]
      rfl
    · intro u q
      rcases update_cases hStep u with ⟨rfl, hAt⟩ | ⟨hut, hAt⟩ <;> rw [hAt]
      · rw [hRole]
        exact iff_of_false (fun hq => by cases hq) fun hq => hq.2 (Option.some.inj hq.1).symm
      · refine ⟨fun hu => ⟨hu, ?_⟩, fun hu => hu.1⟩
        rintro rfl
        exact hut (h.deletes.unique u t q hu (by rw [hRole]))
  · refine h.knows_step hPc ?_ ?_ ?_
    · cases k <;> trivial
    · intro q _ _ _
      rw [hSame.next]
      rfl
    · intro q _ hPass
      rw [hSame.passed]
      exact hPass
  · refine h.linking_step hPc hSame.next (by rw [hSame.counter]; rfl) ?_
    rw [hpc]
    intro hNone
    cases hNone

-- ---------------------------------------------------------------------------
-- Every run
-- ---------------------------------------------------------------------------

/-- The step lemma. -/
theorem inv_effect (h : Inv s before after) (he : Effect s t s') :
    ∃ after', Inv s' (shift s before (s.pc t) (s'.pc t)) after' := by
  have hHere : ∀ pc : Pc (Numbered α), Function.update s.pc t pc t = pc :=
    fun pc => Function.update_self ..
  cases he with
  | @quiet pc hQuiet =>
    refine ⟨after, ?_⟩
    rw [show (s.setPc t pc).pc t = pc from hHere pc, hQuiet.shift]
    refine h.quiet ⟨rfl, rfl, rfl, rfl, rfl, rfl, rfl⟩ rfl hQuiet.role ?_ hQuiet.linking
    exact hQuiet.knows (h.knows t) fun p hp => (h.nodes.held t p hp).2.2
  | callPush hpc =>
    refine ⟨after, ?_⟩
    rw [hpc]
    refine h.quiet ⟨rfl, rfl, rfl, rfl, rfl, rfl, rfl⟩ rfl ?_ trivial ?_
    · rw [State.role, hpc]
      rfl
    · rw [hpc]
      intro hNone
      cases hNone
  | popData hpc =>
    refine ⟨after, ?_⟩
    rw [hpc]
    refine h.quiet ⟨rfl, rfl, rfl, rfl, rfl, rfl, rfl⟩ rfl ?_ trivial ?_
    · rw [State.role, hpc]
      rfl
    · rw [hpc]
      intro hNone
      cases hNone
  | pushData hpc hData =>
    refine ⟨after, ?_⟩
    rw [hpc]
    refine h.quiet ⟨rfl, rfl, rfl, rfl, rfl, rfl, rfl⟩ rfl ?_ trivial ?_
    · rw [State.role, hpc]
      rfl
    · rw [hpc]
      intro hNone
      cases hNone
  | increase hInc =>
    refine ⟨after, ?_⟩
    show Inv _ (shift s before _ (Function.update s.pc t _ t)) after
    rw [hHere, hInc.shift]
    exact h.increase hInc
  | popCas hpc =>
    refine ⟨after, ?_⟩
    show Inv _ (shift s before _ (Function.update s.pc t _ t)) after
    rw [hHere, hpc]
    exact h.moveHead hpc
  | alloc hAllocates hZero hFree =>
    refine ⟨after, ?_⟩
    show Inv _ (shift s before _ (Function.update s.pc t _ t)) after
    rw [hHere, hAllocates.shift]
    exact h.alloc hAllocates hZero hFree
  | @link old new pc hLinks hNext =>
    refine ⟨[new.ptr], ?_⟩
    show Inv _ (shift s before _ (Function.update s.pc t _ t)) [new.ptr]
    rw [hHere, hLinks.shift]
    exact h.link hLinks hNext
  | discard hpc =>
    refine ⟨after, ?_⟩
    rw [hpc]
    exact h.discard hpc
  | moveTail hpc =>
    refine ⟨[], ?_⟩
    show Inv _ (shift s before _ (Function.update s.pc t _ t)) []
    rw [hHere, hpc]
    exact h.moveTail hpc
  | close hpc =>
    refine ⟨after, ?_⟩
    rw [hpc]
    exact h.close hpc
  | release hpc =>
    refine ⟨after, ?_⟩
    rw [hpc]
    exact h.release hpc
  | delete hpc =>
    refine ⟨after, ?_⟩
    rw [hpc]
    exact h.delete hpc

omit [DecidableEq τ] in
/-- The first node is head and tail. -/
theorem inv_init : Inv (init τ α) [] [] := by
  have hAlloc : ∀ p, (init τ α).allocated p = true → p = 1 := fun p hp => of_decide_eq_true hp
  refine ⟨⟨?_, Nat.zero_le 1, ?_, ?_, ?_, ?_, ?_, ?_, ?_, ?_, ?_, ?_, ?_⟩, ⟨?_, ?_, ?_, ?_, ?_, ?_⟩,
    ⟨?_, ?_, ?_⟩, fun _ => trivial, fun hSome => absurd rfl hSome⟩
  · exact ⟨rfl, Nat.one_ne_zero, rfl⟩
  · intro p hp
    obtain rfl := List.mem_singleton.mp hp
    exact ⟨rfl, rfl, rfl⟩
  · intro p hp
    cases hp
  · intro p _
    rfl
  · intro p hp _ hOut
    exact absurd (List.mem_singleton.mpr (hAlloc p hp)) hOut
  · exact fun _ _ => Or.inl rfl
  · intro p _ hPass
    cases hPass
  · exact fun _ _ _ => ⟨rfl, fun _ => rfl⟩
  · intro t new hNew
    cases hNew
  · intro t u new new' hNew
    cases hNew
  · intro p hp hPub
    rw [hAlloc p hp] at hPub
    cases hPub
  · intro t p hHeld
    cases hHeld
  · refine ⟨fun p => Set.Finite.subset Set.finite_empty ?_, ?_⟩
    · intro t ht
      cases ht
    · intro p
      have hNone : count (fun r => r = some p) (fun t => ((init τ α).role t).held) = 0 :=
        count_eq_zero fun t ht => by cases ht
      rw [hNone]
      show (if p = 1 then (⟨0, 2⟩ : NodeCounter) else ⟨0, 0⟩).internalCount +
        ∑ side : Side, share (if p = 1 then some 1 else none) = 0
      split <;> simp
  · intro p side hp _
    rw [hAlloc p hp]
    rfl
  · intro t side old hClosing
    cases hClosing
  · intro t u side old old' hClosing
    cases hClosing
  · intro p side c _ hPass
    cases hPass
  · intro p hp
    rw [hAlloc p hp]
    rfl
  · intro t p hDeleting
    cases hDeleting
  · intro t u p hDeleting
    cases hDeleting
  · intro p hp hClosed
    have hNone := hClosed.1 .head
    rw [hAlloc p hp] at hNone
    cases hNone

-- ---------------------------------------------------------------------------
-- The nodes behind the addresses
-- ---------------------------------------------------------------------------

/-- The node at an address that a thread uses is still the one that it took its
reference to, or the one that it made. -/
structure Noted (s : State τ α) : Prop where
  taken : ∀ t p, (s.role t).held = some p ∨ (s.role t).deleting = some p → s.serial p = s.taken t
  made : ∀ t new, (s.role t).owned = some new → s.serial new.ptr = s.made t

/-- An access that neither takes a reference nor makes a node. -/
theorem Noted.keep (h : Noted s) {r : Role} (hRole : s'.role = Function.update s.role t r)
    (hSerial : s'.serial = s.serial) (hTaken : s'.taken = s.taken) (hMade : s'.made = s.made)
    (hUses : ∀ p, r.held = some p ∨ r.deleting = some p →
      (s.role t).held = some p ∨ (s.role t).deleting = some p)
    (hOwned : ∀ new, r.owned = some new → (s.role t).owned = some new) : Noted s' := by
  refine ⟨?_, ?_⟩
  · rw [hSerial, hTaken]
    intro u p hu
    rcases update_cases hRole u with ⟨rfl, hAt⟩ | ⟨-, hAt⟩ <;> rw [hAt] at hu
    · exact h.taken u p (hUses p hu)
    · exact h.taken u p hu
  · rw [hSerial, hMade]
    intro u new hu
    rcases update_cases hRole u with ⟨rfl, hAt⟩ | ⟨-, hAt⟩ <;> rw [hAt] at hu
    · exact h.made u new (hOwned new hu)
    · exact h.made u new hu

/-- A thread takes a reference. -/
theorem Noted.increase (h : Noted s) {r : Role} {p : Nat}
    (hRole : s'.role = Function.update s.role t r) (hSerial : s'.serial = s.serial)
    (hTaken : s'.taken = Function.update s.taken t (s.serial p)) (hMade : s'.made = s.made)
    (hUses : ∀ q, r.held = some q ∨ r.deleting = some q → q = p)
    (hOwned : r.owned = (s.role t).owned) : Noted s' := by
  refine ⟨?_, ?_⟩
  · rw [hSerial, hTaken]
    intro u q hu
    rcases update_cases hRole u with ⟨rfl, hAt⟩ | ⟨hut, hAt⟩ <;> rw [hAt] at hu
    · rw [Function.update_self, hUses q hu]
    · rw [Function.update_of_ne hut]
      exact h.taken u q hu
  · rw [hSerial, hMade]
    intro u new hu
    exact h.made u new ((observe_update Role.owned hRole hOwned u).symm.trans hu)

/-- A thread makes a node, at an address that nobody uses. -/
theorem Noted.create (h : Noted s) {r : Role} {p : Nat}
    (hRole : s'.role = Function.update s.role t r)
    (hSerial : s'.serial = Function.update s.serial p s.news) (hTaken : s'.taken = s.taken)
    (hMade : s'.made = Function.update s.made t s.news)
    (hUses : ∀ q, r.held = some q ∨ r.deleting = some q →
      (s.role t).held = some q ∨ (s.role t).deleting = some q)
    (hUsed : ∀ u, (s.role u).held ≠ some p ∧ (s.role u).deleting ≠ some p)
    (hOwned : ∀ new, r.owned = some new → new.ptr = p)
    (hOwners : ∀ u new, (s.role u).owned = some new → new.ptr ≠ p) : Noted s' := by
  refine ⟨?_, ?_⟩
  · rw [hTaken]
    intro u q hu
    have hOld : (s.role u).held = some q ∨ (s.role u).deleting = some q := by
      rcases update_cases hRole u with ⟨rfl, hAt⟩ | ⟨-, hAt⟩ <;> rw [hAt] at hu
      · exact hUses q hu
      · exact hu
    have hqp : q ≠ p := by
      rintro rfl
      exact hOld.elim (hUsed u).1 (hUsed u).2
    rw [hSerial, Function.update_of_ne hqp]
    exact h.taken u q hOld
  · intro u new hu
    rw [hSerial, hMade]
    rcases update_cases hRole u with ⟨rfl, hAt⟩ | ⟨hut, hAt⟩ <;> rw [hAt] at hu
    · rw [hOwned new hu, Function.update_self, Function.update_self]
    · rw [Function.update_of_ne (hOwners u new hu), Function.update_of_ne hut]
      exact h.made u new hu

/-- Going on after the counts leaves the serial numbers, -/
theorem serial_resume (s : State τ α) (t : τ) (k : Cont (Numbered α)) :
    (s.resume t k).serial = s.serial ∧ (s.resume t k).taken = s.taken ∧
      (s.resume t k).made = s.made := by
  cases k <;> exact ⟨rfl, rfl, rfl⟩

/-- and so does dropping a reference. -/
theorem serial_dropped (s : State τ α) (t : τ) (p : Nat) (new : NodeCounter)
    (k : Cont (Numbered α)) : (s.dropped t p new k).serial = s.serial ∧
      (s.dropped t p new k).taken = s.taken ∧ (s.dropped t p new k).made = s.made := by
  unfold State.dropped
  split
  · exact ⟨rfl, rfl, rfl⟩
  · exact serial_resume s t k

/-- A thread that drops its reference deletes the node, or has no more to do with it. -/
theorem droppedPc_role {β : Type*} (p : Nat) (new : NodeCounter) (k : Cont β) :
    (droppedPc p new k).role.held = none ∧ (droppedPc p new k).role.owned = k.owned ∧
      ∀ q, (droppedPc p new k).role.deleting = some q → q = p := by
  unfold droppedPc
  split
  · exact ⟨rfl, rfl, fun q hq => (Option.some.inj hq).symm⟩
  · rw [k.pc_role]
    exact ⟨rfl, rfl, fun q hq => by cases hq⟩

omit [DecidableEq τ] in
/-- No node has been taken or made by a thread. -/
theorem noted_init : Noted (init τ α) := by
  refine ⟨?_, ?_⟩
  · rintro t p (hp | hp) <;> cases hp
  · intro t new hNew
    cases hNew

/-- The serial numbers that a thread noted are those of the nodes it holds and owns. -/
theorem noted_effect (h : Noted s) (hInv : Inv s before after) (he : Effect s t s') :
    Noted s' := by
  -- an access after which its thread has to do with the same nodes
  have hKeep : ∀ {pc : Pc (Numbered α)}, s'.pc = Function.update s.pc t pc →
      pc.role = s.role t → s'.serial = s.serial → s'.taken = s.taken → s'.made = s.made →
      Noted s' := by
    intro pc hPc hRole hSerial hTaken hMade
    refine h.keep (role_step hPc) hSerial hTaken hMade ?_ ?_
    · intro p hp
      exact hRole ▸ hp
    · intro new hNew
      exact hRole ▸ hNew
  have hDropped : ∀ {p : Nat} {new : NodeCounter} {k : Cont (Numbered α)},
      s'.pc = Function.update s.pc t (droppedPc p new k) →
      (s.role t).held = some p → (s.role t).owned = k.owned →
      s'.serial = s.serial ∧ s'.taken = s.taken ∧ s'.made = s.made → Noted s' := by
    rintro p new k hPc hHeld hOwned ⟨hSerial, hTaken, hMade⟩
    obtain ⟨hNone, hOwned', hDeleting⟩ := droppedPc_role p new k
    refine h.keep (role_step hPc) hSerial hTaken hMade ?_ ?_
    · rintro q (hq | hq)
      · rw [hNone] at hq
        cases hq
      · exact Or.inl (hDeleting q hq ▸ hHeld)
    · intro new' hNew
      rw [hOwned, ← hOwned']
      exact hNew
  cases he with
  | quiet hQuiet => exact hKeep rfl hQuiet.role rfl rfl rfl
  | callPush hpc => exact hKeep rfl (by rw [State.role, hpc]; rfl) rfl rfl rfl
  | popData hpc => exact hKeep rfl (by rw [State.role, hpc]; rfl) rfl rfl rfl
  | pushData hpc hData => exact hKeep rfl (by rw [State.role, hpc]; rfl) rfl rfl rfl
  | popCas hpc =>
    refine h.keep (t := t) (role_step rfl) rfl rfl rfl ?_ ?_ <;> rw [State.role, hpc]
    · exact fun p hp => hp
    · exact fun new hNew => hNew
  | moveTail hpc =>
    refine h.keep (t := t) (role_step rfl) rfl rfl rfl ?_ ?_ <;> rw [State.role, hpc]
    · exact fun p hp => hp
    · intro new hNew
      rw [← hNew]
      exact (Pusher.cont_owned _ _).symm
  | link hLinks hNext =>
    obtain ⟨hOld, hNew, -⟩ := hLinks.role (s := s)
    refine h.keep (t := t) (role_step rfl) rfl rfl rfl ?_ ?_ <;> rw [State.role, hOld, hNew]
    · exact fun p hp => hp
    · intro new hNone
      cases hNone
  | discard hpc =>
    refine h.keep (t := t) (role_step rfl) rfl rfl rfl ?_ ?_ <;> rw [State.role, hpc]
    · exact fun p hp => hp
    · intro new hNone
      cases hNone
  | increase hInc =>
    obtain ⟨-, -, -, hAfter⟩ := hInc.role
    have hDeleting := hInc.role_deleting
    refine h.increase (t := t) (role_step rfl) rfl rfl rfl ?_ (by rw [hAfter]; rfl)
    rw [hAfter]
    rintro q (hq | hq)
    · exact (Option.some.inj hq).symm
    · rw [hDeleting] at hq
      cases hq
  | @alloc p pc hAllocates hZero hFree =>
    obtain ⟨-, hHeld, -, hDeleting, -⟩ := hAllocates.role
    obtain ⟨new, ⟨-, hNew⟩, hOwned⟩ := hAllocates.owned (hInv.knows t)
      fun q hq => hInv.nodes.next q (hInv.nodes.held t q hq).1
    -- everything in use is allocated
    have hNe : ∀ q, s.allocated q = true → q ≠ p := by
      rintro q hq rfl
      rw [hFree] at hq
      cases hq
    refine h.create (t := t) (role_step rfl) rfl rfl rfl ?_ ?_ ?_ ?_
    · rw [hHeld, hDeleting]
      exact fun q hq => hq
    · intro u
      exact ⟨fun hu => hNe p (hInv.nodes.held u p hu).1 rfl,
        fun hu => hNe p (hInv.deletes.deleting u p hu).1 rfl⟩
    · intro new' hNew'
      cases Option.some.inj (hOwned.symm.trans hNew')
      exact hNew
    · exact fun u new' hu => hNe _ (hInv.nodes.owned u new' hu).2.2.1
  | close hpc =>
    refine hDropped (dropped_pc ..) ?_ ?_ (serial_dropped ..) <;> rw [State.role, hpc] <;> rfl
  | release hpc =>
    refine hDropped (dropped_pc ..) ?_ ?_ (serial_dropped ..) <;> rw [State.role, hpc] <;> rfl
  | @delete p k hpc =>
    obtain ⟨hSerial, hTaken, hMade⟩ := serial_resume (s.deleteNode p) t k
    refine h.keep (role_step (resume_pc (s.deleteNode p) t k)) hSerial hTaken hMade ?_ ?_ <;>
      rw [k.pc_role, State.role, hpc]
    · rintro q (hq | hq) <;> cases hq
    · exact fun new hNew => hNew

/-- The run lemma. -/
theorem inv_reachable (h : (system τ α).Reachable s) :
    (∃ before after, Inv s before after) ∧ Noted s := by
  refine h.invariant (I := fun s => (∃ before after, Inv s before after) ∧ Noted s)
    ⟨⟨[], [], inv_init⟩, noted_init⟩ ?_
  rintro s a s' - ⟨⟨before, after, hInv⟩, hNoted⟩ - hst
  have he := step_effect hst
  obtain ⟨after', hInv'⟩ := inv_effect hInv he
  exact ⟨⟨_, after', hInv'⟩, noted_effect hNoted hInv he⟩

/-- The node that the next access of a thread is made to, or that its `delete` frees. -/
def Pc.touches {β : Type*} : Pc β → Option Nat
  | .popNext old | .popData old | .pushData _ _ old | .pushNext _ _ old | .helpNext _ _ old
  | .freeLoad _ old _ | .freeCas _ old _ _ => some old.ptr
  | .pushDelete _ new _ _ => some new.ptr
  | .releaseLoad ptr _ | .releaseCas ptr _ _ | .delete ptr _ => some ptr
  | _ => none

/-- That node is the one that the `push` of the thread has made, and that it deletes because
another thread has linked one first. -/
def Pc.touchesOwn {β : Type*} : Pc β → Bool
  | .pushDelete _ _ _ _ => true
  | _ => false

/-- Nobody runs a call. -/
def Quiescent (s : State τ α) : Prop :=
  ∀ t, ∃ last, s.pc t = .idle last

/-- What `lock_free_queue` promises about its nodes. -/
structure ReclamationContract (s : State τ α) : Prop where
  /-- A step reads, writes or deletes only what is allocated, and the node there is still
  the one that its `push` made, when it deletes that, or the one that it took a reference
  to: no access is made to a deleted node, and no node is deleted twice. -/
  touches : ∀ t p, (s.pc t).touches = some p →
    s.allocated p = true ∧ s.serial p = if (s.pc t).touchesOwn then s.made t else s.taken t
  /-- Whoever deletes a linked node does so behind `head` and `tail`. -/
  behind : ∀ a s' p, step s a = some s' → s.allocated p = true → s'.allocated p = false →
    s.published p = true → ∀ side, s.passed p side = true
  /-- With no call running, the allocated nodes are those from `head` to `tail`. -/
  complete : Quiescent s → ∃ before,
    Linked (fun p => (s.next p).ptr) 0 (s.counter .head).ptr
      (before ++ [(s.counter .tail).ptr]) ∧
    ∀ p, s.allocated p = true ↔ p ∈ before ++ [(s.counter .tail).ptr]

omit [DecidableEq τ] in
/-- Every access is to an allocated node, and to the one that the thread took or made. -/
theorem Inv.touches (h : Inv s before after) (hNoted : Noted s) {p : Nat}
    (hTouches : (s.pc t).touches = some p) :
    s.allocated p = true ∧ s.serial p = if (s.pc t).touchesOwn then s.made t else s.taken t := by
  have hCases : if (s.pc t).touchesOwn then ∃ new, (s.role t).owned = some new ∧ new.ptr = p
      else (s.role t).held = some p ∨ (s.role t).deleting = some p := by
    rw [State.role]
    cases hpc : s.pc t <;> rw [hpc] at hTouches <;> cases hTouches
    all_goals first
      | exact Or.inl rfl
      | exact Or.inr rfl
      | exact ⟨_, rfl, rfl⟩
  cases hOwn : (s.pc t).touchesOwn with
  | true =>
    rw [if_pos hOwn] at hCases
    obtain ⟨new, hOwned, rfl⟩ := hCases
    exact ⟨(h.nodes.owned t new hOwned).2.2.1, hNoted.made t new hOwned⟩
  | false =>
    rw [if_neg (by simp [hOwn])] at hCases
    refine ⟨?_, hNoted.taken t p hCases⟩
    rcases hCases with hHeld | hDeleting
    · exact (h.nodes.held t p hHeld).1
    · exact (h.deletes.deleting t p hDeleting).1

/-- A node that stops being allocated in a step is the one that its thread deletes. -/
theorem Effect.deleted (he : Effect s t s') {p : Nat} (hAlloc : s.allocated p = true)
    (hGone : s'.allocated p = false) :
    (∃ new, (s.role t).owned = some new ∧ new.ptr = p) ∨ (s.role t).deleting = some p := by
  have hNot : s'.allocated p ≠ s.allocated p := by
    rw [hAlloc, hGone]
    exact Bool.false_ne_true
  cases he with
  | @alloc q pc hAllocates hZero hFree =>
    rcases update_at s.allocated q true p with ⟨-, hAt⟩ | ⟨-, hAt⟩
    · cases hAt.symm.trans hGone
    · exact absurd hAt hNot
  | @discard value new old next hpc =>
    rcases update_at s.allocated new.ptr false p with ⟨hp, -⟩ | ⟨-, hAt⟩
    · exact Or.inl ⟨new, by rw [State.role, hpc]; rfl, hp.symm⟩
    · exact absurd hAt hNot
  | close hpc => exact absurd (congrFun (sameNodes_dropped ..).allocated p) hNot
  | release hpc => exact absurd (congrFun (sameNodes_dropped ..).allocated p) hNot
  | @delete q k hpc =>
    have hDelete := congrFun (sameNodes_resume (s.deleteNode q) t k).allocated p
    rcases update_at s.allocated q false p with ⟨rfl, -⟩ | ⟨-, hAt⟩
    · exact Or.inr (by rw [State.role, hpc]; rfl)
    · exact absurd (hDelete.trans hAt) hNot
  | _ => exact absurd rfl hNot

/-- A node that is deleted after it was linked is behind both pointers. -/
theorem Inv.behind (h : Inv s before after) (he : Effect s t s') {p : Nat}
    (hAlloc : s.allocated p = true) (hGone : s'.allocated p = false)
    (hPub : s.published p = true) (side : Side) : s.passed p side = true := by
  rcases he.deleted hAlloc hGone with ⟨new, hOwned, rfl⟩ | hDeleting
  · rw [(h.nodes.owned t new hOwned).2.2.2] at hPub
    cases hPub
  · by_contra hNot
    have hOpen := h.counts.ahead p side hAlloc (Bool.not_eq_true _ ▸ hNot)
    rw [(h.deletes.deleting t p hDeleting).2.1 side] at hOpen
    cases hOpen

omit [DecidableEq τ] in
/-- When no call runs only the nodes of the queue are left. -/
theorem Inv.complete (h : Inv s before after) (hQuiescent : Quiescent s) :
    after = [] ∧ ∀ p, s.allocated p = true ↔ p ∈ before ++ [(s.counter .tail).ptr] := by
  have hIdle : ∀ t, s.role t = ⟨none, none, none, none⟩ ∧ (s.pc t).linking = none := by
    intro t
    obtain ⟨last, hpc⟩ := hQuiescent t
    rw [State.role, hpc]
    exact ⟨rfl, rfl⟩
  obtain rfl : after = [] := by
    refine h.nodes.after_eq.1 ?_
    by_contra hSome
    obtain ⟨t, ht⟩ := h.linking hSome
    rw [(hIdle t).2] at ht
    cases ht
  refine ⟨rfl, fun p => ⟨fun hAlloc => ?_, fun hMem => (h.nodes.onChain p hMem).1⟩⟩
  by_contra hOut
  have hPub : s.published p = true := by
    by_contra hNot
    obtain ⟨t, new, hNew, -⟩ := h.nodes.ownedCover p hAlloc (Bool.not_eq_true _ ▸ hNot)
    rw [(hIdle t).1] at hNew
    cases hNew
  -- behind the chain, with no thread to add a count, hold a reference or delete
  have hNone : ∀ side, s.external p side = none := by
    intro side
    by_contra hSome
    obtain ⟨c, hc⟩ := Option.ne_none_iff_exists'.mp hSome
    obtain ⟨t, ht⟩ := h.counts.closingCover p side c hAlloc
      (h.nodes.behind p hAlloc hPub hOut side) hc
    rw [(hIdle t).1] at ht
    cases ht
  have hZero : (s.count p).internalCount = 0 := by
    have hClosed := h.counts.balanced.closed hNone
    rw [count_eq_zero] at hClosed
    · exact hClosed
    · intro t ht
      rw [(hIdle t).1] at ht
      cases ht
  obtain ⟨t, ht⟩ := h.deletes.cover p hAlloc ⟨hNone, hZero⟩
  rw [(hIdle t).1] at ht
  cases ht

/-- **Reclamation in the queue**, for any number of threads and every interleaving, with
spurious failures of the exchanges and addresses that are used again. There is no condition on
the steps: the counts are integers here, and `external_counts_bounded` says when an `int` holds
them. -/
theorem queue_reclamation (h : (system τ α).Reachable s) : ReclamationContract s := by
  obtain ⟨⟨before, after, hInv⟩, hNoted⟩ := inv_reachable h
  refine ⟨fun t p hTouches => hInv.touches hNoted hTouches, ?_, ?_⟩
  · intro a s' p hst hAlloc hGone hPub side
    have he := step_effect hst
    exact hInv.behind he hAlloc hGone hPub side
  · intro hQuiescent
    obtain ⟨rfl, hAll⟩ := hInv.complete hQuiescent
    exact ⟨before, hInv.nodes.linked, hAll⟩

/-- A `push`, a `pop` that deletes the first node while another `push` is stalled with a
stale pointer to it, and a third `push` that gets its address again. -/
theorem queue_reclamation_reuse :
    ∃ s : State (Fin 3) Nat, (system (Fin 3) Nat).Reachable s ∧ s.returned = [(1, 7)] ∧
      s.pc 2 = .pushIncrease (0, 9) ⟨1, 4⟩ ⟨1, 1⟩ ∧ s.allocated 1 = true ∧ s.serial 1 = 3 ∧
      ReclamationContract s := by
  obtain ⟨s, hs, hReturned, hPc, hAlloc, hSerial⟩ := System.exists_reachable_of_exec
    (S := system (Fin 3) Nat)
    (p := fun s => s.returned = [(1, 7)] ∧ s.pc 2 = .pushIncrease (0, 9) ⟨1, 4⟩ ⟨1, 1⟩ ∧
      s.allocated 1 = true ∧ s.serial 1 = 3)
    ([Action.callPush 2 9, Action.run 2 false 4, Action.run 2 false 0, Action.callPush 0 7] ++
      List.replicate 8 (Action.run 0 false 2) ++ [Action.callPop 1] ++
      List.replicate 9 (Action.run 1 false 0) ++ [Action.callPush 0 8] ++
      List.replicate 8 (Action.run 0 false 1))
    (by decide +kernel)
  exact ⟨s, hs, hReturned, hPc, hAlloc, hSerial, queue_reclamation hs⟩

end EmbLinux.DesignLockFree.Queue
