import EmbLinux.DesignLockBase.ThreadsafeList.Removals
import EmbLinux.DesignLockBase.ThreadsafeList.Traversals

/-!
# EmbLinux — the contract of `threadsafe_list`

* `Inv.touches_allocated`, `Inv.delete_alone` — nobody comes to a node that was deleted;
* `exists_mover` — along the list, from a mutex that is waited for to the one its thread waits
  for, some thread can go on;
* `list_contract` — what holds in every state that a run reaches.

The functions and predicates that the callers pass are any: what they answer is part of the
schedule, and they do not call the list.
-/

namespace EmbLinux.DesignLockBase.ThreadsafeList

variable {τ α : Type*} [DecidableEq τ] {s s' : State τ α} {t u : τ} {p q c n : Nat}

-- ---------------------------------------------------------------------------
-- Deleted nodes
-- ---------------------------------------------------------------------------

namespace Inv

variable (h : Inv s)

include h

section

omit [DecidableEq τ]

/-- What a thread accesses is in the list or its own, -/
theorem touches_mem (hTouch : p ∈ (s.pc t).touches) :
    p ∈ head :: s.nodes ∨ (s.pc t).owned = some p := by
  have hOk := h.pcs t
  cases hpc : s.pc t <;> rw [hpc] at hOk hTouch <;>
    simp only [Pc.touches, List.mem_cons, List.not_mem_nil, or_false] at hTouch
  case pushLock | pushUnlock | lockHead => exact Or.inl (hTouch ▸ List.mem_cons_self)
  case pushTake | pushLink =>
    rcases hTouch with rfl | rfl
    · exact Or.inr rfl
    · exact Or.inl List.mem_cons_self
  case readNext => exact Or.inl (hTouch ▸ hOk)
  case unlockCurrent | removePass | unlockLast | removeTake => exact Or.inl (hTouch ▸ hOk.1)
  case lockNext | callPredicate =>
    exact Or.inl (hTouch ▸ List.mem_cons_of_mem _ (succ_mem hOk.2.2 hOk.2.1))
  case callBack | findReturn | findUnlock => exact Or.inl (hTouch ▸ List.mem_cons_of_mem _ hOk)
  case removeUnlock | removeDelete => exact Or.inr (hTouch ▸ rfl)
  case removeLink =>
    rcases hTouch with rfl | rfl
    · exact Or.inl hOk.1
    · exact Or.inr rfl

/-- and so it is allocated. -/
theorem touches_allocated (hTouch : p ∈ (s.pc t).touches) : s.allocated p = true := by
  rcases h.touches_mem hTouch with hMem | hOwn
  · rcases List.mem_cons.mp hMem with rfl | hMem
    · exact h.headLive
    · exact (h.live p hMem).allocated
  · exact (h.ownedLive t p hOwn).1.allocated

/-- The mutex of a node that is being deleted is free, and nobody waits for it. -/
theorem delete_alone (hpc : s.pc t = .removeDelete c n) :
    s.mutex n = none ∧ ∀ u, u ≠ t → n ∉ (s.pc u).touches := by
  have hOwn : (s.pc t).owned = some n := by rw [hpc]; rfl
  have hOut := h.owned_ne hOwn
  constructor
  · cases hLock : s.mutex n with
    | none => rfl
    | some u =>
      have hHolds : (s.pc u).holds n = true := (h.locks n u).mp hLock
      rcases h.mem_of_holds hHolds with hMem | hOther
      · exact absurd hMem hOut
      · obtain rfl := h.owned u t n hOther hOwn
        have hOk := h.pcs u
        rw [hpc] at hOk hHolds
        have hnc : n = c := of_decide_eq_true hHolds
        exact absurd (hnc ▸ hOk) hOut
  · intro u hut hTouch
    rcases h.touches_mem hTouch with hMem | hOther
    · exact hOut hMem
    · exact hut (h.owned u t n hOther hOwn)

end

end Inv

-- ---------------------------------------------------------------------------
-- Progress
-- ---------------------------------------------------------------------------

/-- The thread is in a call, and does not wait for a mutex that is locked. -/
def State.CanMove (s : State τ α) (t : τ) : Prop :=
  (s.pc t).isIdle = false ∧ ∀ p, (s.pc t).waitsFor = some p → s.mutex p = none

omit [DecidableEq τ] in
/-- A thread with a lock is inside a call, -/
theorem Pc.not_idle_of_holds {pc : Pc α} (h : pc.holds p = true) : pc.isIdle = false := by
  cases pc <;> first | rfl | cases h

omit [DecidableEq τ] in
/-- and if it waits for another one, it waits for the next node. -/
theorem Pc.lockNext_of_waitsFor {pc : Pc α} (hHolds : pc.holds p = true)
    (hWaits : pc.waitsFor = some q) : ∃ v, pc = .lockNext v p q := by
  cases pc <;> cases hWaits
  case pushLock | lockHead => cases hHolds
  case lockNext v c =>
    obtain rfl : p = c := of_decide_eq_true hHolds
    exact ⟨v, rfl⟩

/-- A thread that waits for no lock makes a step, whatever the function answers. -/
theorem State.CanMove.run_isSome (h : s.CanMove t) (answer : Bool) (value : Option α) :
    ∃ s', run s t answer value = some s' := by
  cases hRun : run s t answer value with
  | some s' => exact ⟨s', rfl⟩
  | none =>
    rcases run_eq_none hRun with hIdle | ⟨p, u, hWaits, hLocked⟩
    · rw [h.1] at hIdle
      cases hIdle
    · rw [h.2 p hWaits] at hLocked
      cases hLocked

section

omit [DecidableEq τ]

/-- A thread that has a mutex locked waits for the next node at most. -/
theorem Inv.following_of_waitsFor (h : Inv s) (hHolds : (s.pc u).holds p = true)
    (hWaits : (s.pc u).waitsFor = some q) : ∃ r, following p (head :: s.nodes) = q :: r := by
  obtain ⟨v, hpc⟩ := Pc.lockNext_of_waitsFor hHolds hWaits
  have hOk := h.pcs u
  rw [hpc] at hOk
  exact mem_of_succ hOk.2.2 hOk.2.1

/-- The thread that has the mutex locked can go on, or waits for a node further back. -/
theorem exists_mover_of_locked (h : Inv s) {l : List Nat}
    (hList : following p (head :: s.nodes) = l) (hLocked : s.mutex p = some u) :
    ∃ w, s.CanMove w := by
  induction l generalizing p u with
  | nil =>
    have hHolds := (h.locks p u).mp hLocked
    refine ⟨u, Pc.not_idle_of_holds hHolds, fun q hWaits => ?_⟩
    obtain ⟨r, hNext⟩ := h.following_of_waitsFor hHolds hWaits
    cases hList.symm.trans hNext
  | cons m l ih =>
    have hHolds := (h.locks p u).mp hLocked
    cases hFree : s.mutex m with
    | some w => exact ih (following_of_cons h.nodup hList) hFree
    | none =>
      refine ⟨u, Pc.not_idle_of_holds hHolds, fun q hWaits => ?_⟩
      obtain ⟨r, hNext⟩ := h.following_of_waitsFor hHolds hWaits
      cases hList.symm.trans hNext
      exact hFree

/-- Somebody can go on: the thread furthest down the list waits for nobody. -/
theorem exists_mover (h : Inv s) (hBusy : (s.pc t).isIdle = false) : ∃ w, s.CanMove w := by
  by_cases hMove : ∀ p, (s.pc t).waitsFor = some p → s.mutex p = none
  · exact ⟨t, hBusy, hMove⟩
  · push Not at hMove
    obtain ⟨p, -, hLocked⟩ := hMove
    obtain ⟨u, hu⟩ := Option.ne_none_iff_exists'.mp hLocked
    exact exists_mover_of_locked h rfl hu

end

-- ---------------------------------------------------------------------------
-- The contract
-- ---------------------------------------------------------------------------

/-- The node whose element the thread passes to the function or predicate, or returns. -/
def Pc.element : Pc α → Option Nat
  | .callBack _ n | .callPredicate _ n | .findReturn n => some n
  | _ => none

/-- What `threadsafe_list` promises. -/
structure ListContract (s : State τ α) : Prop where
  /-- The pointers run through the list, in its order, and end it; where a thread has moved one
  out, it has not assigned it yet. -/
  nodup : (head :: s.nodes).Nodup
  linked : ∀ p ∈ head :: s.nodes, (∀ t, (s.pc t).breaks ≠ some p) → s.next p = s.succ p
  /-- A step touches only nodes that exist, and reads the element only of one that has it. -/
  touches : ∀ t, ∀ p ∈ (s.pc t).touches, s.allocated p = true
  element : ∀ t p, (s.pc t).element = some p → (s.data p).isSome = true
  /-- A node is deleted by the thread that took it out, with its mutex free, while nobody else
  comes to it. The smart pointer in it is null, as are those that a step assigns: no other node
  goes with it. -/
  deleted : ∀ t c p, s.pc t = .removeDelete c p →
    (t, p) ∈ s.unlinked ∧ s.mutex p = none ∧ ∀ u, u ≠ t → p ∉ (s.pc u).touches
  cleared : Cleared s
  /-- A node leaves the list once, and by a `remove_if` whose predicate returned true for it. -/
  unlinkedOnce : (s.unlinked.map Prod.snd).Nodup
  unlinkedAccepted : ∀ x ∈ s.unlinked, x ∈ s.accepted
  /-- Where the predicate returned true, the node leaves the list in the next step. -/
  acceptedUnlinked : ∀ t p, (t, p) ∈ s.accepted →
    (t, p) ∈ s.unlinked ∨ ∃ c, s.pc t = .removeTake c p
  /-- `for_each` applies its function to no node twice, and when it ends, it has applied it, in
  list order, to all nodes that were in the list since it locked `head`. -/
  order : ∀ t, (s.present t).Sublist s.nodes
  visitedOnce : ∀ t, ((s.pc t).ahead (head :: s.nodes)).isSome = true → (s.visited t).Nodup
  visitedAll : ∀ t c, s.pc t = .unlockLast .forEach c → (s.present t).Sublist (s.visited t)
  /-- Unless all threads are idle, one of them can make its next step, whatever its function
  answers. -/
  progress : (∃ t, (s.pc t).isIdle = false) →
    ∃ t, (s.pc t).isIdle = false ∧ ∀ answer value, ∃ s', step s (.run t answer value) = some s'

omit [DecidableEq τ] in
/-- The element that a function is called with has a value. -/
theorem Inv.element_isSome (h : Inv s) (hElement : (s.pc t).element = some p) :
    (s.data p).isSome = true := by
  have hOk := h.pcs t
  cases hpc : s.pc t <;> rw [hpc] at hOk hElement <;> cases hElement
  case callBack | findReturn => exact (h.live p hOk).data
  case callPredicate => exact (h.live p (succ_mem hOk.2.2 hOk.2.1)).data

omit [DecidableEq τ] in
/-- Behind a node without a next one there is nothing. -/
theorem Inv.following_eq_nil (h : Inv s) (hLast : s.succ c = 0) :
    following c (head :: s.nodes) = [] := by
  unfold State.succ at hLast
  cases hList : following c (head :: s.nodes) with
  | nil => rfl
  | cons n r =>
    rw [hList] at hLast
    have hMem : n ∈ s.nodes :=
      (following_cons_sublist c head s.nodes).subset (hList ▸ List.mem_cons_self)
    have hGe := (h.live n hMem).ge
    rw [show n = 0 from hLast] at hGe
    cases hGe

/-- **The contract of the list**, for any number of threads and every interleaving of their
locks, unlocks and pointer updates, whatever the functions and predicates answer and assign.
There is no condition on the steps: hand-over-hand locking alone keeps removals and visits
apart. A function that calls the list again is excluded, since it would lock a mutex that its
thread holds. -/
theorem list_contract (hs : (system τ α).Reachable s) : ListContract s := by
  have h := inv_reachable hs
  have hVisits := visits_reachable hs
  have hRemovals := removals_reachable hs
  refine ⟨h.nodup, h.next, fun t p => h.touches_allocated, fun t p => h.element_isSome, ?_,
    cleared_reachable hs, hRemovals.once, hRemovals.accepted, ?_, hVisits.present, ?_, ?_, ?_⟩
  · intro t c p hpc
    obtain ⟨hFree, hAlone⟩ := h.delete_alone hpc
    exact ⟨hRemovals.removed t p (by rw [hpc]; rfl), hFree, hAlone⟩
  · exact fun t p hp => (hRemovals.pending t p hp).imp_right Pc.removeTake_of_accepts
  · intro t hAhead
    obtain ⟨rest, hRest⟩ := Option.isSome_iff_exists.mp hAhead
    exact (List.nodup_append.mp (hVisits.once t rest hRest)).1
  · intro t c hpc
    have hOk := h.pcs t
    rw [hpc] at hOk
    have hCovered := hVisits.covered t [] (by rw [hpc, ← h.following_eq_nil hOk.2]; rfl)
    rwa [List.append_nil] at hCovered
  · rintro ⟨t, hBusy⟩
    obtain ⟨u, hMove⟩ := exists_mover h hBusy
    exact ⟨u, hMove.1, hMove.run_isSome⟩

/-- While thread 1 is in a `for_each`, thread 2 puts node 5 in at the front, and thread 3 takes
out node 4, behind it, and waits for the mutex of node 3. Node 5 is not visited. -/
theorem list_contract_overtaken :
    ∃ s : State Nat Nat, (system Nat Nat).Reachable s ∧
      s.pc 1 = .unlockLast .forEach 2 ∧ s.pc 3 = .lockNext .removeIf 5 3 ∧
      s.visited 1 = [4, 3, 2] ∧ s.present 1 = [3, 2] ∧ s.nodes = [5, 3, 2] ∧
      s.unlinked = [(3, 4)] ∧ s.allocated 4 = false ∧ ListContract s := by
  obtain ⟨s, hs, hEnd, hWaits, hVisited, hPresent, hNodes, hUnlinked, hDeleted⟩ :=
    System.exists_reachable_of_exec (S := system Nat Nat)
    (p := fun s => s.pc 1 = .unlockLast .forEach 2 ∧ s.pc 3 = .lockNext .removeIf 5 3 ∧
      s.visited 1 = [4, 3, 2] ∧ s.present 1 = [3, 2] ∧ s.nodes = [5, 3, 2] ∧
      s.unlinked = [(3, 4)] ∧ s.allocated 4 = false)
    ([Action.callPush 0 10] ++ List.replicate 5 (Action.run 0 true none) ++
      [Action.callPush 0 20] ++ List.replicate 5 (Action.run 0 true none) ++
      [Action.callPush 0 30] ++ List.replicate 5 (Action.run 0 true none) ++
      [Action.call 1 .forEach] ++ List.replicate 4 (Action.run 1 true none) ++
      [Action.callPush 2 40] ++ List.replicate 5 (Action.run 2 true none) ++
      [Action.run 1 true (some 31)] ++ List.replicate 3 (Action.run 1 true none) ++
      [Action.call 3 .removeIf] ++ List.replicate 4 (Action.run 3 false none) ++
      List.replicate 9 (Action.run 3 true none) ++ List.replicate 6 (Action.run 1 true none))
    (by decide +kernel)
  exact ⟨s, hs, hEnd, hWaits, hVisited, hPresent, hNodes, hUnlinked, hDeleted, list_contract hs⟩

end EmbLinux.DesignLockBase.ThreadsafeList
