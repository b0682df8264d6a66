import EmbLinux.Lib.Placement
import EmbLinux.Lib.System

/-!
# EmbLinux — the flow of tasks through thread pools

What pools of workers are for, without mutexes and waiting: a pool accepts a task
into its shared queue or into the deque of a worker; a worker with empty hands
takes a task from the front of the shared queue, from the front of its deque or
from the back of a deque of its pool; it invokes the task in its hands and is done
with it. `Flows` is the invariant: each accepted task is in one place, and is
invoked at most once.
-/

namespace EmbLinux.ThreadPool

/-- The tasks of all pools. `hands` are the task that a worker took and whether it
has invoked it. -/
structure Tasks (ι : Type*) where
  taskQueue : ι → List Nat
  localQueues : ι × Nat → List Nat
  hands : ι × Nat → Option (Nat × Bool)
  calls : Nat
  accepted : ι → List Nat
  submitted : ι → List Nat
  popped : ι → List Nat
  invoked : List Nat
  finished : ι → List Nat

/-- The ways in which a task is handed on. -/
inductive Flow (ι : Type*)
  | acceptShared (p : ι)
  | acceptLocal (p : ι) (i : Nat)
  | front (w : ι × Nat)
  | pop (w : ι × Nat)
  | steal (w : ι × Nat) (i : Nat)
  | invoke (w : ι × Nat)
  | finish (w : ι × Nat)

variable {ι : Type*} [DecidableEq ι]

/-- What each of them does. A shared task is taken from the front, a task of a deque from either
end. -/
def flowStep (t : Tasks ι) : Flow ι → Option (Tasks ι)
  | .acceptShared p =>
    some { t with
      taskQueue := Function.update t.taskQueue p (t.taskQueue p ++ [t.calls])
      calls := t.calls + 1
      accepted := Function.update t.accepted p (t.accepted p ++ [t.calls])
      submitted := Function.update t.submitted p (t.submitted p ++ [t.calls]) }
  | .acceptLocal p i =>
    some { t with
      localQueues := Function.update t.localQueues (p, i) (t.localQueues (p, i) ++ [t.calls])
      calls := t.calls + 1
      accepted := Function.update t.accepted p (t.accepted p ++ [t.calls]) }
  | .front w =>
    match t.hands w, t.localQueues w with
    | none, task :: rest =>
      some { t with
        localQueues := Function.update t.localQueues w rest
        hands := Function.update t.hands w (some (task, false)) }
    | _, _ => none
  | .pop w =>
    match t.hands w, t.taskQueue w.1 with
    | none, task :: rest =>
      some { t with
        taskQueue := Function.update t.taskQueue w.1 rest
        popped := Function.update t.popped w.1 (t.popped w.1 ++ [task])
        hands := Function.update t.hands w (some (task, false)) }
    | _, _ => none
  | .steal w i =>
    match t.hands w, (t.localQueues (w.1, i)).getLast? with
    | none, some task =>
      some { t with
        localQueues := Function.update t.localQueues (w.1, i) (t.localQueues (w.1, i)).dropLast
        hands := Function.update t.hands w (some (task, false)) }
    | _, _ => none
  | .invoke w =>
    match t.hands w with
    | some (task, false) =>
      some { t with
        invoked := t.invoked ++ [task]
        hands := Function.update t.hands w (some (task, true)) }
    | _ => none
  | .finish w =>
    match t.hands w with
    | some (task, true) =>
      some { t with
        finished := Function.update t.finished w.1 (t.finished w.1 ++ [task])
        hands := Function.update t.hands w none }
    | _ => none

/-- No tasks. -/
def flowInit (ι : Type*) : Tasks ι where
  taskQueue := fun _ => []
  localQueues := fun _ => []
  hands := fun _ => none
  calls := 0
  accepted := fun _ => []
  submitted := fun _ => []
  popped := fun _ => []
  invoked := []
  finished := fun _ => []

/-- The flow of tasks alone, without mutexes and program points. -/
def flow (ι : Type*) [DecidableEq ι] : System (Tasks ι) (Flow ι) where
  init := flowInit ι
  step := flowStep

-- ---------------------------------------------------------------------------
-- The places of a task
-- ---------------------------------------------------------------------------

/-- Where a task can be. -/
inductive Place (ι : Type*)
  | shared (p : ι)
  | localQueue (w : ι × Nat)
  | hands (w : ι × Nat)
  | finished (p : ι)
  deriving DecidableEq

/-- The pool that a place belongs to. -/
def Place.pool : Place ι → ι
  | .shared p => p
  | .localQueue w => w.1
  | .hands w => w.1
  | .finished p => p

/-- The tasks at a place. -/
def Tasks.at (t : Tasks ι) : Place ι → List Nat
  | .shared p => t.taskQueue p
  | .localQueue w => t.localQueues w
  | .hands w => ((t.hands w).map Prod.fst).toList
  | .finished p => t.finished p

/-- Every accepted task is in one place, the shared queue is first in first out, and no task is
invoked twice. -/
structure Flows (t : Tasks ι) (place : Nat → Option (Place ι)) : Prop where
  placement : Placement t.at place
  numbered : ∀ x k, place x = some k → x < t.calls
  /-- A task that was accepted has a place in its pool. -/
  accepted : ∀ p x, x ∈ t.accepted p ↔ ∃ k, place x = some k ∧ k.pool = p
  /-- The shared queue is first-in first-out. -/
  fifo : ∀ p, t.submitted p = t.popped p ++ t.taskQueue p
  once : t.invoked.Nodup
  /-- It was invoked if it is running in somebody's hands or finished. -/
  invoked : ∀ x, x ∈ t.invoked ↔ (∃ w, t.hands w = some (x, true)) ∨ ∃ p, x ∈ t.finished p

variable {t t' : Tasks ι} {place : Nat → Option (Place ι)} {w : ι × Nat} {task : Nat}

section

omit [DecidableEq ι]

/-- There is no task. -/
theorem flows_init : Flows (flowInit ι) fun _ => none := by
  refine ⟨?_, nofun, ?_, fun _ => rfl, List.nodup_nil, ?_⟩
  · intro k
    have hEmpty : (flowInit ι).at k = [] := by cases k <;> rfl
    rw [hEmpty]
    exact ⟨List.nodup_nil, fun _ => ⟨nofun, nofun⟩⟩
  · simp [flowInit]
  · simp [flowInit]

/-- The hands of a worker hold one task, -/
theorem Tasks.at_hands {b : Bool} (hTask : t.hands w = some (task, b)) :
    t.at (.hands w) = [task] := by
  simp [Tasks.at, hTask]

/-- or none. -/
theorem Tasks.at_hands_none (hNone : t.hands w = none) : t.at (.hands w) = [] := by
  simp [Tasks.at, hNone]

/-- No task has the next number yet. -/
theorem Flows.fresh (h : Flows t place) : place t.calls = none := by
  cases hPlace : place t.calls with
  | none => rfl
  | some k => exact absurd (h.numbered _ k hPlace) (Nat.lt_irrefl _)

end

-- ---------------------------------------------------------------------------
-- The steps
-- ---------------------------------------------------------------------------

/-- A pool accepts a task at the back of a queue. -/
theorem Flows.accept (h : Flows t place) (k : Place ι) (hEnter : t'.at k = t.at k ++ [t.calls])
    (hOther : ∀ j, j ≠ k → t'.at j = t.at j) (hHands : t'.hands = t.hands)
    (hFinished : t'.finished = t.finished) (hInvoked : t'.invoked = t.invoked)
    (hCalls : t'.calls = t.calls + 1)
    (hAccepted : t'.accepted =
      Function.update t.accepted k.pool (t.accepted k.pool ++ [t.calls]))
    (hFifo : ∀ p, t'.submitted p = t'.popped p ++ t'.taskQueue p) :
    Flows t' (Function.update place t.calls (some k)) := by
  refine ⟨h.placement.add h.fresh ?_ hOther, ?_, ?_, hFifo, ?_, ?_⟩
  · rw [hEnter]
    exact List.perm_append_singleton _ _
  · intro x j hx
    rw [hCalls]
    rcases update_at place t.calls (some k) x with ⟨rfl, -⟩ | ⟨-, hAt⟩
    · exact Nat.lt_succ_self _
    · exact Nat.lt_succ_of_lt (h.numbered x j (hAt ▸ hx))
  · intro p x
    have hOld := h.accepted p x
    rcases update_at place t.calls (some k) x with ⟨rfl, hAt⟩ | ⟨hx, hAt⟩ <;> rw [hAt]
    · -- the new task
      rw [h.fresh] at hOld
      have hNot : t.calls ∉ t.accepted p := fun hMem => by simpa using hOld.mp hMem
      rcases update_cases hAccepted p with ⟨rfl, hp⟩ | ⟨hp, hp'⟩
      · simp [hp]
      · rw [hp']
        refine ⟨fun hMem => absurd hMem hNot, ?_⟩
        rintro ⟨j, hj, hPool⟩
        cases hj
        exact absurd hPool.symm hp
    · rw [← hOld]
      rcases update_cases hAccepted p with ⟨rfl, hp⟩ | ⟨-, hp⟩ <;> rw [hp]
      simp [hx]
  · rw [hInvoked]
    exact h.once
  · rw [hInvoked, hHands, hFinished]
    exact h.invoked

/-- A worker takes a task of its pool from a queue. -/
theorem Flows.take (h : Flows t place) (k : Place ι) (hPool : k.pool = w.1) (hk : k ≠ .hands w)
    (hNone : t.hands w = none) (hLeave : (t.at k).Perm (task :: t'.at k))
    (hHands : t'.hands = Function.update t.hands w (some (task, false)))
    (hOther : ∀ j, j ≠ k → (∀ u, j ≠ .hands u) → t'.at j = t.at j)
    (hFinished : t'.finished = t.finished) (hInvoked : t'.invoked = t.invoked)
    (hCalls : t'.calls = t.calls) (hAccepted : t'.accepted = t.accepted)
    (hFifo : ∀ p, t'.submitted p = t'.popped p ++ t'.taskQueue p) :
    Flows t' (Function.update place task (some (.hands w))) := by
  have hTask : place task = some k :=
    h.placement.place_of_mem (hLeave.mem_iff.mpr List.mem_cons_self)
  have hRest : ∀ j, j ≠ k → j ≠ .hands w → t'.at j = t.at j := by
    intro j hjk hjw
    cases j with
    | hands u =>
      have hu : u ≠ w := fun hEq => hjw (hEq ▸ rfl)
      simp [Tasks.at, hHands, hu]
    | _ => exact hOther _ hjk nofun
  refine ⟨h.placement.move hk hLeave ?_ hRest, ?_, ?_, hFifo, ?_, ?_⟩
  · rw [Tasks.at_hands_none hNone, Tasks.at_hands (b := false) (hHands ▸ Function.update_self ..)]
  · intro x j hx
    rw [hCalls]
    rcases update_at place task (some (.hands w)) x with ⟨rfl, -⟩ | ⟨-, hAt⟩
    · exact h.numbered _ k hTask
    · exact h.numbered x j (hAt ▸ hx)
  · intro p x
    rw [hAccepted, h.accepted p x]
    rcases update_at place task (some (.hands w)) x with ⟨rfl, hAt⟩ | ⟨-, hAt⟩ <;> rw [hAt]
    rw [hTask]
    constructor
    · rintro ⟨j, hj, rfl⟩
      cases hj
      exact ⟨_, rfl, hPool.symm⟩
    · rintro ⟨j, hj, rfl⟩
      cases hj
      exact ⟨_, rfl, hPool⟩
  · rw [hInvoked]
    exact h.once
  · intro x
    rw [hInvoked, hFinished, h.invoked x]
    refine or_congr_left ⟨?_, ?_⟩
    · rintro ⟨u, hu⟩
      have hne : u ≠ w := fun hEq => by rw [hEq, hNone] at hu; cases hu
      exact ⟨u, by rw [hHands, Function.update_of_ne hne]; exact hu⟩
    · rintro ⟨u, hu⟩
      rcases update_cases hHands u with ⟨-, hAt⟩ | ⟨-, hAt⟩ <;> rw [hAt] at hu
      · cases hu
      · exact ⟨u, hu⟩

/-- A task is invoked once, when it has been taken, -/
theorem Flows.invoke (h : Flows t place) (hTask : t.hands w = some (task, false)) :
    Flows { t with
      invoked := t.invoked ++ [task]
      hands := Function.update t.hands w (some (task, true)) } place := by
  have hPlace : place task = some (.hands w) := by
    refine h.placement.place_of_mem ?_
    rw [Tasks.at_hands hTask]
    exact List.mem_singleton_self _
  have hNew : task ∉ t.invoked := by
    rw [h.invoked]
    rintro (⟨u, hu⟩ | ⟨p, hp⟩)
    · -- the worker has not invoked it, and no other worker has it
      have hMem : task ∈ t.at (.hands u) := by
        rw [Tasks.at_hands hu]
        exact List.mem_singleton_self _
      rw [h.placement.place_of_mem hMem] at hPlace
      cases hPlace
      rw [hTask] at hu
      cases hu
    · rw [h.placement.place_of_mem (k := .finished p) hp] at hPlace
      cases hPlace
  refine ⟨h.placement.congr ?_, h.numbered, h.accepted, h.fifo, ?_, ?_⟩
  · intro k
    cases k with
    | hands u =>
      by_cases hu : u = w
      · simp [Tasks.at, hu, hTask]
      · simp [Tasks.at, hu]
    | _ => exact List.Perm.refl _
  · exact List.nodup_append'.mpr ⟨h.once, List.nodup_singleton _, by simpa using hNew⟩
  · intro x
    show x ∈ t.invoked ++ [task] ↔
      (∃ u, Function.update t.hands w (some (task, true)) u = some (x, true)) ∨
        ∃ p, x ∈ t.finished p
    rw [List.mem_append, List.mem_singleton, h.invoked x]
    constructor
    · rintro ((⟨u, hu⟩ | hp) | rfl)
      · have hne : u ≠ w := fun hEq => by rw [hEq, hTask] at hu; cases hu
        exact Or.inl ⟨u, by rw [Function.update_of_ne hne]; exact hu⟩
      · exact Or.inr hp
      · exact Or.inl ⟨w, Function.update_self ..⟩
    · rintro (⟨u, hu⟩ | hp)
      · rcases update_at t.hands w (some (task, true)) u with ⟨-, hAt⟩ | ⟨-, hAt⟩ <;>
          rw [hAt] at hu
        · cases hu
          exact Or.inr rfl
        · exact Or.inl (Or.inl ⟨u, hu⟩)
      · exact Or.inl (Or.inr hp)

/-- and is finished after that. -/
theorem Flows.finish (h : Flows t place) (hTask : t.hands w = some (task, true)) :
    Flows { t with
      finished := Function.update t.finished w.1 (t.finished w.1 ++ [task])
      hands := Function.update t.hands w none }
      (Function.update place task (some (.finished w.1))) := by
  have hPlace : place task = some (.hands w) := by
    refine h.placement.place_of_mem ?_
    rw [Tasks.at_hands hTask]
    exact List.mem_singleton_self _
  refine ⟨h.placement.move (k := .hands w) nofun ?_ ?_ ?_, ?_, ?_, h.fifo, h.once, ?_⟩
  · rw [Tasks.at_hands hTask, Tasks.at_hands_none (Function.update_self ..)]
  · simp only [Tasks.at, Function.update_self]
    exact List.perm_append_singleton _ _
  · intro j hj hj'
    cases j with
    | hands u =>
      have hu : u ≠ w := fun hEq => hj (hEq ▸ rfl)
      simp [Tasks.at, hu]
    | finished p =>
      have hp : p ≠ w.1 := fun hEq => hj' (hEq ▸ rfl)
      simp [Tasks.at, hp]
    | _ => rfl
  · intro x j hx
    rcases update_at place task (some (.finished w.1)) x with ⟨rfl, -⟩ | ⟨-, hAt⟩
    · exact h.numbered _ _ hPlace
    · exact h.numbered x j (hAt ▸ hx)
  · intro p x
    rw [h.accepted p x]
    rcases update_at place task (some (.finished w.1)) x with ⟨rfl, hAt⟩ | ⟨-, hAt⟩ <;> rw [hAt]
    rw [hPlace]
    constructor
    · rintro ⟨j, hj, rfl⟩
      cases hj
      exact ⟨_, rfl, rfl⟩
    · rintro ⟨j, hj, rfl⟩
      cases hj
      exact ⟨_, rfl, rfl⟩
  · intro x
    show x ∈ t.invoked ↔ (∃ u, Function.update t.hands w none u = some (x, true)) ∨
      ∃ p, x ∈ Function.update t.finished w.1 (t.finished w.1 ++ [task]) p
    rw [h.invoked x]
    constructor
    · rintro (⟨u, hu⟩ | ⟨p, hp⟩)
      · by_cases huw : u = w
        · rw [huw, hTask] at hu
          cases hu
          exact Or.inr ⟨w.1, by simp⟩
        · exact Or.inl ⟨u, by rw [Function.update_of_ne huw]; exact hu⟩
      · refine Or.inr ⟨p, ?_⟩
        rcases update_at t.finished w.1 (t.finished w.1 ++ [task]) p with ⟨rfl, hAt⟩ | ⟨-, hAt⟩ <;>
          rw [hAt]
        · exact List.mem_append_left _ hp
        · exact hp
    · rintro (⟨u, hu⟩ | ⟨p, hp⟩)
      · rcases update_at t.hands w none u with ⟨-, hAt⟩ | ⟨-, hAt⟩ <;> rw [hAt] at hu
        · cases hu
        · exact Or.inl ⟨u, hu⟩
      · rcases update_at t.finished w.1 (t.finished w.1 ++ [task]) p with ⟨rfl, hAt⟩ | ⟨-, hAt⟩ <;>
          rw [hAt] at hp
        · rcases List.mem_append.mp hp with hp | hp
          · exact Or.inr ⟨_, hp⟩
          · rw [List.mem_singleton.mp hp]
            exact Or.inl ⟨w, hTask⟩
        · exact Or.inr ⟨p, hp⟩

/-- A case for each way to hand on a task. -/
theorem flows_step (h : Flows t place) {b : Flow ι} (hst : flowStep t b = some t') :
    ∃ place', Flows t' place' := by
  cases b with
  | acceptShared p =>
    cases hst
    refine ⟨_, h.accept (.shared p) ?_ ?_ rfl rfl rfl rfl rfl ?_⟩
    · simp [Tasks.at]
    · intro j hj
      cases j with
      | shared q =>
        have hq : q ≠ p := fun hEq => hj (hEq ▸ rfl)
        simp [Tasks.at, hq]
      | _ => rfl
    · intro q
      show Function.update t.submitted p (t.submitted p ++ [t.calls]) q =
        t.popped q ++ Function.update t.taskQueue p (t.taskQueue p ++ [t.calls]) q
      by_cases hq : q = p
      · rw [hq, Function.update_self, Function.update_self, h.fifo, List.append_assoc]
      · rw [Function.update_of_ne hq, Function.update_of_ne hq, h.fifo]
  | acceptLocal p i =>
    cases hst
    refine ⟨_, h.accept (.localQueue (p, i)) ?_ ?_ rfl rfl rfl rfl rfl h.fifo⟩
    · simp [Tasks.at]
    · intro j hj
      cases j with
      | localQueue u =>
        have hu : u ≠ (p, i) := fun hEq => hj (hEq ▸ rfl)
        simp [Tasks.at, hu]
      | _ => rfl
  -- a task goes from a queue into the hands of a worker that has none
  | front w =>
    simp only [flowStep] at hst
    split at hst <;> cases hst
    next task rest hNone hQueue =>
    refine ⟨_, h.take (w := w) (.localQueue w) rfl nofun hNone ?_ rfl ?_ rfl rfl rfl rfl h.fifo⟩
    · simp [Tasks.at, hQueue]
    · intro j hj hHands
      cases j with
      | localQueue u =>
        have hu : u ≠ w := fun hEq => hj (hEq ▸ rfl)
        simp [Tasks.at, hu]
      | hands u => exact absurd rfl (hHands u)
      | _ => rfl
  | pop w =>
    simp only [flowStep] at hst
    split at hst <;> cases hst
    next task rest hNone hQueue =>
    refine ⟨_, h.take (w := w) (.shared w.1) rfl nofun hNone ?_ rfl ?_ rfl rfl rfl rfl ?_⟩
    · simp [Tasks.at, hQueue]
    · intro j hj hHands
      cases j with
      | shared q =>
        have hq : q ≠ w.1 := fun hEq => hj (hEq ▸ rfl)
        simp [Tasks.at, hq]
      | hands u => exact absurd rfl (hHands u)
      | _ => rfl
    · intro q
      show t.submitted q = Function.update t.popped w.1 (t.popped w.1 ++ [task]) q ++
        Function.update t.taskQueue w.1 rest q
      -- the shared queue is first-in first-out: what was popped comes before what is left
      by_cases hq : q = w.1
      · rw [hq, Function.update_self, Function.update_self, h.fifo, hQueue, List.append_assoc]
        rfl
      · rw [Function.update_of_ne hq, Function.update_of_ne hq, h.fifo]
  | steal w i =>
    simp only [flowStep] at hst
    split at hst <;> cases hst
    next task hNone hLast =>
    refine ⟨_, h.take (w := w) (.localQueue (w.1, i)) rfl nofun hNone ?_ rfl ?_ rfl rfl rfl
      rfl h.fifo⟩
    -- the last task of the deque
    · obtain ⟨front, hFront⟩ := List.getLast?_eq_some_iff.mp hLast
      simp only [Tasks.at, Function.update_self, hFront, List.dropLast_concat]
      exact List.perm_append_singleton _ _
    · intro j hj hHands
      cases j with
      | localQueue u =>
        have hu : u ≠ (w.1, i) := fun hEq => hj (hEq ▸ rfl)
        simp [Tasks.at, hu]
      | hands u => exact absurd rfl (hHands u)
      | _ => rfl
  -- the hands of a worker keep the task while it runs
  | invoke w =>
    simp only [flowStep] at hst
    split at hst <;> cases hst
    next task hTask => exact ⟨place, h.invoke hTask⟩
  | finish w =>
    simp only [flowStep] at hst
    split at hst <;> cases hst
    next task hTask => exact ⟨_, h.finish hTask⟩

/-- **Tasks are conserved** in every run of the flow. -/
theorem flows_of_reachable (h : (flow ι).Reachable t) : ∃ place, Flows t place :=
  h.invariant (I := fun t => ∃ place, Flows t place) ⟨_, flows_init⟩
    fun _ _ _ _ ⟨_, hI⟩ _ hst => flows_step hI hst

end EmbLinux.ThreadPool
