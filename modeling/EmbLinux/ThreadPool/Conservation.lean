import EmbLinux.ThreadPool.Flow
import EmbLinux.ThreadPool.Steps

/-!
# EmbLinux — no task of `JThreadPool` is lost or run twice

Seen through `State.tasks`, every step of the pools is a step of the abstract flow
of tasks or leaves the tasks alone (`step_flow`). So the invariant of the flow
holds of the code, whatever the mutexes, the wake-ups and `try_to_lock` do.

`OwnEmpty` adds that a worker that looks for work elsewhere has an empty deque, if
the workers submit to their own pools only: so it never steals from itself.

## Results

* `work_flow`, `step_flow` — each step hands on one task as `Flow` allows it, or none.
* `simulates_flow` — the simulation for whole runs.
* `ownEmpty_step` — the one fact that needs a condition, that workers submit to their own pool.
* `task_contract` — exactly one place for a task, at most one invocation, and the two ends of a
  deque.
-/

namespace EmbLinux.ThreadPool

variable {ι τ : Type*} [DecidableEq ι] [DecidableEq τ] {size : ι → Nat} {s s' : State ι τ}
  {a : Action ι τ} {w : Worker ι} {p : ι}

/-- The task in the hands of a worker, and whether it is invoked. -/
def Pc.task : Pc → Option (Nat × Bool)
  | .taken task => some (task, false)
  | .running task => some (task, true)
  | _ => none

@[simp] theorem task_taken (task : Nat) : (Pc.taken task).task = some (task, false) := rfl
@[simp] theorem task_running (task : Nat) : (Pc.running task).task = some (task, true) := rfl
@[simp] theorem task_top : Pc.top.task = none := rfl
@[simp] theorem task_tryLocal : Pc.tryLocal.task = none := rfl
@[simp] theorem task_tryGlobal : Pc.tryGlobal.task = none := rfl
@[simp] theorem task_steal (i : Nat) : (Pc.steal i).task = none := rfl

/-- Where the tasks of a state are, for the flow. -/
def State.tasks (s : State ι τ) : Tasks ι where
  taskQueue := s.taskQueue
  localQueues := s.localQueues
  hands := fun w => (s.pc w).task
  calls := s.calls
  accepted := s.accepted
  submitted := s.submitted
  popped := s.popped
  invoked := s.invoked
  finished := s.finished

/-- The flow that an action stands for. -/
def Does (size : ι → Nat) (s : State ι τ) : Action ι τ → Flow ι → Prop
  | .execute th p, .acceptShared q => q = p ∧ executeTarget size th p = none
  | .execute th p, .acceptLocal q i => q = p ∧ executeTarget size th p = some i
  | .work w _, .front u => u = w
  | .work w _, .pop u => u = w
  | .work w _, .steal u i => u = w ∧ ∃ k, s.pc w = .steal k ∧ stealTarget size w k = (w.1, i)
  | .work w _, .invoke u => u = w
  | .work w _, .finish u => u = w
  | _, _ => False

/-- A step of one worker changes the task in its own hands. -/
theorem task_update (pc : Worker ι → Pc) (w : Worker ι) (new : Pc) :
    (fun u => (Function.update pc w new u).task) =
      Function.update (fun u => (pc u).task) w new.task := by
  funext u
  rcases update_at pc w new u with ⟨rfl, hAt⟩ | ⟨hne, hAt⟩ <;> rw [hAt]
  · rw [Function.update_self]
  · rw [Function.update_of_ne hne]

omit [DecidableEq τ] in
/-- A worker that goes on without a task, or with the one that it had. -/
theorem tasks_setPc {pc : Pc} (hTask : pc.task = (s.pc w).task) :
    (s.setPc w pc).tasks = s.tasks := by
  have hHands : (fun u => (Function.update s.pc w pc u).task) = fun u => (s.pc u).task := by
    rw [task_update, hTask]
    exact Function.update_eq_self w fun u => (s.pc u).task
  simp only [State.tasks, State.setPc, hHands]

/-- A step of a worker hands on one task as the flow does, or none. -/
theorem work_flow {locked : Bool} (hst : work size s w locked = some s') :
    s'.tasks = s.tasks ∨
      ∃ b, Does size s (.work w locked : Action ι τ) b ∧ flowStep s.tasks b = some s'.tasks := by
  unfold work at hst
  split at hst
  · next hpc =>
    cases hst
    refine Or.inl (tasks_setPc ?_)
    rw [hpc]
    split <;> rfl
  · next hpc =>
    split at hst <;> cases hst
    · exact Or.inl (tasks_setPc (by rw [hpc]; rfl))
    · next task rest hQueue =>
      refine Or.inr ⟨.front w, rfl, ?_⟩
      simp [flowStep, State.tasks, hpc, hQueue, task_update]
  · next hpc =>
    split at hst
    · split at hst <;> cases hst
      · exact Or.inl (tasks_setPc (by rw [hpc]; rfl))
      · next task rest hQueue =>
        refine Or.inr ⟨.pop w, rfl, ?_⟩
        simp [flowStep, State.tasks, hpc, hQueue, task_update]
    · cases hst
  · next i hpc =>
    split at hst <;> cases hst
    · next task hLast =>
      have hLast' : (s.localQueues (stealTarget size w i)).getLast? = some task := by
        split at hLast
        · exact hLast
        · cases hLast
      refine Or.inr ⟨.steal w (stealTarget size w i).2, ⟨rfl, i, hpc, rfl⟩, ?_⟩
      have hTarget : (w.1, (stealTarget size w i).2) = stealTarget size w i := rfl
      simp [flowStep, State.tasks, hpc, hTarget, hLast', task_update]
    · refine Or.inl (tasks_setPc ?_)
      rw [hpc]
      split <;> rfl
  · next task hpc =>
    cases hst
    refine Or.inr ⟨.invoke w, rfl, ?_⟩
    simp [flowStep, State.tasks, hpc, task_update]
  · next task hpc =>
    split at hst <;> cases hst
    refine Or.inr ⟨.finish w, rfl, ?_⟩
    simp [flowStep, State.tasks, hpc, task_update]
  · next hpc =>
    split at hst <;> cases hst
    exact Or.inl (tasks_setPc (by rw [hpc]; rfl))
  · next woken hpc =>
    cases hst
    refine Or.inl (tasks_setPc ?_)
    rw [hpc]
    split <;> rfl
  · next woken hpc =>
    cases hst
    refine Or.inl (tasks_setPc ?_)
    rw [hpc]
    split <;> rfl
  · next woken hpc =>
    cases hst
    refine Or.inl (tasks_setPc ?_)
    rw [hpc]
    split <;> rfl
  · next hpc =>
    split at hst <;> cases hst
    · exact Or.inl (tasks_setPc (by rw [hpc]; rfl))
    · exact Or.inl (tasks_setPc (by rw [State.unlock, hpc]; rfl))
  · cases hst
  · next hpc =>
    split at hst <;> cases hst
    exact Or.inl (tasks_setPc (by rw [hpc]; rfl))
  · next hpc =>
    split at hst <;> cases hst
    · exact Or.inl (tasks_setPc (by rw [hpc]; rfl))
    · exact Or.inl (tasks_setPc (by rw [State.unlock, hpc]; rfl))
  · next i all_empty hpc =>
    split at hst
    · split at hst <;> cases hst
      · exact Or.inl (tasks_setPc (by rw [hpc]; rfl))
      · refine Or.inl (tasks_setPc ?_)
        rw [State.unlock, hpc]
        split <;> rfl
    · cases hst
      exact Or.inl (tasks_setPc (by rw [State.unlock, hpc]; rfl))
  · cases hst

/-- A worker that is woken. -/
theorem task_relock {pc : Pc} (h : pc = .asleep) : Pc.relock.task = pc.task := by
  rw [h]
  rfl

/-- Every step of the pools is one of the flow of tasks, or leaves the tasks
alone. -/
theorem step_flow (hst : step size s a = some s') :
    s'.tasks = s.tasks ∨ ∃ b, Does size s a b ∧ flowStep s.tasks b = some s'.tasks := by
  cases a with
  | execute th p =>
    simp only [step] at hst
    split at hst
    · unfold execute at hst
      split at hst
      · next idx hTarget =>
        split at hst <;> cases hst
        · exact Or.inl rfl
        · exact Or.inr ⟨.acceptLocal p idx, ⟨rfl, hTarget⟩, rfl⟩
      · next hTarget =>
        split at hst
        · split at hst <;> cases hst
          · exact Or.inl rfl
          · exact Or.inr ⟨.acceptShared p, ⟨rfl, hTarget⟩, rfl⟩
        · cases hst
    · cases hst
  | notify th p woken =>
    simp only [step, notify] at hst
    split at hst
    · split at hst
      · next i =>
        split at hst <;> cases hst
        next hAsleep =>
        exact Or.inl (tasks_setPc (s := s) (w := (p, i)) (task_relock hAsleep.2))
      · split at hst <;> cases hst
        exact Or.inl rfl
    · cases hst
  | work w locked =>
    simp only [step] at hst
    split at hst
    · exact work_flow hst
    · cases hst
  | wake w =>
    simp only [step] at hst
    split at hst <;> cases hst
    next hAsleep => exact Or.inl (tasks_setPc (task_relock hAsleep.2))
  | destroy p =>
    simp only [step, destroy] at hst
    split at hst
    · split at hst <;> cases hst
      exact Or.inl rfl
    · cases hst
      refine Or.inl ?_
      have hHands : (fun w => (if w.1 = p ∧ s.pc w = .asleep then Pc.relock else s.pc w).task) =
          fun w => (s.pc w).task := by
        funext w
        split
        · next hAsleep => exact task_relock hAsleep.2
        · rfl
      simp only [State.tasks, hHands]
    · next i _ =>
      cases hst
      refine Or.inl ?_
      by_cases hAsleep : s.pc (p, i) = .asleep
      · have hSet := tasks_setPc (s := s) (w := (p, i)) (task_relock hAsleep)
        simpa [State.tasks, State.setPc, hAsleep] using hSet
      · simp [State.tasks, hAsleep]
    · split at hst <;> cases hst
      exact Or.inl rfl
    · cases hst

/-- The runs of the pools, seen through their tasks, are runs of the flow. -/
theorem simulates_flow {ok : State ι τ → Action ι τ → Prop} {threadCount : ι → Nat}
    (h : (system τ threadCount).ReachableWhere ok s) : (flow ι).Reachable s.tasks := by
  have hSimulated := h.simulate (T := flow ι) (R := fun s t => s.tasks = t) rfl (by
    intro s a s' t _ hR _ hst
    rcases step_flow hst with hSame | ⟨b, -, hFlow⟩
    · exact ⟨[], t, rfl, hSame.trans hR⟩
    · rw [hR] at hFlow
      exact ⟨[b], s'.tasks, System.exec_cons_of_step hFlow [], rfl⟩)
  obtain ⟨t, ht, hR⟩ := hSimulated
  rw [hR]
  exact ht

-- ---------------------------------------------------------------------------
-- Workers that look for work elsewhere
-- ---------------------------------------------------------------------------

/-- Workers submit to their own pool only. -/
def OwnPool (_ : State ι τ) : Action ι τ → Prop
  | .execute (.worker w) p => p = w.1
  | _ => True

instance (s : State ι τ) : DecidablePred (OwnPool s)
  | .execute (.external _) _ => inferInstanceAs (Decidable True)
  | .execute (.worker w) p => inferInstanceAs (Decidable (p = w.1))
  | .notify _ _ _ => inferInstanceAs (Decidable True)
  | .work _ _ => inferInstanceAs (Decidable True)
  | .wake _ => inferInstanceAs (Decidable True)
  | .destroy _ => inferInstanceAs (Decidable True)

/-- The worker has found its own deque empty, and has not gone on since. -/
def Pc.looksElsewhere : Pc → Bool
  | .top | .tryLocal | .taken _ | .running _ | .exited => false
  | _ => true

/-- A worker that looks elsewhere has an empty deque. -/
def OwnEmpty (s : State ι τ) : Prop :=
  ∀ w, (s.pc w).looksElsewhere = true → s.localQueues w = []

omit [DecidableEq ι] [DecidableEq τ] in
/-- All deques are empty. -/
theorem ownEmpty_init : OwnEmpty (init ι τ) := by
  intro w hw
  cases hw

omit [DecidableEq τ] in
/-- A worker moves on, and no deque grows. -/
theorem OwnEmpty.move (h : OwnEmpty s) {pc : Pc} (hpc : s'.pc = Function.update s.pc w pc)
    (hShrink : ∀ u, s.localQueues u = [] → s'.localQueues u = [])
    (hHere : pc.looksElsewhere = true →
      (s.pc w).looksElsewhere = true ∨ s.localQueues w = []) : OwnEmpty s' := by
  intro u hu
  refine hShrink u ?_
  rcases update_cases hpc u with ⟨rfl, hAt⟩ | ⟨-, hAt⟩ <;> rw [hAt] at hu
  · rcases hHere hu with hOld | hEmpty
    · exact h u hOld
    · exact hEmpty
  · exact h u hu

omit [DecidableEq ι] [DecidableEq τ] in
/-- A worker goes on to the other deques from its own, which it has found empty. -/
theorem Moves.looksElsewhere {old pc : Pc} (h : Moves size s w old pc)
    (hHere : pc.looksElsewhere = true) : old.looksElsewhere = true ∨ s.localQueues w = [] := by
  cases h with
  | localEmpty hQueue => exact Or.inr hQueue
  | _ => first | exact Or.inl rfl | cases hHere

/-- Workers take from the other deques, which makes none less empty. -/
theorem ownEmpty_work (h : OwnEmpty s) {locked : Bool} (hst : work size s w locked = some s') :
    OwnEmpty s' := by
  obtain ⟨pc, hpc, hMoves⟩ := work_moves hst
  exact h.move hpc (work_frame hst).localQueues hMoves.looksElsewhere

omit [DecidableEq ι] [DecidableEq τ] in
/-- Waking moves no task. -/
theorem OwnEmpty.wake (h : OwnEmpty s) (hFrame : WakeFrame s s') : OwnEmpty s' := by
  intro u hu
  rw [hFrame.localQueues]
  refine h u ?_
  rcases hFrame.pc u with hSame | ⟨hAsleep, -⟩
  · rwa [hSame] at hu
  · rw [hAsleep]
    rfl

omit [DecidableEq τ] in
/-- A worker that submits to its own pool is running a task, so it is not looking elsewhere. -/
theorem ownEmpty_execute (h : OwnEmpty s) {th : Thread ι τ} (hCan : s.CanExecute size th)
    (hOwn : OwnPool s (.execute th p)) (hst : execute size s th p = some s') : OwnEmpty s' := by
  unfold execute at hst
  split at hst
  · next idx hTarget =>
    split at hst <;> cases hst
    · exact h
    · -- the deque of the worker that runs the caller
      intro u hu
      obtain ⟨hIndex, -⟩ := Option.filter_eq_some_iff.mp hTarget
      cases th with
      | external t => cases hIndex
      | worker v =>
        cases hIndex
        obtain rfl : p = v.1 := hOwn
        have hne : u ≠ v := by
          rintro rfl
          have hRunning := hCan.2
          replace hu : (s.pc u).looksElsewhere = true := hu
          cases hpc : s.pc u <;> simp [hpc, Pc.isRunning, Pc.looksElsewhere] at hRunning hu
        show Function.update s.localQueues v _ u = []
        rw [Function.update_of_ne hne]
        exact h u hu
  · split at hst
    · split at hst <;> cases hst <;> exact h
    · cases hst

/-- A case for each action; the condition is that of `execute`. -/
theorem ownEmpty_step (h : OwnEmpty s) (hOwn : OwnPool s a) (hst : step size s a = some s') :
    OwnEmpty s' := by
  cases a with
  | execute th p =>
    simp only [step] at hst
    split at hst
    · next hCan => exact ownEmpty_execute h hCan.2 hOwn hst
    · cases hst
  | notify th p woken => exact h.wake (notify_frame hst)
  | work w locked =>
    simp only [step] at hst
    split at hst
    · exact ownEmpty_work h hst
    · cases hst
  | wake w =>
    simp only [step] at hst
    split at hst <;> cases hst
    next hAsleep => exact h.wake (wake_frame hAsleep.2)
  | destroy p => exact h.wake (destroy_frame hst)

-- ---------------------------------------------------------------------------
-- The contract
-- ---------------------------------------------------------------------------

/-- How a step may change the deque of worker `w`: an accepted task enters at the
back, the owner takes the front, or another worker of the pool takes the back. -/
def DequeStep (s s' : State ι τ) (a : Action ι τ) (w : Worker ι) : Prop :=
  s'.localQueues w = s.localQueues w ∨
  (∃ th, a = .execute th w.1 ∧ s'.localQueues w = s.localQueues w ++ [s.calls]) ∨
  (∃ locked task, a = .work w locked ∧ s.localQueues w = task :: s'.localQueues w ∧
    s'.pc w = .taken task) ∨
  (∃ i locked task, i ≠ w.2 ∧ a = .work (w.1, i) locked ∧
    s.localQueues w = s'.localQueues w ++ [task] ∧ s'.pc (w.1, i) = .taken task)

/-- What the pools promise about their tasks in every state. -/
structure TaskContract (size : ι → Nat) (s : State ι τ) : Prop where
  /-- Every accepted task is in exactly one place, and that is one of its pool. -/
  place : ∀ p, ∀ x ∈ s.accepted p, ∃ k, k.pool = p ∧ x ∈ s.tasks.at k ∧
    ∀ k', x ∈ s.tasks.at k' → k' = k
  /-- It is there only once, and nothing else is anywhere. -/
  nodup : ∀ k, (s.tasks.at k).Nodup
  accepted : ∀ k, ∀ x ∈ s.tasks.at k, x ∈ s.accepted k.pool
  workers : ∀ w, s.localQueues w ≠ [] ∨ (s.pc w).task ≠ none → w.2 < size w.1
  /-- It is invoked at most once. -/
  once : s.invoked.Nodup
  invoked : ∀ x, x ∈ s.invoked ↔ (∃ w, s.pc w = .running x) ∨ ∃ p, x ∈ s.finished p
  /-- Tasks leave `m_task_queue` in the order of their submission. -/
  fifo : ∀ p, s.submitted p = s.popped p ++ s.taskQueue p
  deque : ∀ a s', step size s a = some s' → ∀ w, DequeStep s s' a w

/-- A task in the hands of a worker is about to be invoked, -/
theorem eq_taken_of_task {pc : Pc} {task : Nat} (h : pc.task = some (task, false)) :
    pc = .taken task := by
  cases pc <;> cases h
  rfl

/-- or is running. -/
theorem eq_running_of_task {pc : Pc} {task : Nat} (h : pc.task = some (task, true)) :
    pc = .running task := by
  cases pc <;> cases h
  rfl

/-- The front of a deque is taken by its worker and the back by another one. -/
theorem OwnEmpty.dequeStep (h : OwnEmpty s) (hst : step size s a = some s') (w : Worker ι) :
    DequeStep s s' a w := by
  rcases step_flow hst with hSame | ⟨b, hDoes, hFlow⟩
  · exact Or.inl (congrFun (congrArg Tasks.localQueues hSame) w)
  have hQueue : ∀ t : Tasks ι, some t = some s'.tasks → t.localQueues w = s'.localQueues w :=
    fun t ht => congrFun (congrArg Tasks.localQueues (Option.some.inj ht)) w
  have hTaken : ∀ (t : Tasks ι) (u : Worker ι) (task : Nat), some t = some s'.tasks →
      t.hands u = some (task, false) → s'.pc u = .taken task := by
    intro t u task ht hu
    have hHands := congrFun (congrArg Tasks.hands (Option.some.inj ht)) u
    exact eq_taken_of_task (hHands.symm.trans hu)
  cases b with
  | acceptShared q => exact Or.inl (hQueue _ hFlow).symm
  | acceptLocal q i =>
    have hAt := hQueue _ hFlow
    cases a with
    | execute th p =>
      obtain ⟨rfl, -⟩ := hDoes
      by_cases hw : w = (q, i)
      · subst hw
        refine Or.inr (Or.inl ⟨th, rfl, ?_⟩)
        rw [← hAt]
        exact Function.update_self ..
      · refine Or.inl ?_
        rw [← hAt]
        exact Function.update_of_ne hw ..
    | _ => exact hDoes.elim
  | front u =>
    cases a with
    | work v locked =>
      obtain rfl : u = v := hDoes
      simp only [flowStep] at hFlow
      split at hFlow
      · next task rest hNone hFront =>
        have hAt := hQueue _ hFlow
        by_cases hw : w = u
        · rw [hw] at hAt ⊢
          have hNew : s'.localQueues u = rest := by
            rw [← hAt]
            exact Function.update_self ..
          refine Or.inr (Or.inr (Or.inl ⟨locked, task, rfl, ?_,
            hTaken _ u task hFlow (Function.update_self ..)⟩))
          rw [hNew]
          exact hFront
        · refine Or.inl ?_
          rw [← hAt]
          exact Function.update_of_ne hw ..
      · cases hFlow
    | _ => exact hDoes.elim
  | pop u =>
    simp only [flowStep] at hFlow
    split at hFlow
    · exact Or.inl (hQueue _ hFlow).symm
    · cases hFlow
  | steal u i =>
    cases a with
    | work v locked =>
      obtain ⟨rfl, k, hpc, hTarget⟩ := hDoes
      simp only [flowStep] at hFlow
      split at hFlow
      · next task hNone hLast =>
        have hAt := hQueue _ hFlow
        obtain ⟨front, hFront⟩ := List.getLast?_eq_some_iff.mp hLast
        by_cases hw : w = (u.1, i)
        · subst hw
          -- a thief that looks elsewhere has nothing to steal from itself
          have hne : u.2 ≠ i := by
            rintro rfl
            have hEmpty := h u (by rw [hpc]; rfl)
            rw [show s.tasks.localQueues (u.1, u.2) = s.localQueues u from rfl, hEmpty] at hFront
            simp at hFront
          have hNew : s'.localQueues (u.1, i) = front := by
            rw [← hAt]
            refine (Function.update_self ..).trans ?_
            rw [hFront, List.dropLast_concat]
          refine Or.inr (Or.inr (Or.inr ⟨u.2, locked, task, hne, rfl, ?_,
            hTaken _ u task hFlow (Function.update_self ..)⟩))
          rw [hNew]
          exact hFront
        · refine Or.inl ?_
          rw [← hAt]
          exact Function.update_of_ne hw ..
      · cases hFlow
    | _ => exact hDoes.elim
  | invoke u =>
    simp only [flowStep] at hFlow
    split at hFlow
    · exact Or.inl (hQueue _ hFlow).symm
    · cases hFlow
  | finish u =>
    simp only [flowStep] at hFlow
    split at hFlow
    · exact Or.inl (hQueue _ hFlow).symm
    · cases hFlow

/-- **Tasks are conserved** by the pools, whose `execute` is called by other threads and by
their own workers. A `try_lock` of a steal may fail at any time. What `OwnPool` excludes is an
`execute` on a worker of another pool, which uses the index of that pool in this one. -/
theorem task_contract {threadCount : ι → Nat}
    (h : (system τ threadCount).ReachableWhere OwnPool s) :
    TaskContract (fun p => poolSize (threadCount p)) s := by
  obtain ⟨place, hFlows⟩ := flows_of_reachable (simulates_flow h)
  have hOwn : OwnEmpty s :=
    h.invariant (I := OwnEmpty) ownEmpty_init fun _ _ _ _ hI hok hst => ownEmpty_step hI hok hst
  refine ⟨?_, fun k => (hFlows.placement k).1, ?_, ?_, hFlows.once, ?_, hFlows.fifo,
    fun _ _ hst => hOwn.dequeStep hst⟩
  · intro p x hx
    obtain ⟨k, hk, hPool⟩ := (hFlows.accepted p x).mp hx
    have hMem := ((hFlows.placement k).2 x).mpr hk
    exact ⟨k, hPool, hMem, fun k' hk' => hFlows.placement.unique hk' hMem⟩
  · intro k x hx
    exact (hFlows.accepted k.pool x).mpr ⟨k, hFlows.placement.place_of_mem hx, rfl⟩
  · intro w hw
    by_contra hOut
    obtain ⟨hEmpty, hTop⟩ := (sync h).inRange w hOut
    rcases hw with hQueue | hHands
    · exact hQueue hEmpty
    · rw [hTop] at hHands
      exact hHands rfl
  · intro x
    refine (hFlows.invoked x).trans (or_congr_left ?_)
    constructor
    · rintro ⟨w, hw⟩
      exact ⟨w, eq_running_of_task hw⟩
    · rintro ⟨w, hw⟩
      exact ⟨w, congrArg Pc.task hw⟩

/-- A worker runs a task that submits two more, and the other worker steals the
last one. -/
theorem task_contract_stolen :
    ∃ s : State Unit Unit, (system Unit fun _ : Unit => 2).ReachableWhere OwnPool s ∧
      s.localQueues ((), 0) = [1] ∧ s.pc ((), 0) = .running 0 ∧ s.pc ((), 1) = .taken 2 ∧
      TaskContract (fun _ => 2) s := by
  obtain ⟨s, hs, hp⟩ := System.exists_reachableWhere_of_exec
    (S := system Unit fun _ : Unit => 2)
    (c := fun s a => decide (OwnPool s a)) (fun _ _ => of_decide_eq_true)
    (p := fun s => s.localQueues ((), 0) = [1] ∧ s.pc ((), 0) = .running 0 ∧
      s.pc ((), 1) = .taken 2)
    [.execute (.external ()) (), .notify (.external ()) () none,
      .work ((), 0) true, .work ((), 0) true, .work ((), 0) true, .work ((), 0) true,
      .execute (.worker ((), 0)) (), .notify (.worker ((), 0)) () none,
      .execute (.worker ((), 0)) (), .notify (.worker ((), 0)) () none,
      .work ((), 1) true, .work ((), 1) true, .work ((), 1) true, .work ((), 1) true]
    (by decide +kernel)
  exact ⟨s, hs, hp.1, hp.2.1, hp.2.2, task_contract hs⟩

end EmbLinux.ThreadPool
