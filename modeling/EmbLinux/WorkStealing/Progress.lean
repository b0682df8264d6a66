import EmbLinux.Lib.Measure
import EmbLinux.WorkStealing.Contract
import Mathlib.Algebra.GroupWithZero.Nat

/-!
# EmbLinux — no task of the work-stealing pools is stranded

A worker never blocks: when its calls have returned and `done` is not set, its next rounds
take all tasks of its pool, one a round. `task_reached` is about one worker that runs alone,
so nothing depends on who else is awake. A task that a worker is in may return at any time in
the model; what is excluded is a task that never does.

* `round_turn` — one step of a round of `worker_thread`: it ends the round with the task, or with
  less of the round before it.
* `exists_invoked` — the rounds of a worker lead to the task, by induction on the tasks in the
  queues of the pool and what is left of the round.
-/

namespace EmbLinux.WorkStealing

variable {ι τ ω : Type*} [DecidableEq ι] [DecidableEq τ] {o : Outside ι ω} {tasks : ω → List Nat}
  {s s' : State ι τ ω}
  {w : Worker ι} {n : Nat}

/-- The task is in a queue that the workers of pool `p` look at. -/
def Waiting (tasks : ω → List Nat) (s : State ι τ ω) (p : ι) (n : Nat) : Prop :=
  n ∈ tasks (s.poolWorkQueue p) ∨ ∃ i < s.built p, n ∈ s.queues (p, i)

/-- The task was invoked, or waits. -/
def Kept (tasks : ω → List Nat) (s : State ι τ ω) (p : ι) (n : Nat) : Prop :=
  n ∈ s.invoked ∨ Waiting tasks s p n

-- ---------------------------------------------------------------------------
-- The steps of one worker
-- ---------------------------------------------------------------------------

/-- A worker never blocks in its calls. -/
theorem exists_run (o : Outside ι ω) {f : Frame ι} {rest : List (Frame ι)}
    (hStack : s.stack (.worker w) = f :: rest) :
    ∃ s', run o s (.worker w) = some s' := by
  unfold run
  rw [hStack]
  cases f with
  | popLocal p =>
    simp only [Thread.localWorkQueue]
    cases s.queues w <;> exact ⟨_, rfl⟩
  | popPool p => cases hPool : o.tryPop (s.poolWorkQueue p) <;> simp [hPool]
  | steal p i =>
    by_cases hLess : i < s.built p
    · cases hLast : (s.queues (s.victim (.worker w) p i)).getLast? <;> simp [hLess, hLast]
    · simp [hLess]
  | task m => exact ⟨_, rfl⟩

/-- What is left to do of a call. -/
def Frame.left (built : ι → Nat) : Frame ι → Nat
  | .popLocal p => built p + 3
  | .popPool p => built p + 2
  | .steal p i => built p - i + 1
  | .task _ => 1

/-- What is left to do of the calls of a thread. -/
def State.left (s : State ι τ ω) (th : Thread ι τ) : Nat :=
  ((s.stack th).map (Frame.left s.built)).sum

/-- A thread comes to the end of its calls. -/
theorem turn_left {th : Thread ι τ} (hTurn : Turn o s th s') (hSome : s.stack th ≠ []) :
    s'.left th < s.left th := by
  have hBuilt := hTurn.frame.built
  unfold State.left
  rw [hBuilt]
  cases hTurn with
  | enter hWorker hStack | exit hWorker hStack | again hWorker hStack => exact absurd hStack hSome
  | noLocal hStack | noPool hStack | giveUp hStack | finish hStack =>
    simp [State.setStack, hStack, Frame.left]
  | noSteal hStack hLess =>
    simp only [State.setStack, Function.update_self, hStack, List.map_cons, List.sum_cons,
      Frame.left]
    omega
  | takeLocal hStack | takePool hStack =>
    simp [State.invoke, State.setStack, hStack, Frame.left]
  | steal hStack hLess =>
    simp only [State.invoke, State.setStack, Function.update_self, hStack, List.map_cons,
      List.sum_cons, Frame.left]
    omega

/-- A task that waits is still waiting or invoked after a step. -/
theorem kept_turn (hDoc : o.Documented tasks) {th : Thread ι τ} {p : ι} (hTurn : Turn o s th s')
    (h : Kept tasks s p n) :
    Kept tasks s' p n := by
  unfold Kept Waiting at *
  rw [hTurn.frame.built]
  -- a queue of a worker loses the task that is invoked
  have hQueue : ∀ u others m, (s.queues u).Perm (m :: others) → s'.invoked = s.invoked ++ [m] →
      s'.poolWorkQueue = s.poolWorkQueue → s'.queues = Function.update s.queues u others →
      n ∈ s'.invoked ∨ n ∈ tasks (s'.poolWorkQueue p) ∨ ∃ i < s.built p, n ∈ s'.queues (p, i) := by
    intro u others m hPerm hInvoked hPool hQueues
    rw [hInvoked, hPool, hQueues]
    rcases h with hDone | hPool | ⟨i, hi, hMem⟩
    · exact Or.inl (List.mem_append_left _ hDone)
    · exact Or.inr (Or.inl hPool)
    · rcases update_at s.queues u others (p, i) with ⟨rfl, hAt⟩ | ⟨-, hAt⟩
      · rcases List.mem_cons.mp (hPerm.mem_iff.mp hMem) with rfl | hRest
        · exact Or.inl (List.mem_append_right _ (List.mem_singleton_self _))
        · exact Or.inr (Or.inr ⟨i, hi, by rw [hAt]; exact hRest⟩)
      · exact Or.inr (Or.inr ⟨i, hi, by rw [hAt]; exact hMem⟩)
  cases hTurn with
  | takeLocal hStack hLocal hFront => exact hQueue _ _ _ (by rw [hFront]) rfl rfl rfl
  | steal hStack hLess hVictim hBack =>
    exact hQueue _ _ _ (by rw [hBack]; exact List.perm_append_singleton _ _) rfl rfl rfl
  | @takePool q rest task others hStack hTaken =>
    show n ∈ s.invoked ++ [task] ∨ n ∈ tasks (Function.update s.poolWorkQueue q others p) ∨ _
    rcases h with hDone | hPool | hOther
    · exact Or.inl (List.mem_append_left _ hDone)
    · rcases update_at s.poolWorkQueue q others p with ⟨rfl, hAt⟩ | ⟨-, hAt⟩ <;> rw [hAt]
      · rcases List.mem_cons.mp ((hDoc.tryPop_some _ _ _ hTaken).mem_iff.mp hPool) with rfl | hRest
        · exact Or.inl (List.mem_append_right _ (List.mem_singleton_self _))
        · exact Or.inr (Or.inl hRest)
      · exact Or.inr (Or.inl hPool)
    · exact Or.inr (Or.inr hOther)
  | _ => exact h

-- ---------------------------------------------------------------------------
-- The end of the calls
-- ---------------------------------------------------------------------------

/-- The worker is in its loop, or about to be, and `done` is not set. -/
structure Running (s : State ι τ ω) (w : Worker ι) : Prop where
  loop : (s.loop w).isRunning = true
  inLoop : s.stack (.worker w) ≠ [] → s.loop w = .loop
  notDone : s.done w.1 = false
  built : w.2 < s.built w.1

/-- A worker that runs goes on running, as the pool is alive. -/
theorem running_turn (h : Running s w) (hTurn : Turn o s (.worker w) s') :
    Running s' w ∧ (s.loop w = .loop → s'.loop w = .loop) := by
  have hFrame := hTurn.frame
  have hNotDone := h.notDone
  have hBuilt := h.built
  rw [← hFrame.done] at hNotDone
  rw [← hFrame.built] at hBuilt
  have hSame : s'.loop w = .loop → Running s' w ∧ (s.loop w = .loop → s'.loop w = .loop) :=
    fun hLoop =>
      ⟨⟨by simp [hLoop, Loop.isRunning], fun _ => hLoop, hNotDone, hBuilt⟩, fun _ => hLoop⟩
  cases hTurn with
  | enter hWorker hStack hLoop =>
    obtain rfl := Thread.worker.inj hWorker
    exact hSame (Function.update_self ..)
  | exit hWorker hStack hLoop hDone =>
    obtain rfl := Thread.worker.inj hWorker
    simp [h.notDone] at hDone
  | again hWorker hStack hLoop =>
    obtain rfl := Thread.worker.inj hWorker
    exact hSame hLoop
  | noLocal hStack | noPool hStack | noSteal hStack | giveUp hStack | takeLocal hStack
  | takePool hStack | steal hStack | finish hStack =>
    exact hSame (h.inLoop (by simp [hStack]))

/-- The worker is at the test of `done`. -/
structure Idle (s : State ι τ ω) (w : Worker ι) : Prop where
  stack : s.stack (.worker w) = []
  loop : s.loop w = .loop

/-- The calls of a worker return. -/
theorem exists_idle (hDoc : o.Documented tasks) (h : Running s w) (hKept : Kept tasks s w.1 n) :
    ∃ schedule s', (∀ a ∈ schedule, a = .run (.worker w)) ∧
      (system o).exec s schedule = some s' ∧ (Running s' w ∧ Kept tasks s' w.1 n) ∧ Idle s' w := by
  have hStep : ∀ s : State ι τ ω, Running s w ∧ Kept tasks s w.1 n →
      ¬ ((Running s w ∧ Kept tasks s w.1 n) ∧ Idle s w) → ∃ a s', a = .run (.worker w) ∧
        (system o).step s a = some s' ∧ (Running s' w ∧ Kept tasks s' w.1 n) ∧
        s'.left (.worker w) + (if s'.loop w = .loop then 0 else 1) <
          s.left (.worker w) + (if s.loop w = .loop then 0 else 1) := by
    intro s hI hNot
    obtain ⟨hRunning, hKept⟩ := hI
    cases hStack : s.stack (.worker w) with
    | cons f rest =>
      obtain ⟨s', hst⟩ := exists_run o hStack
      have hTurn := run_turn hst
      obtain ⟨hRunning', hLoop⟩ := running_turn hRunning hTurn
      have hOld := hRunning.inLoop (by simp [hStack])
      have hLeft := turn_left hTurn (by simp [hStack])
      refine ⟨_, s', rfl, hst, ⟨hRunning', kept_turn hDoc hTurn hKept⟩, ?_⟩
      rw [if_pos hOld, if_pos (hLoop hOld)]
      omega
    | nil =>
      -- the worker has not read `queues[my_index]` yet
      have hEnter : s.loop w = .enter := by
        have hIn := hRunning.loop
        cases hLoop : s.loop w with
        | enter => rfl
        | loop => exact absurd ⟨⟨hRunning, hKept⟩, hStack, hLoop⟩ hNot
        | notStarted | exited => simp [hLoop, Loop.isRunning] at hIn
      have hst : run o s (.worker w) = some (s.setLoop w .loop) := by simp [run, hStack, hEnter]
      have hTurn := run_turn hst
      refine ⟨_, _, rfl, hst, ⟨(running_turn hRunning hTurn).1, kept_turn hDoc hTurn hKept⟩, ?_⟩
      simp [State.left, State.setLoop, hStack, hEnter]
  obtain ⟨schedule, s', hAll, hRun, hEnd⟩ := System.exists_exec_of_descent hStep ⟨h, hKept⟩
  exact ⟨schedule, s', hAll, hRun, hEnd⟩

-- ---------------------------------------------------------------------------
-- The rounds of a worker
-- ---------------------------------------------------------------------------

/-- The tasks in the queues of a pool. -/
def State.total (tasks : ω → List Nat) (s : State ι τ ω) (p : ι) : Nat :=
  (tasks (s.poolWorkQueue p)).length + ∑ i ∈ Finset.range (s.built p), (s.queues (p, i)).length

/-- A call of a round, which has not passed all tasks yet. -/
inductive OnWay (s : State ι τ ω) (w : Worker ι) : List (Frame ι) → Prop
  | idle : OnWay s w []
  | popLocal : OnWay s w [.popLocal w.1]
  | popPool : OnWay s w [.popPool w.1]
  | steal {i j : Nat} (hLe : i ≤ j) (hLess : j < s.built w.1)
      (hSome : s.queues (s.victim (.worker w) w.1 j) ≠ []) : OnWay s w [.steal w.1 i]
  | task (m : Nat) : OnWay s w [.task m]

/-- What is left to do in a round. -/
def roundLeft (built : Nat) : List (Frame ι) → Nat
  | [] => built + 4
  | .popLocal _ :: _ => built + 3
  | .popPool _ :: _ => built + 2
  | .steal _ i :: _ => built - i + 1
  | .task _ :: _ => built + 5

omit [DecidableEq ι] [DecidableEq τ] in
/-- A worker looks at the queue of every worker. -/
theorem exists_victim (k : Nat) (th : Thread ι τ) (p : ι) (hk : k < s.built p) :
    ∃ j < s.built p, s.victim th p j = (p, k) := by
  have hPos : 0 < s.built p := by omega
  refine ⟨(k + (s.built p - (th.myIndex + 1) % s.built p)) % s.built p, Nat.mod_lt _ hPos, ?_⟩
  have hLe : (th.myIndex + 1) % s.built p ≤ s.built p := Nat.le_of_lt (Nat.mod_lt _ hPos)
  unfold State.victim
  congr 1
  generalize hMod : (th.myIndex + 1) % s.built p = r at hLe
  calc (th.myIndex + (k + (s.built p - r)) % s.built p + 1) % s.built p
      = ((th.myIndex + 1) % s.built p + (k + (s.built p - r))) % s.built p := by
        rw [Nat.add_right_comm, Nat.add_mod_mod, Nat.mod_add_mod]
    _ = (k + s.built p) % s.built p := by
        rw [hMod]
        congr 1
        omega
    _ = k := by rw [Nat.add_mod_right, Nat.mod_eq_of_lt hk]

omit [DecidableEq τ] in
/-- A queue of the pool loses a task. -/
theorem total_queue (tasks : ω → List Nat) {r : State ι τ ω} {p : ι} {j : Nat} {others : List Nat}
    (hj : j < s.built p)
    (hLength : (s.queues (p, j)).length = others.length + 1) (hBuilt : r.built = s.built)
    (hPool : r.poolWorkQueue = s.poolWorkQueue)
    (hQueues : r.queues = Function.update s.queues (p, j) others) :
    r.total tasks p + 1 = s.total tasks p := by
  have hUpdate : (fun i => r.queues (p, i)) =
      Function.update (fun i => s.queues (p, i)) j others := by
    funext i
    rw [hQueues]
    by_cases hi : i = j
    · rw [hi, Function.update_self, Function.update_self]
    · rw [Function.update_of_ne hi, Function.update_of_ne (by simp [hi])]
  have hSum := sum_update (m := fun _ l => List.length l) hUpdate hj
  unfold State.total
  rw [hPool, hBuilt]
  omega

omit [DecidableEq τ] in
/-- The shared queue loses a task. -/
theorem total_pool {r : State ι τ ω} {p : ι} {task : Nat} {others : ω}
    (hTaken : (tasks (s.poolWorkQueue p)).Perm (task :: tasks others)) (hBuilt : r.built = s.built)
    (hQueues : r.queues = s.queues)
    (hPool : r.poolWorkQueue = Function.update s.poolWorkQueue p others) :
    r.total tasks p + 1 = s.total tasks p := by
  unfold State.total
  rw [hBuilt, hQueues, hPool, Function.update_self, hTaken.length_eq, List.length_cons]
  omega

/-- What is left to do until all tasks of the pool are taken. -/
def State.work (tasks : ω → List Nat) (s : State ι τ ω) (w : Worker ι) : Nat :=
  s.total tasks w.1 * (s.built w.1 + 10) + roundLeft (s.built w.1) (s.stack (.worker w))

/-- The measure goes down with a task less in the queues, whatever is left of the round. -/
theorem work_lt {total total' built left : Nat} (hTotal : total' + 1 = total) :
    total' * (built + 10) + (built + 5) < total * (built + 10) + left := by
  subst hTotal
  rw [Nat.add_mul]
  omega

/-- One step of a round. -/
theorem round_turn (hDoc : o.Documented tasks) (hRunning : Running s w) (hLoop : s.loop w = .loop)
    (hWay : OnWay s w (s.stack (.worker w))) (hWaiting : Waiting tasks s w.1 n)
    (hTurn : Turn o s (.worker w) s') :
    OnWay s' w (s'.stack (.worker w)) ∧ s'.work tasks w < s.work tasks w := by
  have hBuilt := hTurn.frame.built
  cases hTurn with
  | enter hWorker hStack hEnter =>
    obtain rfl := Thread.worker.inj hWorker
    simp [hLoop] at hEnter
  | exit hWorker hStack hIn hDone =>
    obtain rfl := Thread.worker.inj hWorker
    simp [hRunning.notDone] at hDone
  | again hWorker hStack =>
    obtain rfl := Thread.worker.inj hWorker
    refine ⟨by simpa [State.setStack] using OnWay.popLocal, ?_⟩
    simp [State.work, State.total, State.setStack, hStack, roundLeft]
  | @noLocal p rest hStack hEmpty =>
    rw [hStack] at hWay
    cases hWay
    refine ⟨by simpa [State.setStack] using OnWay.popPool, ?_⟩
    simp [State.work, State.total, State.setStack, hStack, roundLeft]
  | @noPool p rest hStack hEmpty =>
    rw [hStack] at hWay
    cases hWay
    -- the task that waits is in the queue of a worker
    obtain ⟨k, hk, hMem⟩ : ∃ k < s.built w.1, n ∈ s.queues (w.1, k) := by
      rcases hWaiting with hPool | hQueue
      · simp [hDoc.tryPop_none _ hEmpty] at hPool
      · exact hQueue
    obtain ⟨j, hj, hVictim⟩ := exists_victim k (.worker w) w.1 hk
    refine ⟨?_, ?_⟩
    · have hSome : s.queues (s.victim (.worker w) w.1 j) ≠ [] := by
        rw [hVictim]
        exact List.ne_nil_of_mem hMem
      have hOn : OnWay (s.setStack (.worker w) [.steal w.1 0]) w [.steal w.1 0] :=
        .steal (Nat.zero_le j) hj hSome
      simpa [State.setStack] using hOn
    · simp [State.work, State.total, State.setStack, hStack, roundLeft]
  | @noSteal p i rest hStack hLess hEmpty =>
    rw [hStack] at hWay
    cases hWay with
    | @steal _ j hLe hj hSome =>
      have hne : i ≠ j := by
        rintro rfl
        exact hSome hEmpty
      have hOn : OnWay (s.setStack (.worker w) [.steal w.1 (i + 1)]) w [.steal w.1 (i + 1)] :=
        .steal (show i + 1 ≤ j by omega) hj hSome
      refine ⟨?_, ?_⟩
      · simpa [State.setStack] using hOn
      · simp only [State.work, State.total, State.setStack, hStack, Function.update_self, roundLeft]
        omega
  | @giveUp p i rest hStack hAll =>
    rw [hStack] at hWay
    cases hWay with
    | @steal _ j hLe hj hSome => omega
  | @takeLocal u p rest front others hStack hLocal hFront =>
    obtain rfl := Option.some.inj hLocal
    rw [hStack] at hWay
    cases hWay
    refine ⟨by simpa [State.invoke, State.setStack] using OnWay.task front, ?_⟩
    have hTotal := total_queue tasks (r := { s.invoke (.worker w) [] front with
      queues := Function.update s.queues w others }) hRunning.built (by simp [hFront]) rfl rfl rfl
    simp only [State.work, State.invoke, State.setStack, Function.update_self,
      roundLeft] at hTotal ⊢
    exact work_lt hTotal
  | @takePool p rest task others hStack hQueue =>
    rw [hStack] at hWay
    cases hWay
    refine ⟨by simpa [State.invoke, State.setStack] using OnWay.task task, ?_⟩
    have hTotal := total_pool (r := { s.invoke (.worker w) [] task with
      poolWorkQueue := Function.update s.poolWorkQueue w.1 others })
      (hDoc.tryPop_some _ _ _ hQueue) rfl rfl rfl
    simp only [State.work, State.invoke, State.setStack, Function.update_self,
      roundLeft] at hTotal ⊢
    exact work_lt hTotal
  | @steal p i u rest back others hStack hLess hVictim hBack =>
    rw [hStack] at hWay
    cases hWay with
    | @steal _ j hLe hj hSome =>
      subst hVictim
      refine ⟨by simpa [State.invoke, State.setStack] using OnWay.task back, ?_⟩
      have hTotal := total_queue tasks (r := { s.invoke (.worker w) [] back with
        queues := Function.update s.queues (s.victim (.worker w) w.1 i) others })
        (Nat.mod_lt _ (Nat.zero_lt_of_lt hj)) (by rw [show s.queues (w.1, _) = _ from hBack]; simp)
        rfl rfl rfl
      simp only [State.work, State.invoke, State.setStack, Function.update_self,
        roundLeft] at hTotal ⊢
      exact work_lt hTotal
  | @finish m rest hStack =>
    rw [hStack] at hWay
    cases hWay
    refine ⟨by simpa [State.setStack] using OnWay.idle, ?_⟩
    simp [State.work, State.total, State.setStack, hStack, roundLeft]

/-- The rounds of a worker lead to the task. -/
theorem exists_invoked (hDoc : o.Documented tasks) (hRunning : Running s w) (hIdle : Idle s w)
    (hKept : Kept tasks s w.1 n) :
    ∃ schedule s', (∀ a ∈ schedule, a = .run (.worker w)) ∧
      (system o).exec s schedule = some s' ∧ n ∈ s'.invoked := by
  refine System.exists_exec_of_descent (S := system o) (m := fun s => s.work tasks w)
    (I := fun s => Running s w ∧ s.loop w = .loop ∧ OnWay s w (s.stack (.worker w)) ∧
      Kept tasks s w.1 n) ?_ ⟨hRunning, hIdle.loop, hIdle.stack ▸ .idle, hKept⟩
  rintro s ⟨hRunning, hLoop, hWay, hKept⟩ hNot
  have hWaiting := hKept.resolve_left hNot
  obtain ⟨s', hst⟩ : ∃ s', run o s (.worker w) = some s' := by
    cases hStack : s.stack (.worker w) with
    | nil => exact ⟨_, by simp only [run, hStack, hLoop, hRunning.notDone]; rfl⟩
    | cons f rest => exact exists_run o hStack
  have hTurn := run_turn hst
  obtain ⟨hRunning', hLoop'⟩ := running_turn hRunning hTurn
  obtain ⟨hWay', hLess⟩ := round_turn hDoc hRunning hLoop hWay hWaiting hTurn
  exact ⟨_, s', rfl, hst, ⟨hRunning', hLoop' hLoop, hWay', kept_turn hDoc hTurn hKept⟩, hLess⟩

/-- Steps of a worker of a pool that is alive do not overlap with the constructor. -/
theorem late_of_alive (h : (system o).ReachableWhere Late s) (hAlive : s.life w.1 = .alive)
    {schedule : List (Action ι τ)} (hOnly : ∀ a ∈ schedule, a = .run (.worker w))
    (hRun : (system o).exec s schedule = some s') : (system o).ReachableWhere Late s' := by
  induction schedule generalizing s with
  | nil => exact Option.some.inj hRun ▸ h
  | cons a schedule ih =>
    obtain rfl := hOnly a List.mem_cons_self
    rw [System.exec_cons] at hRun
    obtain ⟨t, hst, hRest⟩ := Option.bind_eq_some_iff.mp hRun
    have hLate : Late s (.run (.worker w)) := by
      intro u hu
      obtain rfl := Thread.worker.inj (Action.run.inj hu)
      simp [hAlive]
    have hAlive' : t.life w.1 = .alive := by
      rw [(run_turn hst).frame.life]
      exact hAlive
    exact ih (h.act _ hLate hst) hAlive' (fun b hb => hOnly b (List.mem_cons_of_mem _ hb)) hRest

/-- **No task is stranded**: each worker that runs gets by itself to every task in the queues of
its pool, as long as the pool is alive and the tasks return. The schedule has steps of this
worker only, so no other worker has to help. That a task returns is part of the schedule: its
frame is left at a step of its worker. -/
theorem task_reached (hDoc : o.Documented tasks) (h : (system o).ReachableWhere Late s)
    (hAlive : s.life w.1 = .alive) (hRunning : (s.loop w).isRunning = true)
    (hWaiting : Waiting tasks s w.1 n) :
    ∃ schedule s', (∀ a ∈ schedule, a = .run (.worker w)) ∧
      (system o).exec s schedule = some s' ∧ (system o).ReachableWhere Late s' ∧
      n ∈ s'.invoked := by
  have hShape := started_reachable h.reachable
  have hStarted := hShape.started w (by intro hNot; simp [hNot, Loop.isRunning] at hRunning)
  have hBuilt := (hShape.counts w.1).1
  have hDone := hShape.notDone w.1 (Or.inr hAlive)
  obtain ⟨first, t, hFirst, hRun, ⟨hRunning', hKept⟩, hIdle⟩ := exists_idle hDoc (n := n)
    ⟨hRunning, hShape.inLoop w, hDone, by omega⟩ (Or.inr hWaiting)
  obtain ⟨second, s', hSecond, hRun', hInvoked⟩ := exists_invoked hDoc hRunning' hIdle hKept
  have hOnly : ∀ a ∈ first ++ second, a = .run (.worker w) := by
    intro a ha
    rcases List.mem_append.mp ha with hIn | hIn
    · exact hFirst a hIn
    · exact hSecond a hIn
  have hAll : (system o).exec s (first ++ second) = some s' := by
    rw [System.exec_append, hRun, Option.bind_some, hRun']
  exact ⟨first ++ second, s', hOnly, hAll, late_of_alive h hAlive hOnly hAll, hInvoked⟩

/-- Worker 0 waits inside a task, and worker 1 comes to the task that worker 0 has submitted. -/
theorem task_reached_other : ∃ s : State Unit Unit (List Nat),
    (system (listQueue fun _ => 2)).ReachableWhere Late s ∧ s.queues ((), 0) = [1] ∧
    ∃ schedule s', (∀ a ∈ schedule, a = .run (.worker ((), 1))) ∧
      (system (listQueue fun _ => 2)).exec s schedule = some s' ∧
      (system (listQueue fun _ => 2)).ReachableWhere Late s' ∧ 1 ∈ s'.invoked := by
  obtain ⟨s, hs, hQueue, hRunning, hAlive, hBuilt⟩ := System.exists_reachableWhere_of_exec
    (S := system (ι := Unit) (τ := Unit) (listQueue fun _ => 2))
    (c := fun s a => decide (Late s a)) (fun s a h => (of_decide_eq_true h : Late s a))
    (p := fun s => s.queues ((), 0) = [1] ∧ (s.loop ((), 1)).isRunning = true ∧
      s.life () = .alive ∧ s.built () = 2)
    (List.flatten [List.replicate 5 (.construct ()), [.submit (.external ()) ()],
      List.replicate 4 (.run (.worker ((), 0))), [.submit (.worker ((), 0)) ()]])
        (by decide +kernel)
  exact ⟨s, hs, hQueue, task_reached (listQueue_documented _) hs hAlive hRunning
    (Or.inr ⟨0, by simp [hBuilt], by simp [hQueue]⟩)⟩

end EmbLinux.WorkStealing
