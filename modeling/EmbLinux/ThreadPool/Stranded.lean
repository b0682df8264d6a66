import EmbLinux.ThreadPool.Conservation
import EmbLinux.ThreadPool.Pools

/-!
# EmbLinux — tasks stranded in a sleeping `JThreadPool`

The wait predicate of a worker looks at the shared queue and at its own deque, but
`notify_one` may wake any worker. That is enough as long as nobody pushes to the
deque of a worker that has found it empty and gone to sleep: then every deque of a
sleeping pool is empty, and the shared queue is watched under `m_queue_mutex`.

A worker that submits to its own pool never does so, for the deque is its own. A
worker of another pool does, though: `tl_worker_index` does not say of which pool
the index is, so `execute` takes the deque of the worker with the same number.
Then the notification may wake another worker, which goes back to sleep.

A notification that finds nobody blocked is lost, as the standard has it, and one that finds
several may wake any of them.
-/

namespace EmbLinux.ThreadPool

variable {ι τ : Type*} [DecidableEq ι] [DecidableEq τ] {size : ι → Nat} {s s' : State ι τ}
  {a : Action ι τ} {w : Worker ι} {p : ι}

/-- The pool is not shut down and has a task, no `execute` call on it has yet to
notify, and all its workers are blocked. -/
def Stranded (size : ι → Nat) (s : State ι τ) (p : ι) : Prop :=
  s.isShutdown p = false ∧
    (s.taskQueue p ≠ [] ∨ ∃ i, i < size p ∧ s.localQueues (p, i) ≠ []) ∧
    (∀ e ∈ s.notifying, e.2 ≠ p) ∧ ∀ i, i < size p → s.pc (p, i) = .asleep

instance (s : State ι τ) (p : ι) : Decidable (Stranded size s p) :=
  inferInstanceAs (Decidable (s.isShutdown p = false ∧
    (s.taskQueue p ≠ [] ∨ ∃ i, i < size p ∧ s.localQueues (p, i) ≠ []) ∧
    (∀ e ∈ s.notifying, e.2 ≠ p) ∧ ∀ i, i < size p → s.pc (p, i) = .asleep))

/-- The worker has found its deque empty in the wait predicate, and has not been
woken since. -/
def Pc.dozes : Pc → Bool
  | .block | .asleep => true
  | _ => false

/-- `execute` pushes to a deque only while its worker is not about to block and not
blocked. -/
def PushesToAwake (size : ι → Nat) (s : State ι τ) : Action ι τ → Prop
  | .execute th p =>
    ∀ idx ∈ executeTarget size th p, s.isShutdown p = false → (s.pc (p, idx)).dozes = false
  | _ => True

instance (s : State ι τ) : DecidablePred (PushesToAwake size s)
  | .execute th p =>
    inferInstanceAs (Decidable (∀ idx ∈ executeTarget size th p, s.isShutdown p = false →
      (s.pc (p, idx)).dozes = false))
  | .notify _ _ _ => inferInstanceAs (Decidable True)
  | .work _ _ => inferInstanceAs (Decidable True)
  | .wake _ => inferInstanceAs (Decidable True)
  | .destroy _ => inferInstanceAs (Decidable True)

-- ---------------------------------------------------------------------------
-- The deques of sleeping workers
-- ---------------------------------------------------------------------------

/-- A worker that dozes has an empty deque. -/
def DozeEmpty (s : State ι τ) : Prop :=
  ∀ w, (s.pc w).dozes = true → s.localQueues w = []

omit [DecidableEq ι] [DecidableEq τ] in
/-- Nobody is blocked. -/
theorem dozeEmpty_init : DozeEmpty (init ι τ) := by
  intro w hw
  cases hw

omit [DecidableEq ι] [DecidableEq τ] in
/-- A worker blocks when it has seen its own deque empty under the mutex. -/
theorem Moves.dozes {old pc : Pc} (h : Moves size s w old pc) (hHere : pc.dozes = true) :
    old.dozes = true ∨ s.localQueues w = [] := by
  cases h with
  | localFalse hQueue => exact Or.inr hQueue
  | _ => first | exact Or.inl rfl | cases hHere

/-- Workers fill no deque. -/
theorem dozeEmpty_work (h : DozeEmpty s) {locked : Bool} (hst : work size s w locked = some s') :
    DozeEmpty s' := by
  obtain ⟨pc, hpc, hMoves⟩ := work_moves hst
  intro u hu
  refine (work_frame hst).localQueues u ?_
  rcases update_cases hpc u with ⟨rfl, hAt⟩ | ⟨-, hAt⟩ <;> rw [hAt] at hu
  · rcases hMoves.dozes hu with hOld | hEmpty
    · exact h u hOld
    · exact hEmpty
  · exact h u hu

omit [DecidableEq ι] [DecidableEq τ] in
/-- Waking up fills none either. -/
theorem DozeEmpty.wake (h : DozeEmpty s) (hFrame : WakeFrame s s') : DozeEmpty s' := by
  intro u hu
  rw [hFrame.localQueues]
  refine h u ?_
  rcases hFrame.pc u with hSame | ⟨-, hWoken⟩
  · rwa [hSame] at hu
  · rw [hWoken] at hu
    cases hu

omit [DecidableEq τ] in
/-- This is where the condition is needed. -/
theorem dozeEmpty_execute (h : DozeEmpty s) {th : Thread ι τ}
    (hOk : PushesToAwake size s (.execute th p)) (hst : execute size s th p = some s') :
    DozeEmpty s' := by
  unfold execute at hst
  split at hst
  · next idx hTarget =>
    split at hst <;> cases hst
    · exact h
    · next hUp =>
      have hAwake := hOk idx hTarget (Bool.eq_false_iff.mpr hUp)
      intro u hu
      have hne : u ≠ (p, idx) := by
        rintro rfl
        exact Bool.eq_false_iff.mp hAwake hu
      exact (Function.update_of_ne hne ..).trans (h u hu)
  · split at hst
    · split at hst <;> cases hst <;> exact h
    · cases hst

/-- A case for each action. -/
theorem dozeEmpty_step (h : DozeEmpty s) (hOk : PushesToAwake size s a)
    (hst : step size s a = some s') : DozeEmpty s' := by
  cases a with
  | execute th p =>
    simp only [step] at hst
    split at hst
    · exact dozeEmpty_execute h hOk hst
    · cases hst
  | notify th p woken => exact h.wake (notify_frame hst)
  | work w locked =>
    simp only [step] at hst
    split at hst
    · exact dozeEmpty_work h hst
    · cases hst
  | wake w =>
    simp only [step] at hst
    split at hst <;> cases hst
    next hAsleep => exact h.wake (wake_frame hAsleep.2)
  | destroy p => exact h.wake (destroy_frame hst)

-- ---------------------------------------------------------------------------
-- The steps
-- ---------------------------------------------------------------------------

omit [DecidableEq ι] [DecidableEq τ] in
/-- Whether a task is stranded is a matter of its own pool. -/
theorem Stranded.other (h : Stranded size s' p) (hFrame : PoolFrame s s' p) :
    Stranded size s p := by
  obtain ⟨hAlive, hTasks, hNone, hAsleep⟩ := h
  refine ⟨hFrame.isShutdown ▸ hAlive, ?_, fun e he hp => hNone e (hFrame.notifying e he hp) hp,
    fun i hi => hFrame.pc i ▸ hAsleep i hi⟩
  rcases hTasks with hGlobal | ⟨i, hi, hDeque⟩
  · exact Or.inl fun hEmpty => hGlobal (hFrame.taskQueue hEmpty)
  · exact Or.inr ⟨i, hi, fun hEmpty => hDeque (hFrame.localQueues i hEmpty)⟩

/-- A step of a worker shows that one is awake, -/
theorem stranded_work (hSync : Sync size s) (hDoze : DozeEmpty s) (hIn : w.2 < size w.1)
    {locked : Bool} (hst : work size s w locked = some s') : ¬ Stranded size s' w.1 := by
  rintro ⟨-, hTasks, -, hAsleep⟩
  have hFrame := work_frame hst
  obtain ⟨pc, hpc, hMoves⟩ := work_moves hst
  -- the worker goes to sleep, and has seen the shared queue empty
  obtain rfl : pc = .asleep := by
    have hHere := hAsleep w.2 hIn
    rw [hpc] at hHere
    exact (Function.update_self ..).symm.trans hHere
  have hBlock : s.pc w = .block := by
    generalize s.pc w = old at hMoves
    cases hMoves
    rfl
  have hWait := hSync.wait w
  rw [hBlock] at hWait
  rcases hTasks with hGlobal | ⟨i, hi, hDeque⟩
  · exact hGlobal (hFrame.taskQueue w.1 hWait.2.1)
  · -- the other workers sleep already
    refine hDeque (hFrame.localQueues (w.1, i) (hDoze (w.1, i) ?_))
    have hHere := hAsleep i hi
    rcases update_cases hpc (w.1, i) with ⟨hEq, -⟩ | ⟨-, hAt⟩
    · rw [hEq, hBlock]
      rfl
    · rw [← hAt, hHere]
      rfl

omit [DecidableEq τ] in
/-- an `execute` is followed by its notification, -/
theorem stranded_execute (h : ¬ Stranded size s p) {th : Thread ι τ}
    (hst : execute size s th p = some s') : ¬ Stranded size s' p := by
  intro hStranded
  rcases execute_notifies hst with rfl | ⟨-, hCall, -⟩
  · exact h hStranded
  · exact hStranded.2.2.1 (th, p) hCall rfl

/-- which wakes a worker if all are blocked, -/
theorem stranded_notify (hSize : 1 ≤ size p) {th : Thread ι τ} {woken : Option Nat}
    (hst : notify size s th p woken = some s') : ¬ Stranded size s' p := by
  rintro ⟨-, -, -, hAsleep⟩
  rcases notify_wakes hst with ⟨i, hi, hWoken⟩ | hNobody
  · have hHere := hAsleep i hi
    rw [hWoken] at hHere
    cases hHere
  · exact hNobody 0 hSize (hAsleep 0 hSize)

/-- and no other step blocks a worker. -/
theorem stranded_step (hSync : Sync size s) (hDoze : DozeEmpty s) (hSize : 1 ≤ size p)
    (h : ¬ Stranded size s p) (hst : step size s a = some s') : ¬ Stranded size s' p := by
  by_cases hPool : a.pool = p
  · cases a with
    | execute th q =>
      obtain rfl : q = p := hPool
      simp only [step] at hst
      split at hst
      · exact stranded_execute h hst
      · cases hst
    | notify th q woken =>
      obtain rfl : q = p := hPool
      exact stranded_notify hSize hst
    | work w locked =>
      obtain rfl : w.1 = p := hPool
      simp only [step] at hst
      split at hst
      · next hIn => exact stranded_work hSync hDoze hIn hst
      · cases hst
    | wake w =>
      obtain rfl : w.1 = p := hPool
      simp only [step] at hst
      split at hst <;> cases hst
      next hAsleep =>
      rintro ⟨-, -, -, hAll⟩
      have hHere := hAll w.2 hAsleep.1
      replace hHere : Function.update s.pc w .relock w = .asleep := hHere
      rw [Function.update_self] at hHere
      cases hHere
    | destroy q =>
      obtain rfl : q = p := hPool
      rintro ⟨hAlive, -⟩
      rw [destroy_shutdown hSync hst] at hAlive
      cases hAlive
  · exact fun hStranded => h (hStranded.other (step_other hPool hst))

-- ---------------------------------------------------------------------------
-- The runs
-- ---------------------------------------------------------------------------

/-- **No task is stranded** in a run in which nobody pushes to the deque of a worker that is
about to block or blocked. Such a push happens only when a worker calls `execute` on another
pool than its own (`own_pool_not_stranded`), since `tl_worker_index` does not say of which pool
it is. -/
theorem no_task_stranded {threadCount : ι → Nat}
    (h : (system τ threadCount).ReachableWhere
      (PushesToAwake fun p => poolSize (threadCount p)) s) (p : ι) :
    ¬ Stranded (fun p => poolSize (threadCount p)) s p := by
  have hBoth := h.invariant
    (I := fun s => DozeEmpty s ∧ ∀ p, ¬ Stranded (fun p => poolSize (threadCount p)) s p) ?_ ?_
  · exact hBoth.2 p
  · refine ⟨dozeEmpty_init, ?_⟩
    rintro q ⟨-, -, -, hAsleep⟩
    cases hAsleep 0 (poolSize_pos (threadCount q))
  · intro s a s' hs ⟨hDoze, hNot⟩ hOk hst
    exact ⟨dozeEmpty_step hDoze hOk hst, fun q =>
      stranded_step (sync hs) hDoze (poolSize_pos (threadCount q)) (hNot q) hst⟩

/-- A worker of one pool submits to the other one, to the deque of a worker that
has yet to look there. The second worker of that pool sleeps. -/
theorem no_task_stranded_awake :
    ∃ s : State Bool Unit,
      (system Unit fun b => if b then 1 else 2).ReachableWhere
        (PushesToAwake fun b => poolSize (if b then 1 else 2)) s ∧
      s.localQueues (false, 0) = [1] ∧ s.pc (false, 1) = .asleep ∧ s.notifying = [] ∧
      ¬ Stranded (fun b => poolSize (if b then 1 else 2)) s false := by
  obtain ⟨s, hs, hp⟩ := System.exists_reachableWhere_of_exec
    (S := system Unit fun b => if b then 1 else 2)
    (c := fun s a => decide (PushesToAwake (fun b => poolSize (if b then 1 else 2)) s a))
    (fun _ _ => of_decide_eq_true)
    (p := fun s => s.localQueues (false, 0) = [1] ∧ s.pc (false, 1) = .asleep ∧
      s.notifying = [])
    ([Action.execute (.external ()) true, Action.notify (.external ()) true none, Action.work (true,
      0) true, Action.work (true, 0) true, Action.work (true, 0) true, Action.work (true, 0) true,
      Action.execute (.worker (true, 0)) false, Action.notify (.worker (true, 0)) false none] ++
      List.replicate 10 (Action.work (false, 1) false))
    (by decide +kernel)
  exact ⟨s, hs, hp.1, hp.2.1, hp.2.2, no_task_stranded hs false⟩

/-- Workers that submit to their own pool only strand no task. -/
theorem own_pool_not_stranded {threadCount : ι → Nat}
    (h : (system τ threadCount).ReachableWhere OwnPool s) (p : ι) :
    ¬ Stranded (fun p => poolSize (threadCount p)) s p := by
  have hAwake : (system τ threadCount).ReachableWhere
      (PushesToAwake fun p => poolSize (threadCount p)) s ∧ True := by
    refine h.strengthen (I := fun _ => True) trivial ?_
    intro s a s' _ _ hOwn hst
    refine ⟨?_, trivial⟩
    cases a with
    | execute th q =>
      intro idx hTarget _
      obtain ⟨hIndex, -⟩ := Option.filter_eq_some_iff.mp hTarget
      cases th with
      | external t => cases hIndex
      | worker w =>
        cases hIndex
        obtain rfl : q = w.1 := hOwn
        -- the caller is inside a task
        simp only [system, step] at hst
        split at hst
        · next hCan =>
          have hRunning : (s.pc w).isRunning = true := hCan.2.2
          show (s.pc w).dozes = false
          cases hpc : s.pc w <;> rw [hpc] at hRunning <;> first | rfl | cases hRunning
        · cases hst
    | _ => trivial
  exact no_task_stranded hAwake.1 p

/-- The two workers of one pool sleep. The worker of the other pool submits to it,
and the task enters the deque of worker 0; `notify_one` wakes worker 1, whose
predicate is false. -/
theorem task_stranded :
    ∃ s : State Bool Unit, (system Unit fun b => if b then 1 else 2).Reachable s ∧
      1 ∈ s.accepted false ∧ s.localQueues (false, 0) = [1] ∧
      Stranded (fun b => poolSize (if b then 1 else 2)) s false :=
  System.exists_reachable_of_exec
    (List.replicate 10 (Action.work (false, 0) false) ++ List.replicate 10 (Action.work (false,
      1) false) ++ [Action.execute (.external ()) true, Action.notify (.external ()) true none,
      Action.work (true, 0) true, Action.work (true, 0) true, Action.work (true, 0) true,
      Action.work (true, 0) true, Action.execute (.worker (true, 0)) false,
      Action.notify (.worker (true, 0)) false (some 1)] ++ List.replicate 5 (Action.work (false,
      1) false))
    (by decide +kernel)

end EmbLinux.ThreadPool
