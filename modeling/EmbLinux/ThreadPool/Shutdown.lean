import EmbLinux.ThreadPool.Conservation
import EmbLinux.ThreadPool.Pools

/-!
# EmbLinux — what `~JThreadPool` leaves undone

A worker has two ways out of `worker_loop`. In the shutdown branch after its wait
it leaves only when it has seen the shared queue and all deques empty. At the top
of the loop it leaves as soon as its stop is requested, whatever is queued; and the
destructor requests the stops right after it has set `m_is_shutdown`.

`LeavesLast` excludes that the last worker takes the second way while the pool has
tasks. Then the destructor returns only after all tasks have been invoked; without
it tasks are lost.

Tasks that `execute` drops, after `m_is_shutdown` is set, were never accepted and are not counted.
That all workers do leave is not part of it: a task may run for as long as it likes.
-/

namespace EmbLinux.ThreadPool

variable {ι τ : Type*} [DecidableEq ι] [DecidableEq τ] {size : ι → Nat} {s s' : State ι τ}
  {a : Action ι τ} {w : Worker ι} {p : ι}

/-- No task of the pool waits in a queue. -/
def Drained (size : ι → Nat) (s : State ι τ) (p : ι) : Prop :=
  s.taskQueue p = [] ∧ ∀ i, i < size p → s.localQueues (p, i) = []

/-- A worker leaves at the test of its stop token only while another worker of the
pool has yet to leave, or nothing is queued. -/
def LeavesLast (size : ι → Nat) (s : State ι τ) : Action ι τ → Prop
  | .work w _ => s.pc w = .top → s.stopRequested w = true →
      (∃ i, i < size w.1 ∧ i ≠ w.2 ∧ s.pc (w.1, i) ≠ .exited) ∨ Drained size s w.1
  | _ => True

instance (s : State ι τ) (p : ι) : Decidable (Drained size s p) :=
  inferInstanceAs (Decidable (s.taskQueue p = [] ∧ ∀ i, i < size p → s.localQueues (p, i) = []))

instance (s : State ι τ) : DecidablePred (LeavesLast size s)
  | .execute _ _ => inferInstanceAs (Decidable True)
  | .notify _ _ _ => inferInstanceAs (Decidable True)
  | .work w _ =>
    inferInstanceAs (Decidable (s.pc w = .top → s.stopRequested w = true →
      (∃ i, i < size w.1 ∧ i ≠ w.2 ∧ s.pc (w.1, i) ≠ .exited) ∨ Drained size s w.1))
  | .wake _ => inferInstanceAs (Decidable True)
  | .destroy _ => inferInstanceAs (Decidable True)

/-- All workers of the pool have left their loop. -/
def AllExited (size : ι → Nat) (s : State ι τ) (p : ι) : Prop :=
  ∀ i, i < size p → s.pc (p, i) = .exited

-- ---------------------------------------------------------------------------
-- The steps
-- ---------------------------------------------------------------------------

/-- A worker adds no task to a queue. -/
theorem Drained.work {q : ι} (h : Drained size s q) {locked : Bool}
    (hst : work size s w locked = some s') : Drained size s' q :=
  ⟨(work_frame hst).taskQueue q h.1, fun i hi => (work_frame hst).localQueues (q, i) (h.2 i hi)⟩

/-- The last worker leaves. -/
theorem drained_work (hSync : Sync size s) (hIn : w.2 < size w.1) {locked : Bool}
    (hOk : LeavesLast size s (.work w locked)) (hst : work size s w locked = some s')
    (hAll : AllExited size s' w.1) : Drained size s' w.1 := by
  obtain ⟨pc, hpc, hMoves⟩ := work_moves hst
  obtain rfl : pc = .exited := by
    have hHere := hAll w.2 hIn
    rw [hpc] at hHere
    exact (Function.update_self ..).symm.trans hHere
  have hWait := hSync.wait w
  generalize hOld : s.pc w = old at hMoves hWait
  cases hMoves with
  | quit hStop =>
    rcases hOk hOld hStop with ⟨i, hi, hne, hThere⟩ | hDrained
    · have hOther : (w.1, i) ≠ w := fun hEq => hne (congrArg Prod.snd hEq)
      have hExited := hAll i hi
      rw [hpc, Function.update_of_ne hOther] at hExited
      exact absurd hExited hThere
    · exact hDrained.work hst
  | @leave i hEmpty hEnd =>
    -- it has seen all queues empty, one after the other
    obtain ⟨hGlobal, hLocals⟩ := hWait.2.2 rfl
    refine Drained.work ⟨hGlobal, ?_⟩ hst
    intro j hj
    rcases Nat.lt_or_ge j i with hlt | hge
    · exact hLocals j hlt
    · obtain rfl : j = i := by omega
      exact hEmpty

omit [DecidableEq ι] [DecidableEq τ] in
/-- A blocked worker has not left. -/
theorem WakeFrame.allExited (hFrame : WakeFrame s s') (hAll : AllExited size s' p) :
    AllExited size s p := by
  intro i hi
  have hExited := hAll i hi
  rcases hFrame.pc (p, i) with hSame | ⟨-, hWoken⟩
  · rwa [hSame] at hExited
  · rw [hWoken] at hExited
    cases hExited

omit [DecidableEq ι] [DecidableEq τ] in
/-- Waking lets nobody leave. -/
theorem drained_wake (h : AllExited size s p → Drained size s p) (hFrame : WakeFrame s s')
    (hAll : AllExited size s' p) : Drained size s' p := by
  obtain ⟨hGlobal, hLocals⟩ := h (hFrame.allExited hAll)
  refine ⟨hFrame.taskQueue ▸ hGlobal, ?_⟩
  intro i hi
  rw [hFrame.localQueues]
  exact hLocals i hi

omit [DecidableEq τ] in
/-- Workers leave only after `m_is_shutdown` is set, so `execute` drops the task. -/
theorem drained_execute (hSync : Sync size s) (hSize : 1 ≤ size p)
    (h : AllExited size s p → Drained size s p) {th : Thread ι τ}
    (hst : execute size s th p = some s') (hAll : AllExited size s' p) : Drained size s' p := by
  rcases execute_notifies hst with rfl | ⟨hUp, -, hpc⟩
  · exact h hAll
  · have hExited := hAll 0 hSize
    rw [hpc] at hExited
    have hWait := hSync.wait (p, 0)
    rw [hExited] at hWait
    exact absurd hWait (Bool.eq_false_iff.mp hUp)

/-- A case for each action: the condition is used where a worker leaves at its stop token, and
at the other exit the worker has seen empty queues under the mutex. -/
theorem drained_step (hSync : Sync size s) (hSize : 1 ≤ size p)
    (h : AllExited size s p → Drained size s p) (hOk : LeavesLast size s a)
    (hst : step size s a = some s') (hAll : AllExited size s' p) : Drained size s' p := by
  by_cases hPool : a.pool = p
  · cases a with
    | execute th q =>
      obtain rfl : q = p := hPool
      simp only [step] at hst
      split at hst
      · exact drained_execute hSync hSize h hst hAll
      · cases hst
    | notify th q woken =>
      obtain rfl : q = p := hPool
      exact drained_wake h (notify_frame hst) hAll
    | work w locked =>
      obtain rfl : w.1 = p := hPool
      simp only [step] at hst
      split at hst
      · next hIn => exact drained_work hSync hIn hOk hst hAll
      · cases hst
    | wake w =>
      obtain rfl : w.1 = p := hPool
      simp only [step] at hst
      split at hst <;> cases hst
      next hAsleep => exact drained_wake h (wake_frame hAsleep.2) hAll
    | destroy q =>
      obtain rfl : q = p := hPool
      exact drained_wake h (destroy_frame hst) hAll
  · have hFrame := step_other hPool hst
    obtain ⟨hGlobal, hLocals⟩ := h fun i hi => hFrame.pc i ▸ hAll i hi
    exact ⟨hFrame.taskQueue hGlobal, fun i hi => hFrame.localQueues i (hLocals i hi)⟩

-- ---------------------------------------------------------------------------
-- When the destructor returns
-- ---------------------------------------------------------------------------

/-- When all workers have left, every accepted task has been invoked exactly once if
and only if no queue holds one. -/
theorem invoked_iff_drained {threadCount : ι → Nat} (h : (system τ threadCount).Reachable s)
    (hAll : AllExited (fun p => poolSize (threadCount p)) s p) :
    (∀ x ∈ s.accepted p, s.invoked.count x = 1) ↔
      Drained (fun p => poolSize (threadCount p)) s p := by
  obtain ⟨place, hFlows⟩ := flows_of_reachable (simulates_flow h)
  have hSync := sync h
  constructor
  · intro hInvoked
    -- a task that waits in a queue is in nobody's hands and not finished
    have hEmpty : ∀ k : Place ι, k.pool = p → (∀ w, k ≠ .hands w) → (∀ q, k ≠ .finished q) →
        s.tasks.at k = [] := by
      intro k hPool hHands hFinished
      refine List.eq_nil_iff_forall_not_mem.mpr fun x hx => ?_
      have hAccepted : x ∈ s.accepted p :=
        (hFlows.accepted p x).mpr ⟨k, hFlows.placement.place_of_mem hx, hPool⟩
      have hOnce := hInvoked x hAccepted
      have hMem : x ∈ s.invoked := List.count_pos_iff.mp (by omega)
      rcases (hFlows.invoked x).mp hMem with ⟨w, hw⟩ | ⟨q, hq⟩
      · have hThere : x ∈ s.tasks.at (.hands w) := by
          rw [Tasks.at_hands hw]
          exact List.mem_singleton_self _
        exact hHands w (hFlows.placement.unique hx hThere)
      · exact hFinished q (hFlows.placement.unique hx hq)
    exact ⟨hEmpty (.shared p) rfl nofun nofun,
      fun i _ => hEmpty (.localQueue (p, i)) rfl nofun nofun⟩
  · rintro ⟨hGlobal, hLocals⟩ x hx
    obtain ⟨k, hk, hPool⟩ := (hFlows.accepted p x).mp hx
    have hMem := ((hFlows.placement k).2 x).mpr hk
    suffices hInvoked : x ∈ s.invoked from List.count_eq_one_of_mem hFlows.once hInvoked
    cases k with
    | shared q =>
      obtain rfl : q = p := hPool
      rw [show s.tasks.at (.shared q) = s.taskQueue q from rfl, hGlobal] at hMem
      cases hMem
    | localQueue w =>
      obtain rfl : w.1 = p := hPool
      have hEmpty : s.localQueues w = [] := by
        by_cases hIn : w.2 < poolSize (threadCount w.1)
        · exact hLocals w.2 hIn
        · exact (hSync.inRange w hIn).1
      rw [show s.tasks.at (.localQueue w) = s.localQueues w from rfl, hEmpty] at hMem
      cases hMem
    | hands w =>
      obtain rfl : w.1 = p := hPool
      have hNone : s.tasks.hands w = none := by
        by_cases hIn : w.2 < poolSize (threadCount w.1)
        · exact congrArg Pc.task (hAll w.2 hIn)
        · exact congrArg Pc.task (hSync.inRange w hIn).2
      rw [Tasks.at_hands_none hNone] at hMem
      cases hMem
    | finished q => exact (hFlows.invoked x).mpr (Or.inr ⟨q, hMem⟩)

/-- **Shutdown drains the pool** in a run in which the last worker does not leave at its stop
token while the pool has tasks. Tasks may be submitted until the destructor begins, by anybody,
and the workers may be anywhere when it does. What the condition excludes is the test of the
stop token at the head of the loop, at which a worker leaves without looking at the queues. -/
theorem shutdown_drains {threadCount : ι → Nat}
    (h : (system τ threadCount).ReachableWhere
      (LeavesLast fun p => poolSize (threadCount p)) s) (p : ι) (hDone : s.destructor p = .done) :
    ∀ x ∈ s.accepted p, s.invoked.count x = 1 := by
  have hAll : AllExited (fun p => poolSize (threadCount p)) s p := (sync h).joined p hDone
  refine (invoked_iff_drained h.reachable hAll).mpr ?_
  have hDrained := h.invariant
    (I := fun s => ∀ p, AllExited (fun p => poolSize (threadCount p)) s p →
      Drained (fun p => poolSize (threadCount p)) s p) ?_ ?_
  · exact hDrained p hAll
  · intro q hExited
    cases hExited 0 (poolSize_pos (threadCount q))
  · exact fun s a s' hs hI hOk hst q hExited =>
      drained_step (sync hs) (poolSize_pos (threadCount q)) (hI q) hOk hst hExited

/-- Worker 0 leaves at its stop token while a task is queued. Worker 1 has gone round
once more before its stop is requested, and runs it. -/
theorem shutdown_drains_two :
    ∃ s : State Unit Unit,
      (system Unit fun _ : Unit => 2).ReachableWhere (LeavesLast fun _ => poolSize 2) s ∧
      s.destructor () = .done ∧ s.accepted () = [0, 1] ∧
      ∀ x ∈ s.accepted (), s.invoked.count x = 1 := by
  obtain ⟨s, hs, hp⟩ := System.exists_reachableWhere_of_exec
    (S := system Unit fun _ : Unit => 2)
    (c := fun s a => decide (LeavesLast (fun _ => poolSize 2) s a))
    (fun _ _ => of_decide_eq_true)
    (p := fun s => s.destructor () = .done ∧ s.accepted () = [0, 1])
    ([Action.execute (.external ()) (), Action.notify (.external ()) () none] ++
      List.replicate 4 (Action.work ((), 0) true) ++ List.replicate 10 (Action.work ((), 1) true) ++
      [Action.execute (.external ()) (), Action.notify (.external ()) () (some 1),
      Action.destroy (), Action.destroy (), Action.destroy (), Action.work ((), 0) true,
      Action.work ((), 0) true] ++ List.replicate 10 (Action.work ((), 1) true) ++
      [Action.destroy (), Action.work ((), 1) true, Action.work ((), 1) true, Action.destroy ()])
    (by decide +kernel)
  exact ⟨s, hs, hp.1, hp.2, shutdown_drains hs () hp.1⟩

/-- The last worker that leaves at its stop token leaves the queued tasks behind. -/
theorem undrained_of_work {locked : Bool} (hNot : ¬ LeavesLast size s (.work w locked))
    (hst : work size s w locked = some s') :
    AllExited size s' w.1 ∧ ¬ Drained size s' w.1 := by
  obtain ⟨hTop, hRest⟩ := Classical.not_imp.mp hNot
  obtain ⟨hStop, hLast⟩ := Classical.not_imp.mp hRest
  obtain ⟨hOthers, hQueued⟩ := not_or.mp hLast
  unfold work at hst
  rw [hTop] at hst
  simp only [if_pos hStop, Option.some.injEq] at hst
  subst hst
  refine ⟨?_, hQueued⟩
  intro i hi
  by_cases hiw : i = w.2
  · rw [hiw]
    exact Function.update_self ..
  · have hOther : (w.1, i) ≠ w := fun hEq => hiw (congrArg Prod.snd hEq)
    refine (Function.update_of_ne hOther ..).trans ?_
    by_contra hThere
    exact hOthers ⟨i, hi, hiw, hThere⟩

/-- The only worker is at the top of its loop when the destructor requests its stop. -/
theorem queued_task_lost :
    ∃ s : State Unit Unit, (system Unit fun _ : Unit => 1).Reachable s ∧
      s.destructor () = .done ∧ s.accepted () = [0] ∧ s.invoked = [] :=
  System.exists_reachable_of_exec
    [.execute (.external ()) (), .notify (.external ()) () none,
      .destroy (), .destroy (), .destroy (), .work ((), 0) true, .destroy ()]
    (by decide +kernel)

end EmbLinux.ThreadPool
