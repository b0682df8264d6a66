import EmbLinux.ThreadPool.Pools

/-!
# EmbLinux — idle workers of `JThreadPool` and the deques of busy ones

A worker that submits from inside a task pushes to its own deque and notifies, so
that an idle worker comes and steals. But an idle worker steals before it waits,
not when it is woken: the predicate of its wait looks at the shared queue and its
own deque, so it goes back to sleep. `Overlooked` is the state where a busy worker
has tasks in its deque, another worker is blocked, and nothing is going to wake it.

`WakesThieves` excludes the steps that lead there, all of a worker: it blocks, it
leaves its wait, or it invokes a task and has more. `overlooked_of_work` says that
each of them does lead there.

The condition is on the state before a step of a worker; the steps of `execute`, of the
notifications and of the destructor need none (`overlooked_step`).
-/

namespace EmbLinux.ThreadPool

variable {ι τ : Type*} [DecidableEq ι] [DecidableEq τ] {size : ι → Nat} {s s' : State ι τ}
  {a : Action ι τ} {w : Worker ι} {p : ι}

/-- The worker was woken, and has yet to test its predicate again. -/
def Pc.rechecks : Pc → Bool
  | .relock | .test true | .pred true | .predLocal true => true
  | _ => false

/-- A worker of the pool is inside a task, and its deque is not empty. -/
def Busy (size : ι → Nat) (s : State ι τ) (p : ι) : Prop :=
  ∃ i, i < size p ∧ (s.pc (p, i)).isRunning = true ∧ s.localQueues (p, i) ≠ []

/-- A worker of the pool is blocked in its wait. -/
def Idle (size : ι → Nat) (s : State ι τ) (p : ι) : Prop :=
  ∃ i, i < size p ∧ s.pc (p, i) = .asleep

/-- The pool is not shut down, a worker of it is busy and another one is blocked, no
`execute` call on the pool has yet to notify, and no woken worker has yet to test
its predicate. -/
def Overlooked (size : ι → Nat) (s : State ι τ) (p : ι) : Prop :=
  s.isShutdown p = false ∧ Busy size s p ∧ Idle size s p ∧ (∀ e ∈ s.notifying, e.2 ≠ p) ∧
    ∀ i, i < size p → (s.pc (p, i)).rechecks = false

/-- Besides worker `w`, somebody is about to notify or to test the predicate. -/
def WakeUpPending (size : ι → Nat) (s : State ι τ) (w : Worker ι) : Prop :=
  (∃ e ∈ s.notifying, e.2 = w.1) ∨
    ∃ i, i < size w.1 ∧ i ≠ w.2 ∧ (s.pc (w.1, i)).rechecks = true

/-- What has to be so when worker `w` goes on from where it stands, and no wake-up is
pending: nobody is busy when it blocks; nobody is both busy and overlooked when
it leaves its wait; nobody is blocked when it invokes a task and has more. -/
def Attended (size : ι → Nat) (s : State ι τ) (w : Worker ι) : Pc → Prop
  | .block => ¬ Busy size s w.1
  | .pred true => s.taskQueue w.1 ≠ [] → ¬ (Busy size s w.1 ∧ Idle size s w.1)
  | .predLocal true => ¬ (Busy size s w.1 ∧ Idle size s w.1)
  | .taken _ => s.localQueues w ≠ [] → ¬ Idle size s w.1
  | _ => True

instance (s : State ι τ) (w : Worker ι) : Decidable (WakeUpPending size s w) :=
  inferInstanceAs (Decidable ((∃ e ∈ s.notifying, e.2 = w.1) ∨
    ∃ i, i < size w.1 ∧ i ≠ w.2 ∧ (s.pc (w.1, i)).rechecks = true))

instance (s : State ι τ) (p : ι) : Decidable (Busy size s p) :=
  inferInstanceAs (Decidable (∃ i, i < size p ∧ (s.pc (p, i)).isRunning = true ∧
    s.localQueues (p, i) ≠ []))

instance (s : State ι τ) (p : ι) : Decidable (Idle size s p) :=
  inferInstanceAs (Decidable (∃ i, i < size p ∧ s.pc (p, i) = .asleep))

instance (s : State ι τ) (p : ι) : Decidable (Overlooked size s p) :=
  inferInstanceAs (Decidable (s.isShutdown p = false ∧ Busy size s p ∧ Idle size s p ∧
    (∀ e ∈ s.notifying, e.2 ≠ p) ∧ ∀ i, i < size p → (s.pc (p, i)).rechecks = false))

instance (s : State ι τ) (w : Worker ι) : DecidablePred (Attended size s w)
  | .block => inferInstanceAs (Decidable (¬ Busy size s w.1))
  | .pred true =>
    inferInstanceAs (Decidable (s.taskQueue w.1 ≠ [] → ¬ (Busy size s w.1 ∧ Idle size s w.1)))
  | .predLocal true => inferInstanceAs (Decidable (¬ (Busy size s w.1 ∧ Idle size s w.1)))
  | .taken _ => inferInstanceAs (Decidable (s.localQueues w ≠ [] → ¬ Idle size s w.1))
  | .pred false | .predLocal false | .top | .tryLocal | .tryGlobal | .steal _ | .running _
  | .lock | .test _ | .asleep | .relock | .afterWait | .scan _ _ | .exited =>
    inferInstanceAs (Decidable True)

/-- A worker goes on only if a wake-up is pending or the others are attended to. -/
def WakesThieves (size : ι → Nat) (s : State ι τ) : Action ι τ → Prop
  | .work w _ =>
    s.isShutdown w.1 = false → WakeUpPending size s w ∨ Attended size s w (s.pc w)
  | _ => True

instance (s : State ι τ) : DecidablePred (WakesThieves size s)
  | .execute _ _ => inferInstanceAs (Decidable True)
  | .notify _ _ _ => inferInstanceAs (Decidable True)
  | .work w _ =>
    inferInstanceAs (Decidable (s.isShutdown w.1 = false →
      WakeUpPending size s w ∨ Attended size s w (s.pc w)))
  | .wake _ => inferInstanceAs (Decidable True)
  | .destroy _ => inferInstanceAs (Decidable True)

-- ---------------------------------------------------------------------------
-- The steps
-- ---------------------------------------------------------------------------

omit [DecidableEq ι] [DecidableEq τ] in
/-- Whether a worker is overlooked is a matter of its own pool. -/
theorem Overlooked.other (h : Overlooked size s' p) (hFrame : PoolFrame s s' p) :
    Overlooked size s p := by
  obtain ⟨hAlive, ⟨i, hi, hRunning, hDeque⟩, ⟨j, hj, hAsleep⟩, hNone, hQuiet⟩ := h
  refine ⟨hFrame.isShutdown ▸ hAlive, ⟨i, hi, hFrame.pc i ▸ hRunning, ?_⟩,
    ⟨j, hj, hFrame.pc j ▸ hAsleep⟩, fun e he hp => hNone e (hFrame.notifying e he hp) hp,
    fun k hk => hFrame.pc k ▸ hQuiet k hk⟩
  exact fun hEmpty => hDeque (hFrame.localQueues i hEmpty)

omit [DecidableEq ι] [DecidableEq τ] in
/-- How a woken worker stops to re-check. -/
theorem Moves.rechecks {old pc : Pc} (h : Moves size s w old pc) (hOld : old.rechecks = true)
    (hNew : pc.rechecks = false) :
    s.stopRequested w = true ∨ s.isShutdown w.1 = true ∨
      (old = .pred true ∧ s.taskQueue w.1 ≠ []) ∨ old = .predLocal true := by
  cases h with
  | stopSeen hStop => exact Or.inl hStop
  | @predTrue woken hTrue =>
    cases woken with
    | false => cases hOld
    | true => exact Or.inr (hTrue.imp_right fun hQueue => Or.inl ⟨rfl, hQueue⟩)
  | @localTrue woken _ =>
    cases woken with
    | false => cases hOld
    | true => exact Or.inr (Or.inr (Or.inr rfl))
  | @localFalse woken _ =>
    cases woken with
    | false => cases hOld
    | true => exact Or.inr (Or.inr (Or.inr rfl))
  | @noStop woken _ =>
    cases woken with
    | false => cases hOld
    | true => cases hNew
  | @predFalse woken _ _ =>
    cases woken with
    | false => cases hOld
    | true => cases hNew
  | relock => cases hNew
  | _ => cases hOld

/-- A step of a worker overlooks nobody under the condition, -/
theorem overlooked_work (hSync : Sync size s) (hIn : w.2 < size w.1)
    (h : ¬ Overlooked size s w.1) {locked : Bool}
    (hOk : WakesThieves size s (.work w locked : Action ι τ))
    (hst : work size s w locked = some s') : ¬ Overlooked size s' w.1 := by
  rintro ⟨hAlive, ⟨i, hi, hRunning, hDeque⟩, ⟨j, hj, hAsleep⟩, hNone, hQuiet⟩
  have hFrame := work_frame hst
  obtain ⟨pc, hpc, hMoves⟩ := work_moves hst
  rw [hFrame.isShutdown] at hAlive
  rw [hFrame.notifying] at hNone
  replace hDeque : s.localQueues (w.1, i) ≠ [] := fun hEmpty => hDeque (hFrame.localQueues _ hEmpty)
  have hStay : ∀ k, k ≠ w.2 → s'.pc (w.1, k) = s.pc (w.1, k) := by
    intro k hk
    have hOther : (w.1, k) ≠ w := fun hEq => hk (congrArg Prod.snd hEq)
    rw [hpc, Function.update_of_ne hOther]
  have hHere : s'.pc w = pc := by rw [hpc, Function.update_self]
  -- nothing is pending, so the worker attends to the others
  have hAttended : Attended size s w (s.pc w) := by
    rcases hOk hAlive with (⟨e, he, hPool⟩ | ⟨k, hk, hne, hWoken⟩) | hAttended
    · exact absurd hPool (hNone e he)
    · have hFalse := hQuiet k hk
      rw [hStay k hne, hWoken] at hFalse
      cases hFalse
    · exact hAttended
  have hNotRunning : pc.isRunning = false → Busy size s w.1 := by
    intro hNot
    have hne : i ≠ w.2 := by
      rintro rfl
      rw [show (w.1, w.2) = w from rfl, hHere, hNot] at hRunning
      cases hRunning
    exact ⟨i, hi, hStay i hne ▸ hRunning, hDeque⟩
  have hNotAsleep : pc ≠ .asleep → Idle size s w.1 := by
    intro hNot
    have hne : j ≠ w.2 := by
      rintro rfl
      rw [show (w.1, w.2) = w from rfl, hHere] at hAsleep
      exact hNot hAsleep
    exact ⟨j, hj, hStay j hne ▸ hAsleep⟩
  -- a worker that was not re-checking leaves things as they were
  have hRechecked : Busy size s w.1 → Idle size s w.1 → (s.pc w).rechecks = true := by
    intro hBusy hIdle
    by_contra hOld
    refine h ⟨hAlive, hBusy, hIdle, hNone, ?_⟩
    intro k hk
    by_cases hkw : k = w.2
    · rw [hkw]
      exact Bool.eq_false_iff.mpr hOld
    · exact hStay k hkw ▸ hQuiet k hk
  have hDone : pc.rechecks = false := by
    have hFalse := hQuiet w.2 hIn
    rwa [show (w.1, w.2) = w from rfl, hHere] at hFalse
  generalize hOld : s.pc w = old at hMoves hAttended hRechecked
  by_cases hSleeps : pc = .asleep
  · subst hSleeps
    cases hMoves
    exact hAttended (hNotRunning rfl)
  have hIdle := hNotAsleep hSleeps
  by_cases hInvokes : pc.isRunning = false
  · have hBusy := hNotRunning hInvokes
    rcases hMoves.rechecks (hRechecked hBusy hIdle) hDone with hStop | hDown | ⟨rfl, hQueue⟩ | rfl
    · rw [hSync.stop w hStop] at hAlive
      cases hAlive
    · rw [hDown] at hAlive
      cases hAlive
    · exact hAttended hQueue ⟨hBusy, hIdle⟩
    · exact hAttended ⟨hBusy, hIdle⟩
  · cases hMoves with
    | invoke =>
      by_cases hne : i = w.2
      · subst hne
        exact hAttended hDeque hIdle
      · -- the busy worker is another one
        cases hRechecked ⟨i, hi, hStay i hne ▸ hRunning, hDeque⟩ hIdle
    | _ => exact hInvokes rfl

/-- and no other step does. -/
theorem overlooked_step (hSync : Sync size s) (h : ¬ Overlooked size s p)
    (hOk : WakesThieves size s a) (hst : step size s a = some s') : ¬ Overlooked size s' p := by
  by_cases hPool : a.pool = p
  · cases a with
    | execute th q =>
      obtain rfl : q = p := hPool
      intro hOver
      simp only [step] at hst
      split at hst
      · rcases execute_notifies hst with rfl | ⟨-, hCall, -⟩
        · exact h hOver
        · exact hOver.2.2.2.1 (th, q) hCall rfl
      · cases hst
    | notify th q woken =>
      obtain rfl : q = p := hPool
      rintro ⟨-, -, ⟨j, hj, hAsleep⟩, -, hQuiet⟩
      rcases notify_wakes hst with ⟨i, hi, hWoken⟩ | hNobody
      · -- the woken worker has yet to test its predicate
        have hHere := hQuiet i hi
        rw [hWoken] at hHere
        cases hHere
      · exact hNobody j hj hAsleep
    | work w locked =>
      obtain rfl : w.1 = p := hPool
      simp only [step] at hst
      split at hst
      · next hIn => exact overlooked_work hSync hIn h hOk hst
      · cases hst
    | wake w =>
      obtain rfl : w.1 = p := hPool
      simp only [step] at hst
      split at hst <;> cases hst
      next hBlocked =>
      rintro ⟨-, -, -, -, hQuiet⟩
      have hHere := hQuiet w.2 hBlocked.1
      replace hHere : (Function.update s.pc w .relock w).rechecks = false := hHere
      rw [Function.update_self] at hHere
      cases hHere
    | destroy q =>
      obtain rfl : q = p := hPool
      rintro ⟨hAlive, -⟩
      rw [destroy_shutdown hSync hst] at hAlive
      cases hAlive
  · exact fun hOver => h (hOver.other (step_other hPool hst))

/-- A step of a worker that `WakesThieves` excludes leaves a worker overlooked. -/
theorem overlooked_of_work (hSync : Sync size s) (hIn : w.2 < size w.1) {locked : Bool}
    (hNot : ¬ WakesThieves size s (.work w locked))
    (hst : work size s w locked = some s') : Overlooked size s' w.1 := by
  obtain ⟨hAlive, hPending⟩ := Classical.not_imp.mp hNot
  obtain ⟨hNothing, hAttended⟩ := not_or.mp hPending
  obtain ⟨hNone, hOthers⟩ := not_or.mp hNothing
  have hFrame := work_frame hst
  obtain ⟨pc, hpc, -⟩ := work_moves hst
  have hStay : ∀ i, i ≠ w.2 → s'.pc (w.1, i) = s.pc (w.1, i) := by
    intro i hi
    have hOther : (w.1, i) ≠ w := fun hEq => hi (congrArg Prod.snd hEq)
    rw [hpc, Function.update_of_ne hOther]
  -- what is left to show is that somebody is busy, and somebody blocked
  have hOverlooked : (s'.pc w).rechecks = false → Busy size s' w.1 → Idle size s' w.1 →
      Overlooked size s' w.1 := by
    intro hHere hBusy hIdle
    refine ⟨hFrame.isShutdown ▸ hAlive, hBusy, hIdle, ?_, ?_⟩
    · rw [hFrame.notifying]
      exact fun e he hp => hNone ⟨e, he, hp⟩
    · intro i hi
      by_cases hiw : i = w.2
      · rw [hiw]
        exact hHere
      · rw [hStay i hiw]
        exact Bool.eq_false_iff.mpr fun hWoken => hOthers ⟨i, hi, hiw, hWoken⟩
  have hBusy : Busy size s w.1 → (s.pc w).isRunning = false → s'.localQueues = s.localQueues →
      Busy size s' w.1 := by
    rintro ⟨i, hi, hRunning, hDeque⟩ hOld hLocal
    have hne : i ≠ w.2 := by
      rintro rfl
      rw [show (w.1, w.2) = w from rfl, hOld] at hRunning
      cases hRunning
    exact ⟨i, hi, (hStay i hne).symm ▸ hRunning, hLocal ▸ hDeque⟩
  have hIdle : Idle size s w.1 → s.pc w ≠ .asleep → Idle size s' w.1 := by
    rintro ⟨j, hj, hAsleep⟩ hOld
    have hne : j ≠ w.2 := by
      rintro rfl
      exact hOld hAsleep
    exact ⟨j, hj, (hStay j hne).trans hAsleep⟩
  have hStop : s.stopRequested w ≠ true := by
    intro hStop
    rw [hSync.stop w hStop] at hAlive
    cases hAlive
  unfold work at hst
  cases hOld : s.pc w with
  | block =>
    rw [hOld] at hAttended hst
    simp only [if_neg hStop, Option.some.injEq] at hst
    subst hst
    have hHere : Function.update s.pc w .asleep w = .asleep := Function.update_self ..
    exact hOverlooked (congrArg Pc.rechecks hHere)
      (hBusy (not_not.mp hAttended) (congrArg Pc.isRunning hOld) rfl) ⟨w.2, hIn, hHere⟩
  | pred woken =>
    rw [hOld] at hAttended hst
    cases woken with
    | false => exact absurd trivial hAttended
    | true =>
      obtain ⟨hQueue, hBoth⟩ := Classical.not_imp.mp hAttended
      obtain ⟨hOldBusy, hOldIdle⟩ := not_not.mp hBoth
      simp only [if_pos (Or.inr hQueue : s.isShutdown w.1 = true ∨ _), Option.some.injEq] at hst
      subst hst
      have hHere : Function.update s.pc w .afterWait w = .afterWait := Function.update_self ..
      exact hOverlooked (congrArg Pc.rechecks hHere)
        (hBusy hOldBusy (congrArg Pc.isRunning hOld) rfl) (hIdle hOldIdle (hOld ▸ nofun))
  | predLocal woken =>
    rw [hOld] at hAttended hst
    cases woken with
    | false => exact absurd trivial hAttended
    | true =>
      obtain ⟨hOldBusy, hOldIdle⟩ := not_not.mp hAttended
      cases hst
      refine hOverlooked ?_ (hBusy hOldBusy (congrArg Pc.isRunning hOld) rfl)
        (hIdle hOldIdle (hOld ▸ nofun))
      show (Function.update s.pc w _ w).rechecks = false
      rw [Function.update_self]
      split <;> rfl
  | taken task =>
    rw [hOld] at hAttended hst
    obtain ⟨hDeque, hOldIdle⟩ := Classical.not_imp.mp hAttended
    cases hst
    have hHere : Function.update s.pc w (.running task) w = .running task :=
      Function.update_self ..
    exact hOverlooked (congrArg Pc.rechecks hHere)
      ⟨w.2, hIn, congrArg Pc.isRunning hHere, hDeque⟩
      (hIdle (not_not.mp hOldIdle) (hOld ▸ nofun))
  | _ =>
    rw [hOld] at hAttended
    exact absurd trivial hAttended

-- ---------------------------------------------------------------------------
-- The runs
-- ---------------------------------------------------------------------------

/-- **No worker is overlooked** in a run whose workers go on only while a wake-up is pending or
the others are attended to. Spurious wake-ups happen at any time. What the condition excludes is
a worker that goes back to its loop, or takes a task, while the deque of another one has work
and nobody is on the way to it: `overlooked_of_work` shows that such a step does overlook a
worker. -/
theorem no_worker_overlooked {threadCount : ι → Nat}
    (h : (system τ threadCount).ReachableWhere
      (WakesThieves fun p => poolSize (threadCount p)) s) (p : ι) :
    ¬ Overlooked (fun p => poolSize (threadCount p)) s p := by
  refine h.invariant (I := fun s => ∀ p, ¬ Overlooked (fun p => poolSize (threadCount p)) s p)
    ?_ ?_ p
  · rintro q ⟨-, -, ⟨i, -, hAsleep⟩, -⟩
    cases hAsleep
  · exact fun s a s' hs hNot hOk hst q => overlooked_step (sync hs) (hNot q) hOk hst

/-- A worker that sleeps is woken by the task of another thread, and the other worker
goes to sleep. -/
theorem no_worker_overlooked_idle :
    ∃ s : State Unit Unit,
      (system Unit fun _ : Unit => 2).ReachableWhere (WakesThieves fun _ => poolSize 2) s ∧
      s.pc ((), 0) = .asleep ∧ s.pc ((), 1) = .running 0 ∧
      ¬ Overlooked (fun _ => poolSize 2) s () := by
  obtain ⟨s, hs, hp⟩ := System.exists_reachableWhere_of_exec
    (S := system Unit fun _ : Unit => 2)
    (c := fun s a => decide (WakesThieves (fun _ => poolSize 2) s a))
    (fun _ _ => of_decide_eq_true)
    (p := fun s => s.pc ((), 0) = .asleep ∧ s.pc ((), 1) = .running 0)
    (List.replicate 10 (Action.work ((), 1) true) ++
      [Action.execute (.external ()) (), Action.notify (.external ()) () (some 1)] ++
      List.replicate 8 (Action.work ((), 1) true) ++ List.replicate 10 (Action.work ((), 0) true))
    (by decide +kernel)
  exact ⟨s, hs, hp.1, hp.2, no_worker_overlooked hs ()⟩

/-- Worker 0 submits from inside a task. The notification wakes worker 1, which finds
the shared queue and its own deque empty, and goes back to sleep. -/
theorem worker_overlooked :
    ∃ s : State Unit Unit, (system Unit fun _ : Unit => 2).Reachable s ∧
      s.pc ((), 0) = .running 0 ∧ s.localQueues ((), 0) = [1] ∧ s.pc ((), 1) = .asleep ∧
      Overlooked (fun _ => poolSize 2) s () :=
  System.exists_reachable_of_exec
    ([Action.execute (.external ()) (), Action.notify (.external ()) () none] ++
      List.replicate 4 (Action.work ((), 0) true) ++ List.replicate 10 (Action.work ((), 1) true) ++
      [Action.execute (.worker ((), 0)) (), Action.notify (.worker ((), 0)) () (some 1)] ++
      List.replicate 5 (Action.work ((), 1) true))
    (by decide +kernel)

end EmbLinux.ThreadPool
