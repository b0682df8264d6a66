import EmbLinux.Lib.Update
import EmbLinux.ThreadPool.Model

/-!
# EmbLinux — what the steps of `JThreadPool` leave unchanged

`WorkFrame` says what a step of a worker does to everybody else: it takes tasks
only, and touches `m_queue_mutex` only if it is free or its own. `Sync` is the
invariant of the synchronization: who holds `m_queue_mutex`, what a worker in its
wait has seen and still holds, and that a stop is requested only after
`m_is_shutdown` is set.
-/

namespace EmbLinux.ThreadPool

variable {ι τ : Type*} [DecidableEq ι] [DecidableEq τ] {size : ι → Nat} {s s' : State ι τ}
  {a : Action ι τ} {w u : Worker ι} {p : ι}

/-- The worker holds `m_queue_mutex`. -/
def Pc.holds : Pc → Bool
  | .test _ | .pred _ | .predLocal _ | .block | .afterWait | .scan _ _ => true
  | _ => false

/-- What a step of a worker leaves alone; it empties queues and fills none. -/
structure WorkFrame (s s' : State ι τ) (w : Worker ι) : Prop where
  /-- One worker moves, -/
  pc : ∃ pc, s'.pc = Function.update s.pc w pc
  isShutdown : s'.isShutdown = s.isShutdown
  stopRequested : s'.stopRequested = s.stopRequested
  destructor : s'.destructor = s.destructor
  notifying : s'.notifying = s.notifying
  accepted : s'.accepted = s.accepted
  /-- and it fills no queue. -/
  taskQueue : ∀ p, s.taskQueue p = [] → s'.taskQueue p = []
  localQueues : ∀ u, s.localQueues u = [] → s'.localQueues u = []
  /-- It locks or unlocks the mutex of its own pool only. -/
  mutex : ∀ p, s'.queueMutex p = s.queueMutex p ∨
    (p = w.1 ∧ (s.queueMutex p = none ∨ (s.pc w).holds = true))

section

omit [DecidableEq τ]

/-- A step that moves the worker only, -/
theorem workFrame_setPc (pc : Pc) : WorkFrame s (s.setPc w pc) w :=
  ⟨⟨pc, rfl⟩, rfl, rfl, rfl, rfl, rfl, fun _ h => h, fun _ h => h, fun _ => Or.inl rfl⟩

/-- one that unlocks the mutex of its pool, -/
theorem workFrame_unlock (hHolds : (s.pc w).holds = true) (pc : Pc) :
    WorkFrame s ((s.unlock w.1).setPc w pc) w := by
  refine ⟨⟨pc, rfl⟩, rfl, rfl, rfl, rfl, rfl, fun _ h => h, fun _ h => h, ?_⟩
  intro p
  rcases update_at s.queueMutex w.1 none p with ⟨hp, -⟩ | ⟨-, hAt⟩
  · exact Or.inr ⟨hp, Or.inr hHolds⟩
  · exact Or.inl hAt

/-- and one that locks it. -/
theorem workFrame_lock (hFree : s.queueMutex w.1 = none) (pc : Pc) :
    WorkFrame s { s with
      queueMutex := Function.update s.queueMutex w.1 (some w.2)
      pc := Function.update s.pc w pc } w := by
  refine ⟨⟨pc, rfl⟩, rfl, rfl, rfl, rfl, rfl, fun _ h => h, fun _ h => h, ?_⟩
  intro p
  rcases update_at s.queueMutex w.1 (some w.2) p with ⟨rfl, -⟩ | ⟨-, hAt⟩
  · exact Or.inr ⟨rfl, Or.inl hFree⟩
  · exact Or.inl hAt

end

/-- A step of a worker. -/
theorem work_frame {locked : Bool} (hst : work size s w locked = some s') : WorkFrame s s' w := by
  unfold work at hst
  split at hst
  · cases hst
    exact workFrame_setPc _
  · split at hst <;> cases hst
    · exact workFrame_setPc _
    · next task rest hQueue =>
      refine ⟨⟨_, rfl⟩, rfl, rfl, rfl, rfl, rfl, fun _ h => h, ?_, fun _ => Or.inl rfl⟩
      intro u hu
      rcases update_at s.localQueues w rest u with ⟨rfl, -⟩ | ⟨-, hAt⟩
      · rw [hQueue] at hu
        cases hu
      · exact hAt.trans hu
  · split at hst
    · split at hst <;> cases hst
      · exact workFrame_setPc _
      · next task rest hQueue =>
        refine ⟨⟨_, rfl⟩, rfl, rfl, rfl, rfl, rfl, ?_, fun _ h => h, fun _ => Or.inl rfl⟩
        intro p hp
        rcases update_at s.taskQueue w.1 rest p with ⟨rfl, -⟩ | ⟨-, hAt⟩
        · rw [hQueue] at hp
          cases hp
        · exact hAt.trans hp
    · cases hst
  · next i _ =>
    split at hst <;> cases hst
    · refine ⟨⟨_, rfl⟩, rfl, rfl, rfl, rfl, rfl, fun _ h => h, ?_, fun _ => Or.inl rfl⟩
      intro u hu
      rcases update_at s.localQueues (stealTarget size w i)
        (s.localQueues (stealTarget size w i)).dropLast u with ⟨rfl, hAt⟩ | ⟨-, hAt⟩
      · refine hAt.trans ?_
        rw [hu]
        rfl
      · exact hAt.trans hu
    · exact workFrame_setPc _
  · cases hst
    exact ⟨⟨_, rfl⟩, rfl, rfl, rfl, rfl, rfl, fun _ h => h, fun _ h => h, fun _ => Or.inl rfl⟩
  · split at hst <;> cases hst
    exact ⟨⟨_, rfl⟩, rfl, rfl, rfl, rfl, rfl, fun _ h => h, fun _ h => h, fun _ => Or.inl rfl⟩
  · split at hst <;> cases hst
    next hFree => exact workFrame_lock hFree _
  · cases hst
    exact workFrame_setPc _
  · cases hst
    exact workFrame_setPc _
  · cases hst
    exact workFrame_setPc _
  · next hpc =>
    split at hst <;> cases hst
    · exact workFrame_setPc _
    · exact workFrame_unlock (by rw [hpc]; rfl) _
  · cases hst
  · split at hst <;> cases hst
    next hFree => exact workFrame_lock hFree _
  · next hpc =>
    split at hst <;> cases hst
    · exact workFrame_setPc _
    · exact workFrame_unlock (by rw [hpc]; rfl) _
  · next hpc =>
    split at hst
    · split at hst <;> cases hst
      · exact workFrame_setPc _
      · exact workFrame_unlock (by rw [hpc]; rfl) _
    · cases hst
      exact workFrame_unlock (by rw [hpc]; rfl) _
  · cases hst

/-- Where a worker goes from where it stands, and what it saw there. -/
inductive Moves (size : ι → Nat) (s : State ι τ) (w : Worker ι) : Pc → Pc → Prop
  | quit : s.stopRequested w = true → Moves size s w .top .exited
  | again : s.stopRequested w = false → Moves size s w .top .tryLocal
  | localEmpty : s.localQueues w = [] → Moves size s w .tryLocal .tryGlobal
  | localFront {task : Nat} {rest : List Nat} : s.localQueues w = task :: rest →
      Moves size s w .tryLocal (.taken task)
  | globalEmpty : s.taskQueue w.1 = [] → Moves size s w .tryGlobal (.steal 0)
  | globalFront {task : Nat} {rest : List Nat} : s.taskQueue w.1 = task :: rest →
      Moves size s w .tryGlobal (.taken task)
  | stolen {i task : Nat} : (s.localQueues (stealTarget size w i)).getLast? = some task →
      Moves size s w (.steal i) (.taken task)
  | stealNext {i : Nat} : i + 1 < size w.1 → Moves size s w (.steal i) (.steal (i + 1))
  | stealEnd {i : Nat} : Moves size s w (.steal i) .lock
  | invoke {task : Nat} : Moves size s w (.taken task) (.running task)
  | finish {task : Nat} : s.Notified (.worker w) → Moves size s w (.running task) .top
  | lock : Moves size s w .lock (.test false)
  | relock : Moves size s w .relock (.test true)
  | stopSeen {woken : Bool} : s.stopRequested w = true → Moves size s w (.test woken) .afterWait
  | noStop {woken : Bool} : s.stopRequested w = false →
      Moves size s w (.test woken) (.pred woken)
  | predTrue {woken : Bool} : s.isShutdown w.1 = true ∨ s.taskQueue w.1 ≠ [] →
      Moves size s w (.pred woken) .afterWait
  | predFalse {woken : Bool} : s.isShutdown w.1 = false → s.taskQueue w.1 = [] →
      Moves size s w (.pred woken) (.predLocal woken)
  | localTrue {woken : Bool} : s.localQueues w ≠ [] →
      Moves size s w (.predLocal woken) .afterWait
  | localFalse {woken : Bool} : s.localQueues w = [] → Moves size s w (.predLocal woken) .block
  | unblocked : s.stopRequested w = true → Moves size s w .block .afterWait
  | sleep : s.stopRequested w = false → Moves size s w .block .asleep
  | down : s.isShutdown w.1 = true →
      Moves size s w .afterWait (.scan 0 (s.taskQueue w.1).isEmpty)
  | up : s.isShutdown w.1 = false → Moves size s w .afterWait .top
  | scanNext {i : Nat} {all_empty : Bool} : s.localQueues (w.1, i) = [] → i + 1 < size w.1 →
      Moves size s w (.scan i all_empty) (.scan (i + 1) all_empty)
  | leave {i : Nat} : s.localQueues (w.1, i) = [] → ¬ i + 1 < size w.1 →
      Moves size s w (.scan i true) .exited
  | back {i : Nat} {all_empty : Bool} : Moves size s w (.scan i all_empty) .top

/-- Where a worker goes from each program point. -/
theorem work_moves {locked : Bool} (hst : work size s w locked = some s') :
    ∃ pc, s'.pc = Function.update s.pc w pc ∧ Moves size s w (s.pc w) pc := by
  unfold work at hst
  split at hst
  · next hpc =>
    -- the stop token at the top of the loop
    cases hst
    refine ⟨_, rfl, ?_⟩
    rw [hpc]
    split
    · next hStop => exact .quit hStop
    · next hStop => exact .again (Bool.eq_false_iff.mpr hStop)
  · next hpc =>
    -- the own deque, the shared queue, and then the other deques from the back
    split at hst <;> cases hst <;> refine ⟨_, rfl, ?_⟩ <;> rw [hpc]
    · next hQueue => exact .localEmpty hQueue
    · next hQueue => exact .localFront hQueue
  · next hpc =>
    split at hst
    · split at hst <;> cases hst <;> refine ⟨_, rfl, ?_⟩ <;> rw [hpc]
      · next hQueue => exact .globalEmpty hQueue
      · next hQueue => exact .globalFront hQueue
    · cases hst
  · next i hpc =>
    split at hst <;> cases hst <;> refine ⟨_, rfl, ?_⟩ <;> rw [hpc]
    · next task hLast =>
      refine .stolen ?_
      split at hLast
      · exact hLast
      · cases hLast
    · split
      · next hNext => exact .stealNext hNext
      · exact .stealEnd
  -- the task in hand
  · next task hpc =>
    cases hst
    exact ⟨_, rfl, hpc ▸ .invoke⟩
  · next task hpc =>
    split at hst <;> cases hst
    next hNotified => exact ⟨_, rfl, hpc ▸ .finish hNotified⟩
  · next hpc =>
    split at hst <;> cases hst
    exact ⟨_, rfl, hpc ▸ .lock⟩
  -- the predicate of the wait, in its three parts
  · next woken hpc =>
    cases hst
    refine ⟨_, rfl, ?_⟩
    rw [hpc]
    split
    · next hStop => exact .stopSeen hStop
    · next hStop => exact .noStop (Bool.eq_false_iff.mpr hStop)
  · next woken hpc =>
    cases hst
    refine ⟨_, rfl, ?_⟩
    rw [hpc]
    split
    · next hTrue => exact .predTrue hTrue
    · next hFalse =>
      rw [not_or, not_not] at hFalse
      exact .predFalse (Bool.eq_false_iff.mpr hFalse.1) hFalse.2
  · next woken hpc =>
    cases hst
    refine ⟨_, rfl, ?_⟩
    rw [hpc]
    split
    · next hQueue => exact .localTrue hQueue
    · next hQueue => exact .localFalse (not_not.mp hQueue)
  · next hpc =>
    -- the wait itself
    split at hst <;> cases hst <;> refine ⟨_, rfl, ?_⟩ <;> rw [hpc]
    · next hStop => exact .unblocked hStop
    · next hStop => exact .sleep (Bool.eq_false_iff.mpr hStop)
  · cases hst
  · next hpc =>
    split at hst <;> cases hst
    exact ⟨_, rfl, hpc ▸ .relock⟩
  · next hpc =>
    -- the shutdown branch, which looks at all queues
    split at hst <;> cases hst <;> refine ⟨_, rfl, ?_⟩ <;> rw [hpc]
    · next hDown => exact .down hDown
    · next hUp => exact .up (Bool.eq_false_iff.mpr hUp)
  · next i all_empty hpc =>
    split at hst
    · next hEmpty =>
      split at hst <;> cases hst <;> refine ⟨_, rfl, ?_⟩ <;> rw [hpc]
      · next hNext => exact .scanNext hEmpty hNext
      · next hLast =>
        split
        · next hAll => exact hAll ▸ .leave hEmpty hLast
        · exact .back
    · cases hst
      exact ⟨_, rfl, hpc ▸ .back⟩
  · cases hst

/-- What a step does that wakes blocked workers at most. -/
structure WakeFrame (s s' : State ι τ) : Prop where
  pc : ∀ u, s'.pc u = s.pc u ∨ (s.pc u = .asleep ∧ s'.pc u = .relock)
  queueMutex : s'.queueMutex = s.queueMutex
  taskQueue : s'.taskQueue = s.taskQueue
  localQueues : s'.localQueues = s.localQueues

/-- One worker of them. -/
theorem woken_of_update {pc : Worker ι → Pc} (hAsleep : pc w = .asleep) (u : Worker ι) :
    Function.update pc w .relock u = pc u ∨
      (pc u = .asleep ∧ Function.update pc w .relock u = .relock) := by
  rcases update_at pc w .relock u with ⟨rfl, hAt⟩ | ⟨-, hAt⟩
  · exact Or.inr ⟨hAsleep, hAt⟩
  · exact Or.inl hAt

omit [DecidableEq τ] in
/-- Waking up moves one worker. -/
theorem wake_frame (hAsleep : s.pc w = .asleep) : WakeFrame s (s.setPc w .relock) :=
  ⟨woken_of_update hAsleep, rfl, rfl, rfl⟩

/-- A notification wakes one worker or none. -/
theorem notify_frame {th : Thread ι τ} {woken : Option Nat}
    (hst : notify size s th p woken = some s') : WakeFrame s s' := by
  unfold notify at hst
  split at hst
  · split at hst
    · split at hst <;> cases hst
      next hAsleep => exact ⟨woken_of_update hAsleep.2, rfl, rfl, rfl⟩
    · split at hst <;> cases hst
      exact ⟨fun _ => Or.inl rfl, rfl, rfl, rfl⟩
  · cases hst

/-- A notification wakes a worker, unless none is blocked. -/
theorem notify_wakes {th : Thread ι τ} {woken : Option Nat}
    (hst : notify size s th p woken = some s') :
    (∃ i, i < size p ∧ s'.pc (p, i) = .relock) ∨ ∀ i, i < size p → s'.pc (p, i) ≠ .asleep := by
  unfold notify at hst
  split at hst
  · split at hst
    · next i =>
      split at hst <;> cases hst
      next hAsleep => exact Or.inl ⟨i, hAsleep.1, Function.update_self ..⟩
    · split at hst <;> cases hst
      next hNobody => exact Or.inr hNobody
  · cases hst

omit [DecidableEq τ] in
/-- A destructor wakes all of them. -/
theorem destroy_frame (hst : destroy size s p = some s') : WakeFrame s s' := by
  unfold destroy at hst
  split at hst
  · split at hst <;> cases hst
    exact ⟨fun _ => Or.inl rfl, rfl, rfl, rfl⟩
  · cases hst
    refine ⟨?_, rfl, rfl, rfl⟩
    intro u
    show (if u.1 = p ∧ s.pc u = .asleep then Pc.relock else s.pc u) = s.pc u ∨ _
    by_cases hAsleep : u.1 = p ∧ s.pc u = .asleep
    · exact Or.inr ⟨hAsleep.2, if_pos hAsleep⟩
    · exact Or.inl (if_neg hAsleep)
  · next i _ =>
    cases hst
    refine ⟨?_, rfl, rfl, rfl⟩
    intro u
    show (if s.pc (p, i) = .asleep then Function.update s.pc (p, i) .relock else s.pc) u =
      s.pc u ∨ (s.pc u = .asleep ∧
        (if s.pc (p, i) = .asleep then Function.update s.pc (p, i) .relock else s.pc) u = .relock)
    split
    · next hAsleep => exact woken_of_update hAsleep u
    · exact Or.inl rfl
  · split at hst <;> cases hst
    exact ⟨fun _ => Or.inl rfl, rfl, rfl, rfl⟩
  · cases hst

-- ---------------------------------------------------------------------------
-- Who holds the mutex, and what it has seen
-- ---------------------------------------------------------------------------

/-- What holds of a worker where it stands. -/
def WaitOk (s : State ι τ) (w : Worker ι) : Pc → Prop
  | .test _ | .pred _ | .afterWait => s.queueMutex w.1 = some w.2
  | .predLocal _ | .block =>
    s.queueMutex w.1 = some w.2 ∧ s.taskQueue w.1 = [] ∧ s.isShutdown w.1 = false
  | .scan i all_empty =>
    s.queueMutex w.1 = some w.2 ∧ s.isShutdown w.1 = true ∧
      (all_empty = true → s.taskQueue w.1 = [] ∧ ∀ j, j < i → s.localQueues (w.1, j) = [])
  | .exited => s.isShutdown w.1 = true
  | _ => True

/-- Who holds the mutex, and what is known of the flags of the shutdown. -/
structure Sync (size : ι → Nat) (s : State ι τ) : Prop where
  /-- What each worker has seen while it had the mutex is still so. -/
  wait : ∀ w, WaitOk s w (s.pc w)
  /-- The destructor sets `m_is_shutdown` first, -/
  shutdown : ∀ p, s.destructor p ≠ .alive → s.isShutdown p = true
  /-- and requests the stops after it. -/
  stop : ∀ w, s.stopRequested w = true → s.isShutdown w.1 = true
  /-- When it has returned all workers have left. -/
  joined : ∀ p, s.destructor p = .done → ∀ i, i < size p → s.pc (p, i) = .exited
  inRange : ∀ w, ¬ w.2 < size w.1 → s.localQueues w = [] ∧ s.pc w = .top

section

omit [DecidableEq ι] [DecidableEq τ]

/-- Nobody holds it and nothing is shut down. -/
theorem sync_init : Sync size (init ι τ) := by
  refine ⟨fun _ => trivial, ?_, ?_, ?_, fun _ _ => ⟨rfl, rfl⟩⟩ <;> simp [init]

/-- The mutex belongs to the worker whose program point says so. -/
theorem mutex_of_holds (h : WaitOk s w (s.pc w)) (hHolds : (s.pc w).holds = true) :
    s.queueMutex w.1 = some w.2 := by
  cases hpc : s.pc w <;> rw [hpc] at h hHolds <;> first | exact h | exact h.1 | cases hHolds

/-- A worker keeps what it has seen, when others only take tasks and leave the
mutex to it. -/
theorem WaitOk.congr {pc : Pc} (h : WaitOk s u pc)
    (hMutex : pc.holds = true → s'.queueMutex u.1 = s.queueMutex u.1)
    (hShutdown : s'.isShutdown u.1 = s.isShutdown u.1)
    (hQueue : pc.holds = true → s.taskQueue u.1 = [] → s'.taskQueue u.1 = [])
    (hLocal : pc.holds = true → s.isShutdown u.1 = true →
      ∀ j, s.localQueues (u.1, j) = [] → s'.localQueues (u.1, j) = []) : WaitOk s' u pc := by
  cases pc with
  | test woken => exact (hMutex rfl).trans h
  | pred woken => exact (hMutex rfl).trans h
  | afterWait => exact (hMutex rfl).trans h
  | predLocal woken => exact ⟨(hMutex rfl).trans h.1, hQueue rfl h.2.1, hShutdown.trans h.2.2⟩
  | block => exact ⟨(hMutex rfl).trans h.1, hQueue rfl h.2.1, hShutdown.trans h.2.2⟩
  | scan i all_empty =>
    obtain ⟨hOwner, hDown, hEmpty⟩ := h
    refine ⟨(hMutex rfl).trans hOwner, hShutdown.trans hDown, ?_⟩
    intro hAll
    obtain ⟨hGlobal, hLocals⟩ := hEmpty hAll
    exact ⟨hQueue rfl hGlobal, fun j hj => hLocal rfl hDown j (hLocals j hj)⟩
  | exited => exact hShutdown.trans h
  | _ => trivial

end

omit [DecidableEq τ] in
/-- The step of a worker keeps what the others have seen. -/
theorem WorkFrame.waitOk (hFrame : WorkFrame s s' w) (h : Sync size s) (hne : u ≠ w) :
    WaitOk s' u (s'.pc u) := by
  obtain ⟨pc, hpc⟩ := hFrame.pc
  have hSame : s'.pc u = s.pc u := by rw [hpc, Function.update_of_ne hne]
  rw [hSame]
  refine (h.wait u).congr ?_ ?_ ?_ ?_
  · intro hHolds
    have hOwner := mutex_of_holds (h.wait u) hHolds
    rcases hFrame.mutex u.1 with hMutex | ⟨hp, hFree | hMine⟩
    · exact hMutex
    · rw [hOwner] at hFree
      cases hFree
    · -- the mutex has one owner
      have hOwner' := mutex_of_holds (h.wait w) hMine
      rw [← hp, hOwner] at hOwner'
      exact absurd (Prod.ext hp (Option.some.inj hOwner')) hne
  · rw [hFrame.isShutdown]
  · exact fun _ => hFrame.taskQueue u.1
  · exact fun _ _ j => hFrame.localQueues (u.1, j)

/-- The step of a worker by itself. -/
theorem waitOk_work (h : Sync size s) {locked : Bool}
    (hst : work size s w locked = some s') : WaitOk s' w (s'.pc w) := by
  have hOld := h.wait w
  -- what a worker knows comes from the test it has just made, with the mutex or without it
  unfold work at hst
  split at hst
  · next hpc =>
    cases hst
    simp only [State.setPc, Function.update_self]
    split
    · next hStop => exact h.stop w hStop
    · trivial
  · split at hst <;> cases hst <;> simp only [State.setPc, Function.update_self] <;> trivial
  · split at hst
    · split at hst <;> cases hst <;> simp only [State.setPc, Function.update_self] <;> trivial
    · cases hst
  · split at hst <;> cases hst <;> simp only [State.setPc, Function.update_self]
    · trivial
    · split <;> trivial
  · cases hst
    simp only [Function.update_self]
    trivial
  · split at hst <;> cases hst
    simp only [Function.update_self]
    trivial
  · split at hst <;> cases hst
    simp only [Function.update_self]
    exact Function.update_self ..
  · next woken hpc =>
    cases hst
    rw [hpc] at hOld
    simp only [State.setPc, Function.update_self]
    split <;> exact hOld
  · next woken hpc =>
    cases hst
    rw [hpc] at hOld
    simp only [State.setPc, Function.update_self]
    split
    · exact hOld
    · next hFalse =>
      rw [not_or, not_not] at hFalse
      exact ⟨hOld, hFalse.2, Bool.eq_false_iff.mpr hFalse.1⟩
  · next woken hpc =>
    cases hst
    rw [hpc] at hOld
    simp only [State.setPc, Function.update_self]
    split
    · exact hOld.1
    · exact hOld
  · next hpc =>
    rw [hpc] at hOld
    split at hst <;> cases hst <;> simp only [State.setPc, Function.update_self]
    · exact hOld.1
    · trivial
  · cases hst
  · split at hst <;> cases hst
    simp only [Function.update_self]
    exact Function.update_self ..
  · next hpc =>
    rw [hpc] at hOld
    split at hst <;> cases hst <;> simp only [State.setPc, Function.update_self]
    · next hDown =>
      -- the scan begins with no deque looked at
      refine ⟨hOld, hDown, ?_⟩
      intro hAll
      exact ⟨List.isEmpty_iff.mp hAll, fun j hj => absurd hj (Nat.not_lt_zero j)⟩
    · trivial
  · next i all_empty hpc =>
    rw [hpc] at hOld
    obtain ⟨hOwner, hDown, hEmpty⟩ := hOld
    split at hst
    · next hNil =>
      split at hst <;> cases hst <;> simp only [State.setPc, Function.update_self]
      -- one more deque was empty, and `m_queue_mutex` keeps it so
      · refine ⟨hOwner, hDown, ?_⟩
        intro hAll
        obtain ⟨hGlobal, hLocals⟩ := hEmpty hAll
        refine ⟨hGlobal, ?_⟩
        intro j hj
        rcases Nat.lt_succ_iff_lt_or_eq.mp hj with hj | rfl
        · exact hLocals j hj
        · exact hNil
      · split
        · exact hDown
        · trivial
    · cases hst
      simp only [State.setPc, Function.update_self]
      trivial
  · cases hst

/-- A worker that blocks gives the mutex up. -/
theorem sync_work (h : Sync size s) (hIn : w.2 < size w.1) {locked : Bool}
    (hst : work size s w locked = some s') : Sync size s' := by
  have hFrame := work_frame hst
  obtain ⟨pc, hpc⟩ := hFrame.pc
  refine ⟨?_, ?_, ?_, ?_, ?_⟩
  · intro u
    by_cases hu : u = w
    · rw [hu]
      exact waitOk_work h hst
    · exact hFrame.waitOk h hu
  · rw [hFrame.destructor, hFrame.isShutdown]
    exact h.shutdown
  · rw [hFrame.stopRequested, hFrame.isShutdown]
    exact h.stop
  · intro p hDone i hi
    rw [hFrame.destructor] at hDone
    have hExited := h.joined p hDone i hi
    have hne : (p, i) ≠ w := by
      rintro rfl
      unfold work at hst
      rw [hExited] at hst
      cases hst
    rw [hpc, Function.update_of_ne hne]
    exact hExited
  · intro u hu
    obtain ⟨hLocal, hTop⟩ := h.inRange u hu
    have hne : u ≠ w := fun hEq => hu (hEq ▸ hIn)
    rw [hpc, Function.update_of_ne hne]
    exact ⟨hFrame.localQueues u hLocal, hTop⟩

omit [DecidableEq ι] [DecidableEq τ] in
/-- Blocked workers are woken, and the destructor goes on. -/
theorem Sync.wake (h : Sync size s) (hFrame : WakeFrame s s')
    (hShutdown : s'.isShutdown = s.isShutdown)
    (hDown : ∀ p, s'.destructor p ≠ .alive → s.isShutdown p = true)
    (hStop : ∀ w, s'.stopRequested w = true → s.isShutdown w.1 = true)
    (hJoined : ∀ p, s'.destructor p = .done → ∀ i, i < size p → s.pc (p, i) = .exited) :
    Sync size s' := by
  refine ⟨?_, hShutdown ▸ hDown, hShutdown ▸ hStop, ?_, ?_⟩
  · intro u
    rcases hFrame.pc u with hSame | ⟨-, hWoken⟩
    · rw [hSame]
      refine (h.wait u).congr ?_ ?_ ?_ ?_
      · exact fun _ => by rw [hFrame.queueMutex]
      · rw [hShutdown]
      · exact fun _ hEmpty => by rw [hFrame.taskQueue]; exact hEmpty
      · exact fun _ _ j hEmpty => by rw [hFrame.localQueues]; exact hEmpty
    · rw [hWoken]
      trivial
  · intro p hDone i hi
    have hExited := hJoined p hDone i hi
    rcases hFrame.pc (p, i) with hSame | ⟨hAsleep, -⟩
    · rw [hSame]
      exact hExited
    · rw [hExited] at hAsleep
      cases hAsleep
  · intro u hu
    obtain ⟨hEmpty, hTop⟩ := h.inRange u hu
    rcases hFrame.pc u with hSame | ⟨hAsleep, -⟩
    · rw [hFrame.localQueues, hSame]
      exact ⟨hEmpty, hTop⟩
    · rw [hTop] at hAsleep
      cases hAsleep

section

omit [DecidableEq τ]

/-- An `execute` finds the mutex free and leaves it so. -/
theorem sync_execute (h : Sync size s) {th : Thread ι τ}
    (hst : execute size s th p = some s') : Sync size s' := by
  unfold execute at hst
  split at hst
  · next idx hTarget =>
    split at hst <;> cases hst
    · exact h
    · next hUp =>
      have hIdx : idx < size p := of_decide_eq_true (Option.filter_eq_some_iff.mp hTarget).2
      refine ⟨?_, h.shutdown, h.stop, h.joined, ?_⟩
      · intro u
        refine (h.wait u).congr (fun _ => rfl) rfl (fun _ hEmpty => hEmpty) ?_
        intro _ hDown j hEmpty
        -- a pool that is shut down accepts nothing
        have hne : (u.1, j) ≠ (p, idx) := by
          intro hEq
          rw [congrArg Prod.fst hEq] at hDown
          exact hUp hDown
        exact (Function.update_of_ne hne ..).trans hEmpty
      · intro u hu
        obtain ⟨hEmpty, hTop⟩ := h.inRange u hu
        have hne : u ≠ (p, idx) := fun hEq => hu (hEq ▸ hIdx)
        exact ⟨(Function.update_of_ne hne ..).trans hEmpty, hTop⟩
  · split at hst
    · next hFree =>
      split at hst <;> cases hst
      · exact h
      · refine ⟨?_, h.shutdown, h.stop, h.joined, h.inRange⟩
        intro u
        refine (h.wait u).congr (fun _ => rfl) rfl ?_ (fun _ _ _ hEmpty => hEmpty)
        intro hHolds hEmpty
        have hne : u.1 ≠ p := by
          intro hEq
          rw [← hEq, mutex_of_holds (h.wait u) hHolds] at hFree
          cases hFree
        exact (Function.update_of_ne hne ..).trans hEmpty
    · cases hst

/-- The destructor of a pool sets the flag, while nobody holds the mutex. -/
theorem Sync.shutDown (h : Sync size s) (hFree : s.queueMutex p = none) :
    Sync size { s with
      isShutdown := Function.update s.isShutdown p true
      destructor := Function.update s.destructor p .notifyAll } := by
  have hMono : ∀ q, s.isShutdown q = true → Function.update s.isShutdown p true q = true := by
    intro q hq
    rcases update_at s.isShutdown p true q with ⟨-, hAt⟩ | ⟨-, hAt⟩ <;> rw [hAt]
    exact hq
  refine ⟨?_, ?_, fun w hw => hMono w.1 (h.stop w hw), ?_, h.inRange⟩
  · intro u
    by_cases hup : u.1 = p
    · have hNot : (s.pc u).holds = false := by
        refine Bool.eq_false_iff.mpr fun hHolds => ?_
        rw [← hup, mutex_of_holds (h.wait u) hHolds] at hFree
        cases hFree
      have hDown : Function.update s.isShutdown p true u.1 = true := by
        rw [hup, Function.update_self]
      show WaitOk _ u (s.pc u)
      cases hpc : s.pc u <;> rw [hpc] at hNot <;> trivial
    · have hSame : Function.update s.isShutdown p true u.1 = s.isShutdown u.1 :=
        Function.update_of_ne hup ..
      exact (h.wait u).congr (fun _ => rfl) hSame (fun _ hEmpty => hEmpty)
        (fun _ _ _ hEmpty => hEmpty)
  · intro q hq
    replace hq : Function.update s.destructor p .notifyAll q ≠ .alive := hq
    show Function.update s.isShutdown p true q = true
    rcases update_at s.destructor p .notifyAll q with ⟨rfl, -⟩ | ⟨-, hAt⟩
    · exact Function.update_self ..
    · exact hMono q (h.shutdown q (hAt ▸ hq))
  · intro q hq
    replace hq : Function.update s.destructor p .notifyAll q = .done := hq
    rcases update_at s.destructor p .notifyAll q with ⟨-, hAt⟩ | ⟨-, hAt⟩ <;> rw [hAt] at hq
    · cases hq
    · exact h.joined q hq

/-- After that the destructor goes on to `d`, and wakes workers on its way. -/
theorem Sync.goOn (h : Sync size s) (hFrame : WakeFrame s s') {d : Destructor}
    (hDestructor : s'.destructor = Function.update s.destructor p d)
    (hShutdown : s'.isShutdown = s.isShutdown) (hDown : s.isShutdown p = true)
    (hStop : ∀ w, s'.stopRequested w = true → s.isShutdown w.1 = true)
    (hJoined : d = .done → ∀ i, i < size p → s.pc (p, i) = .exited) : Sync size s' := by
  refine h.wake hFrame hShutdown ?_ hStop ?_
  · intro q hq
    rw [hDestructor] at hq
    rcases update_at s.destructor p d q with ⟨rfl, -⟩ | ⟨-, hAt⟩
    · exact hDown
    · exact h.shutdown q (hAt ▸ hq)
  · intro q hq
    rw [hDestructor] at hq
    rcases update_at s.destructor p d q with ⟨rfl, hAt⟩ | ⟨-, hAt⟩ <;> rw [hAt] at hq
    · exact hJoined hq
    · exact h.joined q hq

/-- The destructor sets the flag, wakes the workers and joins them in order. -/
theorem sync_destroy (h : Sync size s) (hst : destroy size s p = some s') : Sync size s' := by
  have hFrame := destroy_frame hst
  unfold destroy at hst
  split at hst
  · split at hst <;> cases hst
    next hFree => exact h.shutDown hFree
  · next hNotify =>
    cases hst
    have hDown := h.shutdown p (by simp [hNotify])
    refine h.goOn hFrame rfl rfl hDown h.stop ?_
    intro hDone
    cases hDone
  · next i hRequest =>
    cases hst
    have hDown := h.shutdown p (by simp [hRequest])
    refine h.goOn hFrame rfl rfl hDown ?_ ?_
    · intro u hu
      replace hu : Function.update s.stopRequested (p, i) true u = true := hu
      rcases update_at s.stopRequested (p, i) true u with ⟨rfl, -⟩ | ⟨-, hAt⟩
      · exact hDown
      · exact h.stop u (hAt ▸ hu)
    · intro hDone
      split at hDone <;> cases hDone
  · next hJoin =>
    split at hst <;> cases hst
    next hAll =>
    have hDown := h.shutdown p (by simp [hJoin])
    exact h.goOn hFrame rfl rfl hDown h.stop fun _ => hAll
  · cases hst

end

/-- A case for each action. -/
theorem sync_step (h : Sync size s) (hst : step size s a = some s') : Sync size s' := by
  cases a with
  | execute th p =>
    simp only [step] at hst
    split at hst
    · exact sync_execute h hst
    · cases hst
  | notify th p woken =>
    have hFrame := notify_frame hst
    simp only [step, notify] at hst
    split at hst
    · split at hst
      · split at hst <;> cases hst
        exact h.wake hFrame rfl h.shutdown h.stop h.joined
      · split at hst <;> cases hst
        exact h.wake hFrame rfl h.shutdown h.stop h.joined
    · cases hst
  | work w locked =>
    simp only [step] at hst
    split at hst
    · next hIn => exact sync_work h hIn hst
    · cases hst
  | wake w =>
    simp only [step] at hst
    split at hst <;> cases hst
    next hAsleep => exact h.wake (wake_frame hAsleep.2) rfl h.shutdown h.stop h.joined
  | destroy p => exact sync_destroy h hst

/-- In every run, also one with a condition. -/
theorem sync {ok : State ι τ → Action ι τ → Prop} {threadCount : ι → Nat}
    (h : (system τ threadCount).ReachableWhere ok s) :
    Sync (fun p => poolSize (threadCount p)) s :=
  h.invariant (I := Sync fun p => poolSize (threadCount p)) sync_init
    fun _ _ _ _ hI _ hst => sync_step hI hst

end EmbLinux.ThreadPool
