import EmbLinux.Lib.System
import Mathlib.Logic.Function.Basic

/-!
# EmbLinux — `JThreadPool`

The model of `JThreadPool`: any number of pools, each with its workers, and any
number of other threads. `execute` may be called on any pool by any of them, by a
worker while it runs a task. A step is one region under `m_queue_mutex` or under
the mutex of a local queue, one `notify_one`, or one test of the stop token.

`m_queue_mutex` is held over several steps only by a worker in its wait, so
`queueMutex` is the index of that worker. `std::condition_variable_any::wait` with
a stop token is written out: while no stop is requested it evaluates the
predicate, and if that is false it releases the mutex and blocks in one step; a
blocked worker is woken by a notification, by its stop request, or spuriously.

`tl_worker_index` is a variable of the thread: a worker has its index in its own
pool, whatever pool it calls `execute` on.

A task is the number of the `execute` call that it comes from. History that no
step reads: `accepted` are the tasks that a pool took, `submitted` and `popped`
those put into and taken from `m_task_queue`, in order, `invoked` and `finished`
the tasks whose call began and returned.
-/

namespace EmbLinux.ThreadPool

/-- The number of workers that `create` starts. -/
def poolSize (thread_count : Nat) : Nat :=
  if thread_count = 0 then 1 else thread_count

/-- A pool and the index of a worker in it. -/
abbrev Worker (ι : Type*) := ι × Nat

/-- A thread of the program, or a worker of a pool. -/
inductive Thread (ι τ : Type*)
  | external (t : τ)
  | worker (w : Worker ι)
  deriving DecidableEq

/-- `get_worker_index` -/
def Thread.workerIndex {ι τ : Type*} : Thread ι τ → Option Nat
  | .external _ => none
  | .worker w => some w.2

/-- Where a worker stands in `worker_loop`. `woken` is whether it tests the
predicate again after it was blocked. -/
inductive Pc
  | top
  | tryLocal
  | tryGlobal
  | steal (i : Nat)
  | taken (task : Nat)
  | running (task : Nat)
  | lock
  | test (woken : Bool)
  | pred (woken : Bool)
  | predLocal (woken : Bool)
  | block
  | asleep
  | relock
  | afterWait
  | scan (i : Nat) (all_empty : Bool)
  | exited
  deriving DecidableEq

/-- The worker is inside a task. -/
def Pc.isRunning : Pc → Bool
  | .running _ => true
  | _ => false

/-- Where the destructor of a pool stands. -/
inductive Destructor
  | alive
  | notifyAll
  | requestStop (i : Nat)
  | join
  | done
  deriving DecidableEq

/-- `notifying` are the `execute` calls between their region and `notify_one`. -/
structure State (ι τ : Type*) where
  taskQueue : ι → List Nat
  localQueues : Worker ι → List Nat
  isShutdown : ι → Bool
  queueMutex : ι → Option Nat
  stopRequested : Worker ι → Bool
  pc : Worker ι → Pc
  destructor : ι → Destructor
  notifying : List (Thread ι τ × ι)
  calls : Nat
  accepted : ι → List Nat
  submitted : ι → List Nat
  popped : ι → List Nat
  invoked : List Nat
  finished : ι → List Nat

/-- What happens next. `woken` is the worker that `notify_one` wakes, `locked`
whether `try_to_lock` gets the mutex. -/
inductive Action (ι τ : Type*)
  | execute (th : Thread ι τ) (p : ι)
  | notify (th : Thread ι τ) (p : ι) (woken : Option Nat)
  | work (w : Worker ι) (locked : Bool)
  | wake (w : Worker ι)
  | destroy (p : ι)

variable {ι τ : Type*} [DecidableEq ι] [DecidableEq τ]

-- ---------------------------------------------------------------------------
-- The worker loop
-- ---------------------------------------------------------------------------

/-- A worker goes on. -/
def State.setPc (s : State ι τ) (w : Worker ι) (pc : Pc) : State ι τ :=
  { s with pc := Function.update s.pc w pc }

/-- Releasing `m_queue_mutex`. -/
def State.unlock (s : State ι τ) (p : ι) : State ι τ :=
  { s with queueMutex := Function.update s.queueMutex p none }

/-- The queue that iteration `i` of the steal loop looks at. -/
def stealTarget (size : ι → Nat) (w : Worker ι) (i : Nat) : Worker ι :=
  (w.1, (w.2 + i + 1) % size w.1)

/-- No call of `execute` by the thread is under way. -/
def State.Notified (s : State ι τ) (th : Thread ι τ) : Prop :=
  ∀ e ∈ s.notifying, e.1 ≠ th

instance (s : State ι τ) (th : Thread ι τ) : Decidable (s.Notified th) :=
  inferInstanceAs (Decidable (∀ e ∈ s.notifying, e.1 ≠ th))

/-- The next step of worker `w`. -/
def work (size : ι → Nat) (s : State ι τ) (w : Worker ι) (locked : Bool) : Option (State ι τ) :=
  match s.pc w with
  | .top => some (s.setPc w (if s.stopRequested w then .exited else .tryLocal))
  | .tryLocal =>
    match s.localQueues w with
    | [] => some (s.setPc w .tryGlobal)
    | task :: rest =>
      some { s with
        localQueues := Function.update s.localQueues w rest
        pc := Function.update s.pc w (.taken task) }
  | .tryGlobal =>
    if s.queueMutex w.1 = none then
      match s.taskQueue w.1 with
      | [] => some (s.setPc w (.steal 0))
      | task :: rest =>
        some { s with
          taskQueue := Function.update s.taskQueue w.1 rest
          popped := Function.update s.popped w.1 (s.popped w.1 ++ [task])
          pc := Function.update s.pc w (.taken task) }
    else none
  | .steal i =>
    match if locked then (s.localQueues (stealTarget size w i)).getLast? else none with
    | some task =>
      some { s with
        localQueues := Function.update s.localQueues (stealTarget size w i)
          (s.localQueues (stealTarget size w i)).dropLast
        pc := Function.update s.pc w (.taken task) }
    | none => some (s.setPc w (if i + 1 < size w.1 then .steal (i + 1) else .lock))
  | .taken task =>
    some { s with
      invoked := s.invoked ++ [task]
      pc := Function.update s.pc w (.running task) }
  | .running task =>
    if s.Notified (.worker w) then
      some { s with
        finished := Function.update s.finished w.1 (s.finished w.1 ++ [task])
        pc := Function.update s.pc w .top }
    else none
  | .lock =>
    if s.queueMutex w.1 = none then
      some { s with
        queueMutex := Function.update s.queueMutex w.1 (some w.2)
        pc := Function.update s.pc w (.test false) }
    else none
  | .test woken => some (s.setPc w (if s.stopRequested w then .afterWait else .pred woken))
  | .pred woken =>
    some (s.setPc w
      (if s.isShutdown w.1 = true ∨ s.taskQueue w.1 ≠ [] then .afterWait else .predLocal woken))
  | .predLocal _ => some (s.setPc w (if s.localQueues w ≠ [] then .afterWait else .block))
  | .block =>
    if s.stopRequested w then some (s.setPc w .afterWait)
    else some ((s.unlock w.1).setPc w .asleep)
  | .asleep => none
  | .relock =>
    if s.queueMutex w.1 = none then
      some { s with
        queueMutex := Function.update s.queueMutex w.1 (some w.2)
        pc := Function.update s.pc w (.test true) }
    else none
  | .afterWait =>
    if s.isShutdown w.1 then some (s.setPc w (.scan 0 (s.taskQueue w.1).isEmpty))
    else some ((s.unlock w.1).setPc w .top)
  | .scan i all_empty =>
    match s.localQueues (w.1, i) with
    | [] =>
      if i + 1 < size w.1 then some (s.setPc w (.scan (i + 1) all_empty))
      else some ((s.unlock w.1).setPc w (if all_empty then .exited else .top))
    | _ :: _ => some ((s.unlock w.1).setPc w .top)
  | .exited => none

-- ---------------------------------------------------------------------------
-- `execute` and the destructor
-- ---------------------------------------------------------------------------

/-- The queue that `execute` on pool `p` pushes to. -/
def executeTarget (size : ι → Nat) (th : Thread ι τ) (p : ι) : Option Nat :=
  th.workerIndex.filter fun idx => decide (idx < size p)

/-- The thread can call `execute`: a worker does so while it runs a task. -/
def State.CanExecute (s : State ι τ) (size : ι → Nat) : Thread ι τ → Prop
  | .external _ => True
  | .worker w => w.2 < size w.1 ∧ (s.pc w).isRunning = true

instance (s : State ι τ) (size : ι → Nat) : DecidablePred (s.CanExecute size)
  | .external _ => inferInstanceAs (Decidable True)
  | .worker w => inferInstanceAs (Decidable (w.2 < size w.1 ∧ (s.pc w).isRunning = true))

/-- The region of `execute`. -/
def execute (size : ι → Nat) (s : State ι τ) (th : Thread ι τ) (p : ι) : Option (State ι τ) :=
  match executeTarget size th p with
  | some idx =>
    if s.isShutdown p then some s
    else
      some { s with
        localQueues := Function.update s.localQueues (p, idx)
          (s.localQueues (p, idx) ++ [s.calls])
        notifying := (th, p) :: s.notifying
        calls := s.calls + 1
        accepted := Function.update s.accepted p (s.accepted p ++ [s.calls]) }
  | none =>
    if s.queueMutex p = none then
      if s.isShutdown p then some s
      else
        some { s with
          taskQueue := Function.update s.taskQueue p (s.taskQueue p ++ [s.calls])
          notifying := (th, p) :: s.notifying
          calls := s.calls + 1
          accepted := Function.update s.accepted p (s.accepted p ++ [s.calls])
          submitted := Function.update s.submitted p (s.submitted p ++ [s.calls]) }
    else none

/-- `notify_one` wakes a blocked worker of the pool, if there is one. -/
def notify (size : ι → Nat) (s : State ι τ) (th : Thread ι τ) (p : ι) (woken : Option Nat) :
    Option (State ι τ) :=
  if (th, p) ∈ s.notifying then
    match woken with
    | some i =>
      if i < size p ∧ s.pc (p, i) = .asleep then
        some { s with
          notifying := s.notifying.erase (th, p)
          pc := Function.update s.pc (p, i) .relock }
      else none
    | none =>
      if ∀ i < size p, s.pc (p, i) ≠ .asleep then
        some { s with notifying := s.notifying.erase (th, p) }
      else none
  else none

/-- The next step of `~JThreadPool`. -/
def destroy (size : ι → Nat) (s : State ι τ) (p : ι) : Option (State ι τ) :=
  match s.destructor p with
  | .alive =>
    if s.queueMutex p = none then
      some { s with
        isShutdown := Function.update s.isShutdown p true
        destructor := Function.update s.destructor p .notifyAll }
    else none
  | .notifyAll =>
    some { s with
      pc := fun w => if w.1 = p ∧ s.pc w = .asleep then .relock else s.pc w
      destructor := Function.update s.destructor p (.requestStop 0) }
  | .requestStop i =>
    some { s with
      stopRequested := Function.update s.stopRequested (p, i) true
      pc := if s.pc (p, i) = .asleep then Function.update s.pc (p, i) .relock else s.pc
      destructor := Function.update s.destructor p
        (if i + 1 < size p then .requestStop (i + 1) else .join) }
  | .join =>
    if ∀ i < size p, s.pc (p, i) = .exited then
      some { s with destructor := Function.update s.destructor p .done }
    else none
  | .done => none

/-- A thread notifies what it has submitted before it submits again; only the workers that a
pool has take steps. -/
def step (size : ι → Nat) (s : State ι τ) : Action ι τ → Option (State ι τ)
  | .execute th p => if s.Notified th ∧ s.CanExecute size th then execute size s th p else none
  | .notify th p woken => notify size s th p woken
  | .work w locked => if w.2 < size w.1 then work size s w locked else none
  | .wake w =>
    if w.2 < size w.1 ∧ s.pc w = .asleep then some (s.setPc w .relock) else none
  | .destroy p => destroy size s p

/-- Empty queues, and all workers at the top of their loops. -/
def init (ι τ : Type*) : State ι τ where
  taskQueue := fun _ => []
  localQueues := fun _ => []
  isShutdown := fun _ => false
  queueMutex := fun _ => none
  stopRequested := fun _ => false
  pc := fun _ => .top
  destructor := fun _ => .alive
  notifying := []
  calls := 0
  accepted := fun _ => []
  submitted := fun _ => []
  popped := fun _ => []
  invoked := []
  finished := fun _ => []

/-- Pools that were created for the given thread counts. -/
def system (τ : Type*) {ι : Type*} [DecidableEq ι] [DecidableEq τ] (threadCount : ι → Nat) :
    System (State ι τ) (Action ι τ) where
  init := init ι τ
  step := step fun p => poolSize (threadCount p)

end EmbLinux.ThreadPool
