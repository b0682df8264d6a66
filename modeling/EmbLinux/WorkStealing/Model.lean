import EmbLinux.Lib.System
import Mathlib.Logic.Function.Basic

/-!
# EmbLinux — the work-stealing `thread_pool`

Any number of pools with their workers, and any number of other threads. A step is one
region under the mutex of a queue, one access to `done`, or one step of a constructor or
destructor. A thread has a stack of what it is in: a task that it runs may call
`run_pending_task` again, as one that waits for a future does.

`local_work_queue` and `my_index` are static variables of the thread: a worker keeps its own
queue and index whatever pool it calls `submit` or `run_pending_task` on, and the other
threads have a null pointer and index 0.

A task is the number of the `submit` call that it comes from; `submitted` has the thread and
the pool of that call. `invoked` lists the tasks whose call began, `finished` those that
returned, and `dropped` those that a destructor destroyed in a queue. No step reads them.

The header does not define `thread_safe_queue` and `join_threads`. They are parameters of the
model, in `Outside`; `Outside.Documented` is what the results ask of them, as the notes beside
the header describe them: a shared queue to which a task is pushed and from which it is
retrieved, and a wrapper whose destructor joins its threads. No order of the shared queue is
assumed.

The constructor extends the vector `queues` while the workers that it has started read it:
`Race`. Nothing can be said of a run in which that happens, so the results about tasks are
about the runs in which no worker takes a step while the constructor of its pool is running:
`Late`.
-/

namespace EmbLinux.WorkStealing

/-- A pool and the index of a worker in it. -/
abbrev Worker (ι : Type*) := ι × Nat

/-- A thread of the program, or a worker of a pool. -/
inductive Thread (ι τ : Type*)
  | external (t : τ)
  | worker (w : Worker ι)
  deriving DecidableEq

section

variable {ι τ : Type*}

/-- `local_work_queue`: a worker has its own queue in it, the other threads a null pointer. -/
def Thread.localWorkQueue : Thread ι τ → Option (Worker ι)
  | .external _ => none
  | .worker w => some w

/-- `my_index` -/
def Thread.myIndex : Thread ι τ → Nat
  | .external _ => 0
  | .worker w => w.2

end

/-- Where a call of `run_pending_task` stands, or the task that a call invoked. -/
inductive Frame (ι : Type*)
  | popLocal (p : ι)
  | popPool (p : ι)
  | steal (p : ι) (i : Nat)
  | task (n : Nat)
  deriving DecidableEq

/-- Where a worker stands in `worker_thread`. -/
inductive Loop
  | notStarted
  | enter
  | loop
  | exited
  deriving DecidableEq

/-- Where the constructor or the destructor of a pool stands. `joining` is after
`done = true`, `clear i` at the destruction of queue `i`. -/
inductive Life
  | constructing
  | alive
  | joining
  | clear (i : Nat)
  | gone
  deriving DecidableEq

/-- What the pools get from outside: `hardware_concurrency`, the class `thread_safe_queue` with
the states `ω` and the destructor of `join_threads`. -/
structure Outside (ι ω : Type*) where
  /-- What `hardware_concurrency` returns to the constructor of each pool. -/
  size : ι → Nat
  empty : ω
  push : ω → Nat → ω
  /-- A task and what is left, or `none` for `false`. -/
  tryPop : ω → Option (Nat × ω)
  /-- The next task that the destructor of the queue destroys, and what is left. -/
  destroyNext : ω → Option (Nat × ω)
  /-- Whether the destructor of `join_threads` returns, given the number of threads in its
  vector and which of them have ended. -/
  joined : Nat → (Nat → Bool) → Bool

/-- The notes' account of the two classes; `tasks` are the tasks in a queue, in any order. -/
structure Outside.Documented {ι ω : Type*} (o : Outside ι ω) (tasks : ω → List Nat) : Prop where
  empty : tasks o.empty = []
  /-- `push` adds the task, -/
  push : ∀ q n, (tasks (o.push q n)).Perm (n :: tasks q)
  /-- `try_pop` gives one of the tasks, -/
  tryPop_some : ∀ q n q', o.tryPop q = some (n, q') → (tasks q).Perm (n :: tasks q')
  /-- unless there are none. -/
  tryPop_none : ∀ q, o.tryPop q = none → tasks q = []
  /-- The destructor of the queue destroys the tasks that are left, one by one. -/
  destroyNext_some : ∀ q n q', o.destroyNext q = some (n, q') → (tasks q).Perm (n :: tasks q')
  destroyNext_none : ∀ q, o.destroyNext q = none → tasks q = []
  /-- The joiner waits for every thread of the vector. -/
  joined : ∀ threads ended, o.joined threads ended = true → ∀ i < threads, ended i = true

/-- The members of all pools and where their threads stand. -/
structure State (ι τ ω : Type*) where
  /-- The queue of each worker, with its front first. -/
  queues : Worker ι → List Nat
  /-- `pool_work_queue` -/
  poolWorkQueue : ι → ω
  /-- The lengths of `queues` and `threads`. -/
  built : ι → Nat
  started : ι → Nat
  /-- `done` -/
  done : ι → Bool
  /-- Where the constructor or the destructor stands. -/
  life : ι → Life
  /-- Where a worker stands in `worker_thread`, and the calls each thread is in, innermost
  first. -/
  loop : Worker ι → Loop
  stack : Thread ι τ → List (Frame ι)
  submitted : List (Thread ι τ × ι)
  invoked : List Nat
  finished : List Nat
  dropped : List Nat

/-- What happens next: a step of a constructor, its exception, a call of `submit` or of
`run_pending_task`, a step of a thread, or a step of a destructor. -/
inductive Action (ι τ : Type*)
  | construct (p : ι)
  | fail (p : ι)
  | submit (th : Thread ι τ) (p : ι)
  | call (th : Thread ι τ) (p : ι)
  | run (th : Thread ι τ)
  | destroy (p : ι)

variable {ι τ ω : Type*} [DecidableEq ι] [DecidableEq τ]

-- ---------------------------------------------------------------------------
-- The threads
-- ---------------------------------------------------------------------------

def State.setStack (s : State ι τ ω) (th : Thread ι τ) (stack : List (Frame ι)) : State ι τ ω :=
  { s with stack := Function.update s.stack th stack }

def State.setLoop (s : State ι τ ω) (w : Worker ι) (l : Loop) : State ι τ ω :=
  { s with loop := Function.update s.loop w l }

/-- A thread has taken task `n` and invokes it. -/
def State.invoke (s : State ι τ ω) (th : Thread ι τ) (rest : List (Frame ι)) (n : Nat) :
    State ι τ ω :=
  { s.setStack th (.task n :: rest) with invoked := s.invoked ++ [n] }

/-- The queue that iteration `i` of `pop_task_from_other_thread_queue` looks at. -/
def State.victim (s : State ι τ ω) (th : Thread ι τ) (p : ι) (i : Nat) : Worker ι :=
  (p, (th.myIndex + i + 1) % s.built p)

/-- The next step of a thread. -/
def run (o : Outside ι ω) (s : State ι τ ω) (th : Thread ι τ) : Option (State ι τ ω) :=
  match s.stack th with
  | [] =>
    match th with
    | .external _ => none
    | .worker w =>
      match s.loop w with
      | .notStarted | .exited => none
      | .enter => some (s.setLoop w .loop)
      | .loop =>
        if s.done w.1 then some (s.setLoop w .exited)
        else some (s.setStack th [.popLocal w.1])
  | .popLocal p :: rest =>
    match th.localWorkQueue with
    | none => some (s.setStack th (.popPool p :: rest))
    | some w =>
      match s.queues w with
      | [] => some (s.setStack th (.popPool p :: rest))
      | front :: others =>
        some { s.invoke th rest front with queues := Function.update s.queues w others }
  | .popPool p :: rest =>
    match o.tryPop (s.poolWorkQueue p) with
    | none => some (s.setStack th (.steal p 0 :: rest))
    | some (task, others) =>
      some { s.invoke th rest task with
        poolWorkQueue := Function.update s.poolWorkQueue p others }
  | .steal p i :: rest =>
    if i < s.built p then
      match (s.queues (s.victim th p i)).getLast? with
      | none => some (s.setStack th (.steal p (i + 1) :: rest))
      | some back =>
        some { s.invoke th rest back with
          queues := Function.update s.queues (s.victim th p i)
            (s.queues (s.victim th p i)).dropLast }
    else some (s.setStack th rest)
  | .task n :: rest => some { s.setStack th rest with finished := s.finished ++ [n] }

/-- The thread is not inside the pools, or in a task. -/
def State.Free (s : State ι τ ω) (th : Thread ι τ) : Prop :=
  (s.stack th = [] ∧ th.localWorkQueue = none) ∨ ∃ n rest, s.stack th = .task n :: rest

/-- The pool is constructed and its members are not destroyed yet. -/
def Life.isOpen : Life → Bool
  | .alive | .joining => true
  | _ => false

/-- `submit`, which puts the next task into a queue. -/
def State.submit (o : Outside ι ω) (s : State ι τ ω) (th : Thread ι τ) (p : ι) : State ι τ ω :=
  let task := s.submitted.length
  let s := { s with submitted := s.submitted ++ [(th, p)] }
  match th.localWorkQueue with
  | some w => { s with queues := Function.update s.queues w (task :: s.queues w) }
  | none =>
    { s with
      poolWorkQueue := Function.update s.poolWorkQueue p (o.push (s.poolWorkQueue p) task) }

-- ---------------------------------------------------------------------------
-- The pools
-- ---------------------------------------------------------------------------

def State.setLife (s : State ι τ ω) (p : ι) (life : Life) : State ι τ ω :=
  { s with life := Function.update s.life p life }

/-- A step of the constructor: it pushes a queue, starts the thread for it, or returns. -/
def construct (o : Outside ι ω) (s : State ι τ ω) (p : ι) : Option (State ι τ ω) :=
  if s.life p = .constructing then
    if s.started p < s.built p then
      some { s.setLoop (p, s.started p) .enter with
        started := Function.update s.started p (s.started p + 1) }
    else if s.built p < o.size p then
      some { s with built := Function.update s.built p (s.built p + 1) }
    else some (s.setLife p .alive)
  else none

/-- `done = true`, and then the members are destroyed. -/
def State.stop (s : State ι τ ω) (p : ι) : State ι τ ω :=
  { s.setLife p .joining with done := Function.update s.done p true }

/-- An exception of `new` or `std::thread` in the constructor. -/
def fail (o : Outside ι ω) (s : State ι τ ω) (p : ι) : Option (State ι τ ω) :=
  if s.life p = .constructing ∧ (s.started p < s.built p ∨ s.built p < o.size p) then
    some (s.stop p)
  else none

/-- A step of the destructor: it sets `done`, and then the members are destroyed, the joiner
first. -/
def destroy (o : Outside ι ω) (s : State ι τ ω) (p : ι) : Option (State ι τ ω) :=
  match s.life p with
  | .constructing | .gone => none
  | .alive => some (s.stop p)
  | .joining =>
    if o.joined (s.started p) (fun i => s.loop (p, i) = .exited) then
      some (s.setLife p (.clear 0))
    else none
  | .clear i =>
    if i < s.built p then
      match s.queues (p, i) with
      | [] => some (s.setLife p (.clear (i + 1)))
      | task :: others =>
        some { s with
          queues := Function.update s.queues (p, i) others
          dropped := s.dropped ++ [task] }
    else
      match o.destroyNext (s.poolWorkQueue p) with
      | none => some (s.setLife p .gone)
      | some (task, others) =>
        some { s with
          poolWorkQueue := Function.update s.poolWorkQueue p others
          dropped := s.dropped ++ [task] }

instance (s : State ι τ ω) (th : Thread ι τ) : Decidable (s.Free th) :=
  match hStack : s.stack th with
  | [] =>
    decidable_of_iff (th.localWorkQueue = none) (by simp [State.Free, hStack])
  | .task n :: rest => isTrue (Or.inr ⟨n, rest, hStack⟩)
  | .popLocal p :: rest | .popPool p :: rest | .steal p i :: rest =>
    isFalse (by simp [State.Free, hStack])

/-- A thread calls a pool while it is between two of its own steps and the pool is not being
destroyed. -/
def step (o : Outside ι ω) (s : State ι τ ω) : Action ι τ → Option (State ι τ ω)
  | .construct p => construct o s p
  | .fail p => fail o s p
  | .submit th p =>
    if s.Free th ∧ (s.life p).isOpen = true then some (s.submit o th p) else none
  | .call th p =>
    if s.Free th ∧ (s.life p).isOpen = true then
      some (s.setStack th (.popLocal p :: s.stack th))
    else none
  | .run th => run o s th
  | .destroy p => destroy o s p

/-- The pools before their constructors, which may run in any order and at any time. -/
def system (o : Outside ι ω) : System (State ι τ ω) (Action ι τ) where
  init := {
    queues := fun _ => []
    poolWorkQueue := fun _ => o.empty
    built := fun _ => 0
    started := fun _ => 0
    done := fun _ => false
    life := fun _ => .constructing
    loop := fun _ => .notStarted
    stack := fun _ => []
    submitted := []
    invoked := []
    finished := []
    dropped := [] }
  step := step o

/-- The constructor is at `queues.push_back`, and a worker of the pool at a read of the
vector `queues`. -/
def Race (o : Outside ι ω) (s : State ι τ ω) (p : ι) : Prop :=
  s.life p = .constructing ∧ s.started p = s.built p ∧ s.built p < o.size p ∧
    ∃ i, s.loop (p, i) = .enter ∨ ∃ k rest, s.stack (.worker (p, i)) = .steal p k :: rest

/-- No worker takes a step while the constructor of its pool is running. -/
def Late (s : State ι τ ω) (a : Action ι τ) : Prop :=
  ∀ w, a = .run (.worker w) → s.life w.1 ≠ .constructing

instance (s : State ι τ ω) (a : Action ι τ) : Decidable (Late s a) :=
  match a with
  | .run (.worker w) =>
    decidable_of_iff (s.life w.1 ≠ .constructing) (by simp [Late])
  | .run (.external _) | .construct _ | .fail _ | .submit _ _ | .call _ _ | .destroy _ =>
    isTrue fun w h => by simp at h

end EmbLinux.WorkStealing
