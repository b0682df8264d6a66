import EmbLinux.Lib.System
import Mathlib.Data.Nat.Notation

/-!
# EmbLinux — `ThreadSafeQueue`, a mutex-protected queue with a semaphore

Any number of threads call `push`, `try_pop`, `wait_and_pop` and `empty`. Each
region under `m_mutex`, each `m_sem.release` and each `m_sem.acquire` is one
step. `front()` and `pop()` on an empty `std::queue` are undefined behaviour:
the step that reaches them sets `fault`, and nothing runs after it.
-/

namespace EmbLinux.ThreadSafeQueue

-- ---------------------------------------------------------------------------
-- The threads
-- ---------------------------------------------------------------------------

/-- The public member functions. -/
inductive Operation (α : Type*)
  | push (value : α)
  | tryPop
  | waitAndPop
  | empty

/-- What a call returned. -/
inductive Result (α : Type*)
  | pushed
  | tryPopped (value : Option α)
  | popped (value : α)
  | isEmpty (answer : Bool)
  deriving DecidableEq

/-- Where a thread stands in the call it is running. -/
inductive Pc (α : Type*)
  | idle (result : Option (Result α))
  | pushLock (value : α)
  | pushRelease
  | tryPopLock
  | waitAcquire
  | waitLock
  | emptyLock
  deriving DecidableEq

/-- The queue, its semaphore, the threads, and the history of the locked
regions: `pushed` and `removed` in the order in which they ran. -/
structure State (τ α : Type*) where
  queue : List α
  permits : Nat
  pc : τ → Pc α
  fault : Bool
  pushed : List α
  removed : List α

/-- A thread calls an operation, or runs the next step of its call. -/
inductive Action (τ α : Type*)
  | call (t : τ) (op : Operation α)
  | run (t : τ)

variable {τ α : Type*} [DecidableEq τ]

/-- The first program point of each operation. -/
def Operation.start : Operation α → Pc α
  | .push value => .pushLock value
  | .tryPop => .tryPopLock
  | .waitAndPop => .waitAcquire
  | .empty => .emptyLock

/-- Thread `t` goes on at `pc`. -/
def State.setPc (s : State τ α) (t : τ) (pc : Pc α) : State τ α :=
  { s with pc := Function.update s.pc t pc }

-- ---------------------------------------------------------------------------
-- The steps
-- ---------------------------------------------------------------------------

/-- The next step of the call that thread `t` is running. -/
def run (s : State τ α) (t : τ) : Option (State τ α) :=
  match s.pc t with
  | .idle _ => none
  | .pushLock value =>
    some { s.setPc t .pushRelease with
      queue := s.queue ++ [value]
      pushed := s.pushed ++ [value] }
  -- `m_sem.release()`, after the mutex was unlocked
  | .pushRelease =>
    some { s.setPc t (.idle (some .pushed)) with permits := s.permits + 1 }
  -- `try_pop` looks at the queue only, not at the permits
  | .tryPopLock =>
    match s.queue with
    | [] => some (s.setPc t (.idle (some (.tryPopped none))))
    | value :: rest =>
      some { s.setPc t (.idle (some (.tryPopped (some value)))) with
        queue := rest
        removed := s.removed ++ [value] }
  | .waitAcquire =>
    -- `m_sem.acquire()` blocks while there is no permit
    if s.permits = 0 then none
    else some { s.setPc t .waitLock with permits := s.permits - 1 }
  | .waitLock =>
    match s.queue with
    -- `front()` on an empty `std::queue`
    | [] => some { s with fault := true }
    | value :: rest =>
      some { s.setPc t (.idle (some (.popped value))) with
        queue := rest
        removed := s.removed ++ [value] }
  | .emptyLock => some (s.setPc t (.idle (some (.isEmpty s.queue.isEmpty))))

/-- A call begins or a running one takes its next step; a program with undefined behaviour takes
none. -/
def step (s : State τ α) (a : Action τ α) : Option (State τ α) :=
  if s.fault then none
  else
    match a with
    | .call t op =>
      match s.pc t with
      | .idle _ => some (s.setPc t op.start)
      | _ => none
    | .run t => run s t

-- ---------------------------------------------------------------------------
-- The system
-- ---------------------------------------------------------------------------

/-- An empty queue without permits. -/
def init (τ α : Type*) : State τ α where
  queue := []
  permits := 0
  pc := fun _ => .idle none
  fault := false
  pushed := []
  removed := []

/-- The queue, under every interleaving. -/
def system (τ α : Type*) [DecidableEq τ] : System (State τ α) (Action τ α) where
  init := init τ α
  step := step

end EmbLinux.ThreadSafeQueue
