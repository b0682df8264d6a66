import EmbLinux.Lib.System
import Mathlib.Logic.Function.Basic

/-!
# EmbLinux — `Channel`

The model of `Channel<T, Capacity>`. Coroutines run on threads: a thread has a
stack of the coroutines that it is running, innermost first, and `resume` puts a
coroutine on top of the one that calls it, until it suspends or ends. A
coroutine below the top waits for that call to return.

A step is one region of `Channel` under its `Spinlock`, one call of `resume`, or
one move of a coroutine outside the channel: it starts, ends, or begins a
`co_await send` or `co_await receive`.

History that no step reads:

* a value travels with the coroutine that sent it;
* `sent` lists the values in the order in which their sends began, `delivered`
  those taken out of `m_queue`, with the receiver;
* `parks` and `resumes` count, for each coroutine, how often it went into a
  waiter queue and how often it was resumed.

`fault` is undefined behaviour: `front()` on an empty `m_queue`, or `resume` of
a coroutine that is not suspended. A faulty run stops.
-/

namespace EmbLinux.Channel

-- ---------------------------------------------------------------------------
-- Coroutines and threads
-- ---------------------------------------------------------------------------

/-- Where a coroutine stands.

`sendReady`, `recvReady`: before the region of `await_ready`; `sendSuspend`,
`recvSuspend`: `await_ready` returned false; `…Parked`: in a waiter queue;
`…Woken`: taken out of it, not yet resumed; `recvResume`: before the region of
`await_resume`; `resuming w`: out of a region with `to_resume = w`. -/
inductive Co (κ α : Type*)
  | unstarted
  | running (received : Option α)
  | sendReady (value : α)
  | sendSuspend (value : α)
  | sendParked
  | sendWoken
  | recvReady
  | recvSuspend
  | recvParked
  | recvWoken
  | recvResume
  | resuming (received : Option α) (w : κ)
  | done
  deriving DecidableEq

/-- The coroutine is executing its own body. -/
def Co.isRunning {κ α : Type*} : Co κ α → Bool
  | .running _ => true
  | _ => false

/-- The members of the channel, where each coroutine stands, and the coroutines on the stack of
each thread, the running one on top. -/
structure State (τ κ α : Type*) where
  /-- `m_queue`, `m_send_waiters` and `m_recv_waiters`, with the sender of each value. -/
  queue : List (κ × α)
  sendWaiters : List (κ × α)
  recvWaiters : List κ
  co : κ → Co κ α
  stack : τ → List κ
  /-- A `front()` or `pop()` of an empty buffer has happened. -/
  fault : Bool
  /-- History: the values passed to `send`, those that left the buffer and for whom, and how
  often each coroutine was suspended and resumed. -/
  sent : List (κ × α)
  delivered : List (κ × (κ × α))
  parks : κ → Nat
  resumes : κ → Nat

/-- What a thread does next; `run` goes on with the channel operation of the
coroutine on top. -/
inductive Action (τ κ α : Type*)
  | start (t : τ) (k : κ)
  | send (t : τ) (value : α)
  | receive (t : τ)
  | finish (t : τ)
  | run (t : τ)

variable {τ κ α : Type*} [DecidableEq τ] [DecidableEq κ]

-- ---------------------------------------------------------------------------
-- The regions under the spinlock
-- ---------------------------------------------------------------------------

def State.setCo (s : State τ κ α) (k : κ) (c : Co κ α) : State τ κ α :=
  { s with co := Function.update s.co k c }

def State.setStack (s : State τ κ α) (t : τ) (ks : List κ) : State τ κ α :=
  { s with stack := Function.update s.stack t ks }

/-- The coroutine on top of the thread's stack, if it is running its own code. -/
def State.runningTop (s : State τ κ α) (t : τ) : Option κ :=
  match s.stack t with
  | [] => none
  | k :: _ => if (s.co k).isRunning then some k else none

/-- The region of the sender's `await_ready`. -/
def State.sendRegion (Capacity : Nat) (s : State τ κ α) (k : κ) (value : α) : State τ κ α :=
  if s.queue.length < Capacity then
    match s.recvWaiters with
    | [] => { s.setCo k (.running none) with queue := s.queue ++ [(k, value)] }
    -- `to_resume = m_recv_waiters.front()`
    | w :: ws =>
      { (s.setCo w .recvWoken).setCo k (.resuming none w) with
        queue := s.queue ++ [(k, value)]
        recvWaiters := ws }
  else
    s.setCo k (.sendSuspend value)

/-- `m_queue.front()` and what follows it, in the regions of the receiver's
`await_ready` and `await_resume`; `none` when `m_queue` is empty. -/
def State.takeFront (s : State τ κ α) (k : κ) : Option (State τ κ α) :=
  match s.queue with
  | [] => none
  | x :: rest =>
    match s.sendWaiters with
    | [] =>
      some { s.setCo k (.running (some x.2)) with
        queue := rest
        delivered := s.delivered ++ [(k, x)] }
    -- the value of the first parked sender takes the free place
    | (w, value) :: ws =>
      some { (s.setCo w .sendWoken).setCo k (.resuming (some x.2) w) with
        queue := rest ++ [(w, value)]
        sendWaiters := ws
        delivered := s.delivered ++ [(k, x)] }

-- ---------------------------------------------------------------------------
-- Resuming and suspending
-- ---------------------------------------------------------------------------

/-- `to_resume.resume()`: the coroutine goes on after its `co_await`. -/
def State.resume (s : State τ κ α) (t : τ) (k : κ) (received : Option α) (w : κ) : State τ κ α :=
  let go (c : Co κ α) : State τ κ α :=
    { ((s.setCo w c).setCo k (.running received)).setStack t (w :: s.stack t) with
      resumes := Function.update s.resumes w (s.resumes w + 1) }
  match s.co w with
  | .sendWoken => go (.running none)
  | .recvWoken => go .recvResume
  | _ => { s with fault := true }

/-- The coroutine `k` suspends in a waiter queue, and `resume` returns. -/
def State.park (s : State τ κ α) (t : τ) (k : κ) (rest : List κ) (c : Co κ α) : State τ κ α :=
  { (s.setCo k c).setStack t rest with
    parks := Function.update s.parks k (s.parks k + 1) }

-- ---------------------------------------------------------------------------
-- The steps
-- ---------------------------------------------------------------------------

/-- The next step of the channel operation of `k`, on top of `rest`. -/
def run (Capacity : Nat) (s : State τ κ α) (t : τ) (k : κ) (rest : List κ) :
    Option (State τ κ α) :=
  match s.co k with
  | .sendReady value => some (s.sendRegion Capacity k value)
  -- `await_suspend` does not look at `m_queue` again
  | .sendSuspend value =>
    some { s.park t k rest .sendParked with sendWaiters := s.sendWaiters ++ [(k, value)] }
  | .recvReady =>
    match s.takeFront k with
    -- an empty `m_queue`: `await_ready` returns false
    | none => some (s.setCo k .recvSuspend)
    | some s' => some s'
  | .recvSuspend =>
    some { s.park t k rest .recvParked with recvWaiters := s.recvWaiters ++ [k] }
  | .recvResume =>
    match s.takeFront k with
    -- `await_resume` does not test for an empty `m_queue`
    | none => some { s with fault := true }
    | some s' => some s'
  | .resuming received w => some (s.resume t k received w)
  | _ => none

/-- A step of the coroutine on top of a thread's stack: one of its own, or one region of the
channel's code. -/
def step (Capacity : Nat) (s : State τ κ α) (a : Action τ κ α) : Option (State τ κ α) :=
  if s.fault then none
  else
    match a with
    | .start t k =>
      match s.co k with
      | .unstarted =>
        -- from outside of all coroutines, or by the one that runs on top
        if (s.stack t).isEmpty || (s.runningTop t).isSome then
          some ((s.setCo k (.running none)).setStack t (k :: s.stack t))
        else none
      | _ => none
    | .send t value =>
      match s.runningTop t with
      | none => none
      | some k => some { s.setCo k (.sendReady value) with sent := s.sent ++ [(k, value)] }
    | .receive t =>
      match s.runningTop t with
      | none => none
      | some k => some (s.setCo k .recvReady)
    | .finish t =>
      match s.runningTop t with
      | none => none
      | some k => some ((s.setCo k .done).setStack t (s.stack t).tail)
    | .run t =>
      match s.stack t with
      | [] => none
      | k :: rest => run Capacity s t k rest

/-- An empty channel, and no coroutine started. -/
def init (τ κ α : Type*) : State τ κ α where
  queue := []
  sendWaiters := []
  recvWaiters := []
  co := fun _ => .unstarted
  stack := fun _ => []
  fault := false
  sent := []
  delivered := []
  parks := fun _ => 0
  resumes := fun _ => 0

/-- A channel with no coroutine started. -/
def system (τ κ α : Type*) [DecidableEq τ] [DecidableEq κ] (Capacity : Nat) :
    System (State τ κ α) (Action τ κ α) where
  init := init τ κ α
  step := step Capacity

end EmbLinux.Channel
