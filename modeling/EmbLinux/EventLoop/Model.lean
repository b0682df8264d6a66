import EmbLinux.Lib.System
import Mathlib.Logic.Function.Basic

/-!
# EmbLinux — `EventLoop`

The model of `EventLoop::register_timer` and `EventLoop::poll`. Any number of
threads register coroutines, each with a timer fd of its own; one thread polls,
again and again; a timer expires at any moment. A step is one system call or one
region under `mtx`.

The kernel's side is `interest` and `expired`. An fd is added with
`EPOLLONESHOT`: `epoll_wait` reports it once, while it is readable, and the
report disables it. A coroutine that `poll` resumes runs outside the model; the
timers that it registers are registrations like any other.

`resumed` is history: the fds whose event made `poll` resume their coroutine.
-/

namespace EmbLinux.EventLoop

/-- The length of the array that `poll` gives to `epoll_wait`. -/
def kMaxEvents : Nat := 16

/-- What the epoll set has for an fd. -/
inductive Interest
  | absent
  | armed
  | disabled
  deriving DecidableEq

/-- The call of `register_timer` for an fd. -/
inductive Registration (χ : Type*)
  | notYet
  -- between `EPOLL_CTL_ADD` and the region
  | inserting (coro : χ)
  | returned (coro : χ)
  -- `EPOLL_CTL_ADD` failed
  | threw
  deriving DecidableEq

/-- Where `poll` stands; `events` is what is left of its array. -/
inductive Poll (φ χ : Type*)
  | idle
  | lookup (events : List φ)
  | reading (fd : φ) (coro : χ) (events : List φ)
  | deleting (fd : φ) (coro : χ) (events : List φ)
  | resuming (fd : φ) (coro : χ) (events : List φ)
  deriving DecidableEq

/-- The epoll set, the timers' clocks, the map `m_timers` and the thread in `poll`. -/
structure State (φ χ : Type*) where
  interest : φ → Interest
  expired : φ → Bool
  timers : φ → Option χ
  registration : φ → Registration χ
  poll : Poll φ χ
  resumed : φ → Bool

/-- What happens next. `add` and `insert` are the two halves of `register_timer`;
`ok` is whether `epoll_ctl` succeeds. `wait` is `epoll_wait`, with the fds that it
reports: none when it times out or fails. `poll` is the next step on the array. -/
inductive Action (φ χ : Type*)
  | expire (fd : φ)
  | add (fd : φ) (coro : χ) (ok : Bool)
  | insert (fd : φ)
  | wait (events : List φ)
  | poll

variable {φ χ : Type*} [DecidableEq φ]

/-- `epoll_wait` may report these fds. -/
def State.Reports (s : State φ χ) (events : List φ) : Prop :=
  events.Nodup ∧ events.length ≤ kMaxEvents ∧
    ∀ fd ∈ events, s.interest fd = .armed ∧ s.expired fd = true

instance (s : State φ χ) (events : List φ) : Decidable (s.Reports events) :=
  inferInstanceAs (Decidable (_ ∧ _ ∧ _))

/-- The end of a turn of the loop over the array. -/
def nextEvent : List φ → Poll φ χ
  | [] => .idle
  | fd :: events => .lookup (fd :: events)

/-- The next step of `poll` after `epoll_wait`. -/
def pollStep (s : State φ χ) : Option (State φ χ) :=
  match s.poll with
  | .idle => none
  | .lookup [] => none
  | .lookup (fd :: events) =>
    match s.timers fd with
    | none => some { s with poll := nextEvent events }
    | some coro =>
      some { s with
        timers := Function.update s.timers fd none
        poll := .reading fd coro events }
  | .reading fd coro events =>
    some { s with
      expired := Function.update s.expired fd false
      poll := .deleting fd coro events }
  | .deleting fd coro events =>
    some { s with
      interest := Function.update s.interest fd .absent
      poll := .resuming fd coro events }
  | .resuming fd _ events =>
    some { s with
      resumed := Function.update s.resumed fd true
      poll := nextEvent events }

/-- One step of a thread that registers, of the clock, or of the thread in `poll`. -/
def step (s : State φ χ) : Action φ χ → Option (State φ χ)
  | .expire fd => some { s with expired := Function.update s.expired fd true }
  | .add fd coro ok =>
    match s.registration fd with
    | .notYet =>
      -- `EEXIST` when the fd is in the set already
      if ok = true ∧ s.interest fd = .absent then
        some { s with
          interest := Function.update s.interest fd .armed
          registration := Function.update s.registration fd (.inserting coro) }
      else some { s with registration := Function.update s.registration fd .threw }
    | _ => none
  | .insert fd =>
    match s.registration fd with
    | .inserting coro =>
      some { s with
        timers := Function.update s.timers fd (some coro)
        registration := Function.update s.registration fd (.returned coro) }
    | _ => none
  | .wait events =>
    match s.poll with
    | .idle =>
      if s.Reports events then
        some { s with
          interest := fun fd => if fd ∈ events then .disabled else s.interest fd
          poll := nextEvent events }
      else none
    | _ => none
  | .poll => pollStep s

/-- A new loop. -/
def init (φ χ : Type*) : State φ χ where
  interest := fun _ => .absent
  expired := fun _ => false
  timers := fun _ => none
  registration := fun _ => .notYet
  poll := .idle
  resumed := fun _ => false

/-- The loop, under every interleaving. -/
def system (φ χ : Type*) [DecidableEq φ] : System (State φ χ) (Action φ χ) where
  init := init φ χ
  step := step

end EmbLinux.EventLoop
