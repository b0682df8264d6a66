import EmbLinux.EventLoop.Model

/-!
# EmbLinux — `Task`s that wait for an `AsyncTimer`

The model of one thread that creates timers, awaits them, polls the `EventLoop` and destroys
`Task`s whose coroutines are suspended. The code below all coroutines, and every coroutine
that runs, may do all of this, so `poll` may run inside a coroutine that `poll` resumed.

A timer expires at any moment while it is in the epoll set. The kernel drops a closed fd from
the set and may give its number to the next timer; neither touches `timers`, nor the events
that `epoll_wait` has returned.

`Event.timer`, `touched` and `misfired` are history: whose expiry an event is, whether
`resume` was called on a coroutine that cannot be resumed, and whether one was resumed for the
expiry of a timer that it does not await.
-/

namespace EmbLinux.TimerTasks

open EventLoop (Interest kMaxEvents)

/-- Where a coroutine stands: it may be resumed from elsewhere, it is on the stack, it awaits
an `AsyncTimer`, or its `Task` destroyed it. -/
inductive Co (ι : Type*)
  | idle
  | running
  | awaiting (i : ι)
  | destroyed
  deriving DecidableEq

/-- An `AsyncTimer`, with its `m_fd`; `home` is the coroutine whose frame it is in, if any. -/
inductive Timer (κ : Type*)
  | unborn
  | opened (fd : Nat) (home : Option κ)
  | closed (fd : Nat)
  deriving DecidableEq

/-- An entry of the array `events`: the fd, and the timer whose file it was when the kernel
reported it. -/
structure Event (ι : Type*) where
  fd : Nat
  timer : ι
  deriving DecidableEq

/-- A call on the stack of the thread: a coroutine, or `poll` with what is left of its
array. -/
inductive Frame (κ ι : Type*)
  | coroutine (k : κ)
  | poll (events : List (Event ι))
  deriving DecidableEq

/-- `files` is the table of open file descriptors. -/
structure State (κ ι : Type*) where
  stack : List (Frame κ ι)
  co : κ → Co ι
  timer : ι → Timer κ
  files : Nat → Option ι
  interest : Nat → Interest
  timers : Nat → Option κ
  touched : Bool
  misfired : Bool

/-- What the code that runs does next. `enter` resumes or starts a coroutine; `leave` suspends
or ends the one that runs, for another one or for the code below. `handle` is a turn of the
loop of `poll`, or its return. -/
inductive Action (κ ι : Type*)
  | create (i : ι) (fd : Nat) (home : Option κ)
  | await (i : ι)
  | close (i : ι)
  | enter (k : κ)
  | leave (next : Option κ)
  | destroy (k : κ)
  | poll (events : List (Event ι))
  | handle
  deriving DecidableEq

variable {κ ι : Type*} [DecidableEq κ] [DecidableEq ι]

-- ---------------------------------------------------------------------------
-- The stack
-- ---------------------------------------------------------------------------

/-- The coroutine that runs. -/
def State.current? (s : State κ ι) : Option κ :=
  match s.stack with
  | .coroutine k :: _ => some k
  | _ => none

/-- Code runs, and not `poll`. -/
def State.CodeRuns (s : State κ ι) : Prop :=
  s.stack = [] ∨ s.current?.isSome = true

instance codeRunsDecidable (s : State κ ι) : Decidable s.CodeRuns :=
  inferInstanceAs (Decidable (_ ∨ _))

/-- A coroutine that is suspended elsewhere goes on. -/
def State.enter (s : State κ ι) (k : κ) : State κ ι :=
  { s with
    stack := .coroutine k :: s.stack
    co := Function.update s.co k .running }

-- ---------------------------------------------------------------------------
-- Timers
-- ---------------------------------------------------------------------------

/-- `timerfd_create` -/
def State.create (s : State κ ι) (i : ι) (fd : Nat) (home : Option κ) : State κ ι :=
  { s with
    timer := Function.update s.timer i (.opened fd home)
    files := Function.update s.files fd (some i) }

/-- `close(m_fd)` -/
def State.close (s : State κ ι) (i : ι) (fd : Nat) : State κ ι :=
  { s with
    timer := Function.update s.timer i (.closed fd)
    files := Function.update s.files fd none
    interest := Function.update s.interest fd .absent }

/-- The timer is in the frame of the coroutine. -/
def Timer.inFrame (k : κ) : Timer κ → Bool
  | .opened _ home => home == some k
  | _ => false

/-- The fd is open for a timer in the frame of the coroutine. -/
def State.fdInFrame (s : State κ ι) (k : κ) (fd : Nat) : Bool :=
  (s.files fd).any fun i => (s.timer i).inFrame k

/-- `m_coroutine.destroy()`, with the destructors of the timers in the frame. -/
def State.destroy (s : State κ ι) (k : κ) : State κ ι :=
  { s with
    co := Function.update s.co k .destroyed
    timer := fun i =>
      match s.timer i with
      | .opened fd home => if home = some k then .closed fd else .opened fd home
      | timer => timer
    files := fun fd => if s.fdInFrame k fd then none else s.files fd
    interest := fun fd => if s.fdInFrame k fd then .absent else s.interest fd }

/-- `await_suspend` and `register_timer` -/
def State.await (s : State κ ι) (k : κ) (i : ι) (fd : Nat) (rest : List (Frame κ ι)) : State κ ι :=
  { s with
    stack := rest
    co := Function.update s.co k (.awaiting i)
    interest := Function.update s.interest fd .armed
    timers := Function.update s.timers fd (some k) }

-- ---------------------------------------------------------------------------
-- `poll`
-- ---------------------------------------------------------------------------

/-- `epoll_wait` may return with these events. -/
def State.Reports (s : State κ ι) (events : List (Event ι)) : Prop :=
  (events.map Event.fd).Nodup ∧ events.length ≤ kMaxEvents ∧
    ∀ e ∈ events, s.interest e.fd = .armed ∧ s.files e.fd = some e.timer

instance reportsDecidable (s : State κ ι) (events : List (Event ι)) :
    Decidable (s.Reports events) :=
  inferInstanceAs (Decidable (_ ∧ _ ∧ _))

/-- `EPOLLONESHOT`: what is reported is disabled. -/
def State.poll (s : State κ ι) (events : List (Event ι)) : State κ ι :=
  { s with
    stack := .poll events :: s.stack
    interest := fun fd => if fd ∈ events.map Event.fd then .disabled else s.interest fd }

/-- The lookup of an event and, when it finds a handle, `read`, `EPOLL_CTL_DEL` and
`resume()`. -/
def State.handle (s : State κ ι) (e : Event ι) (stack : List (Frame κ ι)) : State κ ι :=
  match s.timers e.fd with
  | none => { s with stack := stack }
  | some k =>
    let erased : State κ ι :=
      { s with
        stack := stack
        interest := Function.update s.interest e.fd .absent
        timers := Function.update s.timers e.fd none }
    match s.co k with
    | .awaiting i => { erased.enter k with misfired := s.misfired || decide (i ≠ e.timer) }
    | .idle => { erased.enter k with misfired := true }
    | .running | .destroyed => { erased with touched := true }

-- ---------------------------------------------------------------------------
-- The steps
-- ---------------------------------------------------------------------------

/-- One action of the code, of the kernel or of the owner of a coroutine; after a use of a
destroyed frame there is none. -/
def step (s : State κ ι) (a : Action κ ι) : Option (State κ ι) :=
  if s.touched then none
  else
    match a with
    | .create i fd home =>
      if s.CodeRuns ∧ s.timer i = .unborn ∧ s.files fd = none ∧
        (home = none ∨ home = s.current?) then
        some (s.create i fd home)
      else none
    | .await i =>
      match s.stack, s.timer i with
      | .coroutine k :: rest, .opened fd _ =>
        -- `EPOLL_CTL_ADD` fails, and the coroutine gets an exception
        if s.interest fd = .absent then some (s.await k i fd rest) else some s
      | _, _ => none
    | .close i =>
      match s.timer i with
      | .opened fd home =>
        if s.CodeRuns ∧ (home = none ∨ home = s.current?) then some (s.close i fd) else none
      | _ => none
    | .enter k => if s.CodeRuns ∧ s.co k = .idle then some (s.enter k) else none
    | .leave next =>
      match s.stack with
      | .coroutine k :: rest =>
        let left : State κ ι := { s with stack := rest, co := Function.update s.co k .idle }
        match next with
        | none => some left
        | some j => if left.co j = .idle then some (left.enter j) else none
      | _ => none
    | .destroy k =>
      if s.CodeRuns ∧ (s.co k ≠ .running ∧ s.co k ≠ .destroyed) then some (s.destroy k) else none
    | .poll events => if s.CodeRuns ∧ s.Reports events then some (s.poll events) else none
    | .handle =>
      match s.stack with
      | .poll [] :: rest => some { s with stack := rest }
      | .poll (e :: events) :: rest => some (s.handle e (.poll events :: rest))
      | _ => none

/-- No coroutine has been started and no timer made. -/
def init (κ ι : Type*) : State κ ι where
  stack := []
  co := fun _ => .idle
  timer := fun _ => .unborn
  files := fun _ => none
  interest := fun _ => .absent
  timers := fun _ => none
  touched := false
  misfired := false

/-- The loop with its timers and coroutines, in every order of steps. -/
def system (κ ι : Type*) [DecidableEq κ] [DecidableEq ι] : System (State κ ι) (Action κ ι) where
  init := init κ ι
  step := step

end EmbLinux.TimerTasks
