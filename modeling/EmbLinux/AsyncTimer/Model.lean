import EmbLinux.EventLoop.Model
import Mathlib.Algebra.Group.Nat.Defs

/-!
# EmbLinux — `AsyncTimer`

The model of one thread whose coroutines do `co_await AsyncTimer(timeout)` and which calls
`EventLoop::poll`, with the clock and the kernel's side of timerfd and epoll. Each await has
an index and its own timeout; the awaits of one coroutine, one after the other, are several.
A timer that cannot be created throws and awaits nothing, so it is left out.

A time is in nanoseconds. A timerfd is readable from its expiry until it is read;
`epoll_wait` reports what is readable at once, and otherwise waits until its timeout or a
signal ends it. While it waits nothing else runs.

`startedAt`, `due` and `resumptions` are history: when each timer was set, the awaits whose
time was over when the last `poll` started, and the calls of `resume` with their time.
-/

namespace EmbLinux.AsyncTimer

open EventLoop (Interest kMaxEvents)

/-- The nanoseconds of a millisecond. -/
def nsPerMs : Nat := 10 ^ 6

/-- `its.it_value`, in seconds and nanoseconds. -/
def itValue (timeout : Nat) : Nat × Nat :=
  (timeout / 1000, timeout % 1000 * 1000000)

/-- `timerfd_settime` without flags: zero disarms the timer. -/
def expiryAt (now : Nat) (value : Nat × Nat) : Option Nat :=
  if value = (0, 0) then none else some (now + (value.1 * 10 ^ 9 + value.2))

/-- Where an await stands; the fd is `m_fd` of its `AsyncTimer`. -/
inductive Stage
  | notYet
  | waiting (fd : Nat)
  -- resumed, with the `AsyncTimer` still there
  | resumed (fd : Nat)
  | finished
  deriving DecidableEq

/-- The coroutine is suspended on its timer. -/
def Stage.isWaiting : Stage → Bool
  | .waiting _ => true
  | .notYet | .resumed _ | .finished => false

/-- Where `poll` stands: in `epoll_wait`, which returns at `timeout` at the latest, or at
what is left of its array. -/
inductive Poll
  | idle
  | waiting (timeout : Nat)
  | handling (events : List Nat)
  deriving DecidableEq

/-- The clock, the kernel's fds with their expiry and epoll entries, the map of the loop, and
where each coroutine and `poll` stand. -/
structure State (ι : Type*) where
  now : Nat
  opened : List Nat
  expiry : Nat → Option Nat
  interest : Nat → Interest
  timers : Nat → Option ι
  stage : ι → Stage
  poll : Poll
  startedAt : ι → Nat
  due : ι → Bool
  resumptions : List (ι × Nat)

/-- What happens next. `start` is the constructor, `await_suspend` and `register_timer`;
`finish` is the destructor. `poll` starts a call, inside `run()` or not, `fetch` ends its
`epoll_wait` with the fds that it reports, and `handle` is a turn of its loop. -/
inductive Action (ι : Type*)
  | tick (ns : Nat)
  | start (i : ι) (fd : Nat)
  | finish (i : ι)
  | poll (running : Bool)
  | fetch (events : List Nat)
  | handle
  deriving DecidableEq

variable {ι : Type*} [DecidableEq ι]

/-- The timer has expired and was not read. -/
def State.Expired (s : State ι) (fd : Nat) : Prop :=
  ∃ e ∈ s.expiry fd, e ≤ s.now

instance decidableExpired (s : State ι) (fd : Nat) : Decidable (s.Expired fd) :=
  decidable_of_iff ((s.expiry fd).any fun e => decide (e ≤ s.now))
    (by simp [State.Expired, Option.any_eq_true])

/-- `epoll_wait` has something to report for the fd. -/
def State.Ready (s : State ι) (fd : Nat) : Prop :=
  s.interest fd = .armed ∧ s.Expired fd

instance decidableReady (s : State ι) (fd : Nat) : Decidable (s.Ready fd) :=
  inferInstanceAs (Decidable (_ ∧ _))

/-- `epoll_wait` may return with these fds: all that are ready, or as many as fit. -/
def State.Reports (s : State ι) (events : List Nat) : Prop :=
  events.Nodup ∧ events.length ≤ kMaxEvents ∧ (∀ fd ∈ events, fd ∈ s.opened ∧ s.Ready fd) ∧
    (events.length = kMaxEvents ∨ ∀ fd ∈ s.opened, s.Ready fd → fd ∈ events)

instance decidableReports (s : State ι) (events : List Nat) : Decidable (s.Reports events) :=
  inferInstanceAs (Decidable (_ ∧ _ ∧ _ ∧ _))

/-- The await is still suspended, and its timer has run for its time. -/
def State.Due (timeout : ι → Nat) (s : State ι) (i : ι) : Prop :=
  (s.stage i).isWaiting = true ∧ s.startedAt i + timeout i * nsPerMs ≤ s.now

instance decidableDue (timeout : ι → Nat) (s : State ι) (i : ι) : Decidable (s.Due timeout i) :=
  inferInstanceAs (Decidable (_ ∧ _))

/-- The thread is not blocked in `epoll_wait`. -/
def Poll.runs : Poll → Bool
  | .waiting _ => false
  | .idle | .handling _ => true

/-- The end of a turn of the loop over the array. -/
def nextEvent : List Nat → Poll
  | [] => .idle
  | fd :: events => .handling (fd :: events)

/-- `AsyncTimer(timeout)` and `register_timer`. -/
def State.start (timeout : ι → Nat) (s : State ι) (i : ι) (fd : Nat) : State ι :=
  { s with
    opened := fd :: s.opened
    expiry := Function.update s.expiry fd (expiryAt s.now (itValue (timeout i)))
    interest := Function.update s.interest fd .armed
    timers := Function.update s.timers fd (some i)
    stage := Function.update s.stage i (.waiting fd)
    startedAt := Function.update s.startedAt i s.now }

/-- `resume()`, up to the destructor of the `AsyncTimer`. -/
def Stage.resume : Stage → Stage
  | .waiting fd => .resumed fd
  | stage => stage

/-- The body of the loop in `poll`: the lookup, `read`, `EPOLL_CTL_DEL` and `resume()`. -/
def State.handle (s : State ι) (fd : Nat) : State ι :=
  match s.timers fd with
  | none => s
  | some i =>
    { s with
      timers := Function.update s.timers fd none
      expiry := if s.Expired fd then Function.update s.expiry fd none else s.expiry
      interest := Function.update s.interest fd .absent
      stage := Function.update s.stage i (s.stage i).resume
      resumptions := s.resumptions ++ [(i, s.now)] }

/-- `epoll_wait` sleeps until something is ready or its time is up; everything else takes no
time of its own. -/
def step (timeout : ι → Nat) (s : State ι) : Action ι → Option (State ι)
  | .tick ns =>
    match s.poll with
    | .waiting deadline =>
      if s.now + ns ≤ deadline ∧ ∀ fd ∈ s.opened, ¬ s.Ready fd then
        some { s with now := s.now + ns }
      else none
    | .idle | .handling _ => some { s with now := s.now + ns }
  | .start i fd =>
    if s.poll.runs = true ∧ s.stage i = .notYet ∧ fd ∉ s.opened then some (s.start timeout i fd)
    else none
  | .finish i =>
    match s.stage i with
    | .resumed fd =>
      -- `close` takes the fd out of the epoll set
      if s.poll.runs then
        some { s with
          opened := s.opened.erase fd
          interest := Function.update s.interest fd .absent
          stage := Function.update s.stage i .finished }
      else none
    | _ => none
  | .poll running =>
    match s.poll with
    | .idle =>
      some { s with
        poll := .waiting (s.now + (if running then 10 else 0) * nsPerMs)
        due := fun i => decide (s.Due timeout i) }
    | _ => none
  | .fetch events =>
    match s.poll with
    | .waiting _ =>
      if s.Reports events then
        -- `EPOLLONESHOT`
        some { s with
          interest := fun fd => if fd ∈ events then .disabled else s.interest fd
          poll := nextEvent events }
      else none
    | _ => none
  | .handle =>
    match s.poll with
    | .handling (fd :: events) => some { s.handle fd with poll := nextEvent events }
    | _ => none

def system (timeout : ι → Nat) : System (State ι) (Action ι) where
  init := ⟨0, [], fun _ => none, fun _ => .absent, fun _ => none, fun _ => .notYet, .idle,
    fun _ => 0, fun _ => false, []⟩
  step := step timeout

end EmbLinux.AsyncTimer
