import EmbLinux.CoroutinePool.Model

/-!
# EmbLinux — `Task`

The model of the coroutines of type `Task<T>` and `Task<void>`, on the frames that
`CoroutinePoolAllocator` hands out. The machine does what the compiler makes of a
coroutine: it suspends a frame, transfers control to another one, and destroys the
`Task` objects of a scope in reverse order.

The body of a coroutine is a tree of what it does next. What the body catches is in
the branches: `create` and `coAwait` go on with the exception or with the result, and
a body that does not catch goes on with `raise`. A `Task` object is a local variable
of the coroutine that called it, numbered in the order of construction; `drop` is the
end of its scope, and leaving the coroutine ends the scope of all. A value is `none`
where the coroutine returns `void`.

The root is awaited by the `driver`, a coroutine whose frame is not from the pool.

History that no step reads: `events` is what happened to a frame, `ended` the events
of the frames that are destroyed.
-/

namespace EmbLinux.Task

/-- The body of a coroutine, from some point on. -/
inductive Body (V E : Type)
  | coReturn (value : Option V)
  | raise (e : E)
  | create (size : Nat) (child : Body V E) (next : Except E Unit → Body V E)
  | coAwait (i : Nat) (next : Except E (Option V) → Body V E)
  | drop (i : Nat) (next : Body V E)

/-- `std::coroutine_handle` -/
inductive Handle
  | driver
  | block (address : Nat)
  deriving DecidableEq

/-- What happens to a coroutine, as its trace has it. -/
inductive Event
  | created
  | awaited
  | started
  | finished
  | resumed
  | destroyed
  deriving DecidableEq

variable {V E : Type}

-- ---------------------------------------------------------------------------
-- The promise and the frame
-- ---------------------------------------------------------------------------

/-- `promise_type` -/
structure Promise (V E : Type) where
  value : Option V
  exception : Option E
  continuation : Option Handle

/-- The promise of a fresh coroutine. -/
def Promise.new : Promise V E where
  value := none
  exception := none
  continuation := none

/-- `return_value`, and `return_void`, which does nothing. -/
def Promise.returnValue (p : Promise V E) : Option V → Promise V E
  | some value => { p with value := some value }
  | none => p

/-- `unhandled_exception` -/
def Promise.unhandledException (p : Promise V E) (e : E) : Promise V E :=
  { p with exception := some e }

/-- `await_resume` -/
def Promise.awaitResume (p : Promise V E) : Except E (Option V) :=
  match p.exception with
  | some e => .error e
  | none => .ok p.value

/-- Where a coroutine is suspended, or `active`. -/
inductive Point (V E : Type)
  | initial (body : Body V E)
  | active
  | awaiting (i : Nat) (next : Except E (Option V) → Body V E)
  | final

/-- `locals` are the handles in the `Task` objects that are alive in the coroutine. -/
structure Frame (V E : Type) where
  promise : Promise V E
  point : Point V E
  locals : List Nat
  events : List Event

/-- The frame after `initial_suspend`. -/
def Frame.new (body : Body V E) : Frame V E where
  promise := .new
  point := .initial body
  locals := []
  events := [.created]

/-- `coroutine_handle::done` -/
def Frame.done (f : Frame V E) : Bool :=
  match f.point with
  | .final => true
  | _ => false

-- ---------------------------------------------------------------------------
-- The machine
-- ---------------------------------------------------------------------------

/-- What is left of a `coroutine_handle::destroy`: to destroy the `Task` objects in
the frame, and then to free the frame. -/
inductive Cleanup
  | destroy (address : Nat)
  | free (address : Nat)

/-- What the thread does next. `leave` is after the end of a body, with the exception
that got out of it. -/
inductive Control (V E : Type)
  | run (h : Handle) (body : Body V E)
  | cleanup (items : List Cleanup) (after : Control V E)
  | leave (h : Handle) (exception : Option E)
  | resume (h : Handle)
  | idle
  | halted (result : Except E (Option V))

/-- The pool, the frames in its blocks, what is executed, and the lives of the frames that are
gone. -/
structure State (V E : Type) where
  pool : CoroutinePool.State
  frames : Handle → Option (Frame V E)
  control : Control V E
  ended : List (List Event)

/-- A frame changes. -/
def State.setFrame (s : State V E) (h : Handle) (f : Frame V E) : State V E :=
  { s with frames := Function.update s.frames h (some f) }

@[simp] theorem State.frames_setFrame (s : State V E) (h : Handle) (f : Frame V E) :
    (s.setFrame h f).frames = Function.update s.frames h (some f) := rfl
@[simp] theorem State.pool_setFrame (s : State V E) (h : Handle) (f : Frame V E) :
    (s.setFrame h f).pool = s.pool := rfl
@[simp] theorem State.ended_setFrame (s : State V E) (h : Handle) (f : Frame V E) :
    (s.setFrame h f).ended = s.ended := rfl

/-- `~Task` for these `Task` objects, the last one first. -/
def destroyAll (locals : List Nat) : List Cleanup :=
  locals.reverse.map .destroy

/-- The next step of a body. `bad_alloc` is the exception of `allocate`. -/
def stepBody (bad_alloc : E) (s : State V E) (h : Handle) : Body V E → Option (State V E)
  | .coReturn value => do
    let f ← s.frames h
    some { s.setFrame h { f with promise := f.promise.returnValue value, locals := [] } with
      control := .cleanup (destroyAll f.locals) (.leave h none) }
  | .raise e => do
    let f ← s.frames h
    some { s.setFrame h { f with locals := [] } with
      control := .cleanup (destroyAll f.locals) (.leave h (some e)) }
  | .create size child next =>
    match s.pool.allocate size with
    | (none, pool) => some { s with pool := pool, control := .run h (next (.error bad_alloc)) }
    | (some ptr, pool) => do
      let f ← s.frames h
      some { (s.setFrame h { f with locals := f.locals ++ [ptr] }).setFrame (.block ptr)
          (.new child) with
        pool := pool
        control := .run h (next (.ok ())) }
  | .coAwait i next => do
    let f ← s.frames h
    let ptr ← f.locals[i]?
    let g ← s.frames (.block ptr)
    -- `await_ready`
    if g.done then some { s with control := .run h (next g.promise.awaitResume) }
    else
      -- `await_suspend`
      some { (s.setFrame h { f with point := .awaiting i next }).setFrame (.block ptr)
          { g with
            promise := { g.promise with continuation := some h }
            events := g.events ++ [.awaited] } with
        control := .resume (.block ptr) }
  | .drop i next => do
    let f ← s.frames h
    let ptr ← f.locals[i]?
    some { s.setFrame h { f with locals := f.locals.eraseIdx i } with
      control := .cleanup [.destroy ptr] (.run h next) }

/-- The destructors of a scope: the locals of a destroyed frame come before its block is freed.
-/
def stepCleanup (s : State V E) (after : Control V E) : List Cleanup → Option (State V E)
  | [] => some { s with control := after }
  | .destroy ptr :: items => do
    let g ← s.frames (.block ptr)
    match g.point with
    -- only a suspended coroutine may be destroyed
    | .active => none
    | _ => some { s with control := .cleanup (destroyAll g.locals ++ .free ptr :: items) after }
  | .free ptr :: items => do
    let g ← s.frames (.block ptr)
    some { s with
      pool := s.pool.deallocate ptr
      frames := Function.update s.frames (.block ptr) none
      control := .cleanup items after
      ended := s.ended ++ [g.events ++ [.destroyed]] }

/-- The end of a coroutine: `unhandled_exception`, and `FinalAwaiter`. -/
def stepLeave (s : State V E) (h : Handle) (exception : Option E) : Option (State V E) := do
  let f ← s.frames h
  let promise := match exception with
    | some e => f.promise.unhandledException e
    | none => f.promise
  match h with
  | .driver => some { s with control := .halted promise.awaitResume }
  | .block _ =>
    some { s.setFrame h { f with
        promise := promise
        point := .final
        events := f.events ++ [.finished] } with
      control := match promise.continuation with
        | some continuation => .resume continuation
        | none => .idle }

/-- `coroutine_handle::resume` -/
def stepResume (s : State V E) (h : Handle) : Option (State V E) := do
  let f ← s.frames h
  match f.point with
  | .initial body =>
    some { s.setFrame h { f with point := .active, events := f.events ++ [.started] } with
      control := .run h body }
  | .awaiting i next => do
    let ptr ← f.locals[i]?
    let g ← s.frames (.block ptr)
    some { (s.setFrame h { f with point := .active }).setFrame (.block ptr)
        { g with events := g.events ++ [.resumed] } with
      control := .run h (next g.promise.awaitResume) }
  | .active => none
  | .final => none

/-- What is executed next. `none` is the end of the program, or an operation that is undefined,
which the contract excludes. -/
def step (bad_alloc : E) (s : State V E) : Option (State V E) :=
  match s.control with
  | .run h body => stepBody bad_alloc s h body
  | .cleanup items after => stepCleanup s after items
  | .leave h exception => stepLeave s h exception
  | .resume h => stepResume s h
  | .idle => none
  | .halted _ => none

/-- The body of the driver: it calls the root, awaits it, and destroys it. -/
def drive (size : Nat) (root : Body V E) : Body V E :=
  .create size root fun
    | .error e => .raise e
    | .ok () => .coAwait 0 fun
      | .error e => .drop 0 (.raise e)
      | .ok value => .drop 0 (.coReturn value)

/-- The driver starts on a pool. -/
def start (pool : CoroutinePool.State) (size : Nat) (root : Body V E) : State V E where
  pool := pool
  frames := fun
    | .driver => some ⟨.new, .active, [], []⟩
    | .block _ => none
  control := .run .driver (drive size root)
  ended := []

/-- The machine for one root coroutine, on a pool in any state. -/
def machine (bad_alloc : E) (pool : CoroutinePool.State) (size : Nat) (root : Body V E) :
    System (State V E) Unit where
  init := start pool size root
  step := fun s _ => step bad_alloc s

end EmbLinux.Task
