import EmbLinux.Lib.Partition
import EmbLinux.Lib.System
import Mathlib.Logic.Function.Basic

/-!
# EmbLinux — `parallel_quick_sort`

The model of one call of `parallel_quick_sort`: the thread that called it, which is thread 0,
and the worker threads, each with the activations of `do_sort` on its call stack. A step is
one push or pop of the chunk stack, one access to the vector `threads`, the start of a
worker, one look at a future, one fulfilment of a promise, or the call or return of a
`do_sort`.

The chunk stack has a mutex, the vector `threads` has none. A `push_back` lasts from one step
to another one, and the worker that is put into the vector runs before it begins. An access
to the vector by another thread during a `push_back` is a data race: it sets `race`, and
nothing is said of what follows.

The chunks are numbered in the order in which they were pushed, and chunk, promise and
future have the same number; the workers are numbered from 1 on in the order in which they
were started. `divide` is `std::partition`.

`startedBy` and `fulfilled` are history: which threads began to sort a chunk, and how often
its promise was set.
-/

namespace EmbLinux.DesignConcurrentCode.QuickSort

/-- An activation of `do_sort` below the top one, or of `sort_thread`, and what it waits
for: the sorted higher half, the end of the chunk that it picked up in its `while` loop, or
the end of the chunk that the worker picked up. `lower` is the future `new_lower`. -/
inductive Frame (α : Type*)
  | higher (pivot : α) (lower : Nat)
  | helping (result : List α) (lower : Nat) (chunk : Nat)
  | working (chunk : Nat)
  deriving DecidableEq

/-- Where a thread stands in step 4 of `do_sort`: before `threads.size()`, before the
`std::thread` that it starts, before the `push_back` of that worker, or inside it. -/
inductive Spawn
  | test
  | launch
  | append (worker : Nat)
  | appending (worker : Nat)
  deriving DecidableEq

/-- Where a thread stands: at the call of `do_sort`, after its push, at the test of its
`while` loop, at the pop in it, at its return; or, a worker, at the test of its own loop or
at the pop in it; or, thread 0, in the destructor of `sorter` or after it. -/
inductive Control (α : Type*)
  | unborn
  | sort (data : List α)
  | spawn (stage : Spawn) (pivot : α) (lower : Nat) (higher : List α)
  | wait (result : List α) (lower : Nat)
  | help (result : List α) (lower : Nat)
  | ret (result : List α)
  | idle
  | fetch
  | exited
  | joining (result : List α)
  | finished (result : List α)
  deriving DecidableEq

/-- Where a thread stands, and the activations below. -/
structure Thread (α : Type*) where
  control : Control α
  frames : List (Frame α)
  deriving DecidableEq

/-- `chunks` is the stack, `next` the number of the next chunk, `data` and `promise` what
each chunk has. `threads` are the workers in the vector, `started` is the number of those
that were started, and `appending` the thread that is inside `threads.push_back`. -/
structure State (α : Type*) where
  chunks : List Nat
  next : Nat
  data : Nat → List α
  promise : Nat → Option (List α)
  threads : List Nat
  started : Nat
  appending : Option Nat
  race : Bool
  thread : Nat → Thread α
  endOfData : Bool
  startedBy : Nat → List Nat
  fulfilled : Nat → Nat

variable {α : Type*}

/-- A thread goes on. -/
def State.setThread (s : State α) (t : Nat) (control : Control α) (frames : List (Frame α)) :
    State α :=
  { s with thread := Function.update s.thread t ⟨control, frames⟩ }

/-- `chunks.push(std::move(new_lower_chunk))` -/
def State.push (s : State α) (data : List α) : State α :=
  { s with
    chunks := s.next :: s.chunks
    next := s.next + 1
    data := Function.update s.data s.next data }

/-- `chunks.pop()` of thread `t`, that leaves `chunks`. -/
def State.pop (s : State α) (t id : Nat) (chunks : List Nat) : State α :=
  { s with
    chunks := chunks
    startedBy := Function.update s.startedBy id (s.startedBy id ++ [t]) }

/-- `try_sort_chunk`: the thread goes on with `sort_chunk`, or goes on otherwise. -/
def State.trySortChunk (s : State α) (t : Nat) (frame : Nat → Frame α) (frames : List (Frame α))
    (otherwise : Control α) : State α :=
  match s.chunks with
  | [] => s.setThread t otherwise frames
  | id :: chunks => (s.pop t id chunks).setThread t (.sort (s.data id)) (frame id :: frames)

/-- `chunk->promise.set_value(...)` -/
def State.fulfil (s : State α) (id : Nat) (result : List α) : State α :=
  { s with
    promise := Function.update s.promise id (some result)
    fulfilled := Function.update s.fulfilled id (s.fulfilled id + 1) }

/-- An access to `threads`: a data race while another thread is inside `push_back`. -/
def State.access (s : State α) (otherwise : State α) : State α :=
  match s.appending with
  | some _ => { s with race := true }
  | none => otherwise

/-- Step 4 of `do_sort` of thread `t`:
`if(threads.size() < max_thread_count) threads.push_back(std::thread(&sorter<T>::sort_thread, this))`.
The higher half is sorted next. -/
def State.spawn (s : State α) (maxThreadCount t : Nat) (stage : Spawn) (pivot : α) (lower : Nat)
    (higher : List α) (frames : List (Frame α)) : State α :=
  match stage with
  | .test =>
    s.access <|
      if s.threads.length < maxThreadCount then
        s.setThread t (.spawn .launch pivot lower higher) frames
      else s.setThread t (.sort higher) (.higher pivot lower :: frames)
  -- the worker runs from here on
  | .launch =>
    { (s.setThread (s.started + 1) .idle []).setThread t
        (.spawn (.append (s.started + 1)) pivot lower higher) frames with
      started := s.started + 1 }
  | .append worker =>
    s.access { s.setThread t (.spawn (.appending worker) pivot lower higher) frames with
      appending := some t }
  | .appending worker =>
    { s.setThread t (.sort higher) (.higher pivot lower :: frames) with
      threads := s.threads ++ [worker]
      appending := none }

/-- The next step of thread `t`, before a race. -/
def run (lt : α → α → Prop) [DecidableRel lt]
    (divide : (p : α → Bool) → (l : List α) → Partition p l) (maxThreadCount : Nat)
    (s : State α) (t : Nat) : Option (State α) :=
  match s.thread t with
  | ⟨.sort [], frames⟩ => some (s.setThread t (.ret []) frames)
  | ⟨.sort (pivot :: rest), frames⟩ =>
    let halves := divide (fun val => decide (lt val pivot)) rest
    some ((s.push halves.front).setThread t (.spawn .test pivot s.next halves.back) frames)
  | ⟨.spawn stage pivot lower higher, frames⟩ =>
    some (s.spawn maxThreadCount t stage pivot lower higher frames)
  | ⟨.wait result lower, frames⟩ =>
    match s.promise lower with
    | some sorted => some (s.setThread t (.ret (sorted ++ result)) frames)
    | none => some (s.setThread t (.help result lower) frames)
  | ⟨.help result lower, frames⟩ =>
    some (s.trySortChunk t (.helping result lower) frames (.wait result lower))
  | ⟨.ret result, .higher pivot lower :: frames⟩ =>
    some (s.setThread t (.wait (pivot :: result) lower) frames)
  | ⟨.ret sorted, .helping result lower id :: frames⟩ =>
    some ((s.fulfil id sorted).setThread t (.wait result lower) frames)
  | ⟨.ret sorted, .working id :: frames⟩ =>
    some ((s.fulfil id sorted).setThread t .idle frames)
  -- `~sorter`
  | ⟨.ret result, []⟩ => some { s.setThread t (.joining result) [] with endOfData := true }
  | ⟨.joining result, frames⟩ =>
    -- `join` of a worker in the vector blocks until the worker has ended
    if s.appending.isSome || s.threads.all fun w => (s.thread w).control matches .exited then
      some (s.access (s.setThread t (.finished result) frames))
    else none
  | ⟨.idle, frames⟩ => some (s.setThread t (if s.endOfData then .exited else .fetch) frames)
  | ⟨.fetch, frames⟩ => some (s.trySortChunk t .working frames .idle)
  | ⟨.unborn, _⟩ | ⟨.exited, _⟩ | ⟨.finished _, _⟩ => none

/-- After a data race nothing is known. -/
def step (lt : α → α → Prop) [DecidableRel lt]
    (divide : (p : α → Bool) → (l : List α) → Partition p l) (maxThreadCount : Nat)
    (s : State α) (t : Nat) : Option (State α) :=
  if s.race then none else run lt divide maxThreadCount s t

/-- The call, with the elements of `input`. -/
def init (input : List α) : State α where
  chunks := []
  next := 0
  data := fun _ => []
  promise := fun _ => none
  threads := []
  started := 0
  appending := none
  race := false
  thread := Function.update (fun _ => ⟨.unborn, []⟩) 0
    ⟨if input.isEmpty then .finished input else .sort input, []⟩
  endOfData := false
  startedBy := fun _ => []
  fulfilled := fun _ => 0

/-- A call of `parallel_quick_sort`, with `max_thread_count` workers at most. -/
def system (lt : α → α → Prop) [DecidableRel lt]
    (divide : (p : α → Bool) → (l : List α) → Partition p l) (maxThreadCount : Nat)
    (input : List α) : System (State α) Nat where
  init := init input
  step := step lt divide maxThreadCount

end EmbLinux.DesignConcurrentCode.QuickSort
