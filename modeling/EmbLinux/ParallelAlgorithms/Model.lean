import EmbLinux.Lib.System
import Mathlib.Algebra.Group.Nat.Defs
import Mathlib.Logic.Function.Basic

/-!
# EmbLinux — `parallel_for_each` and `parallel_transform`

The model of the two algorithms over a `JThreadPool`. Both compute the same chunks, submit
one task for each of them and wait on a latch; a task is the sequential algorithm on its
chunk, and then `count_down`. They differ in where the results go, so a call of either is a
`Job`.

Elements lie at addresses. A step is the caller's next statement, a worker that takes a
task, one element of a task, or its `count_down`. The pool is what a task needs of it: any
idle worker may take any task that was submitted, and a task is taken once. Which one it
takes is not restricted, so the order of the queues and stealing are covered.

`size_t` wraps modulo `2 ^ 64`. `distance` is the positive signed number that
`std::distance` returns, which the sum with `chunk_size` converts.

`applied` is history: the positions of the elements to which the function was applied.
-/

namespace EmbLinux.ParallelAlgorithms

/-- The number of values of `size_t`. -/
def sizeModulus : Nat := 2 ^ 64

-- ---------------------------------------------------------------------------
-- The chunks
-- ---------------------------------------------------------------------------

/-- A difference of two `size_t`. -/
def subSize (a b : Nat) : Nat :=
  (a + (sizeModulus - b)) % sizeModulus

/-- `num_chunks`, none for a division by zero. -/
def numChunks (distance chunk_size : Nat) : Option Nat :=
  if chunk_size = 0 then none
  else some (subSize ((distance + chunk_size) % sizeModulus) 1 / chunk_size)

/-- `chunk_start` of iteration `i`, from `first` on. -/
def chunkStart (chunk_size i : Nat) : Nat :=
  i * chunk_size % sizeModulus

/-- `chunk_end` of iteration `i`, from `first` on. -/
def chunkEnd (distance chunk_size num_chunks i : Nat) : Nat :=
  if i = subSize num_chunks 1 then distance
  else (chunkStart chunk_size i + chunk_size) % sizeModulus

-- ---------------------------------------------------------------------------
-- Calls, tasks and program points
-- ---------------------------------------------------------------------------

/-- The arguments of a call. The element at `first + i` is read, the result goes to
`out + i`. -/
structure Job (α : Type*) where
  first : Nat
  distance : Nat
  out : Nat
  op : α → α
  chunkSize : Nat

/-- `f` is the effect of the function on an element. -/
def parallelForEach {α : Type*} (first distance : Nat) (f : α → α) (chunk_size : Nat) : Job α where
  first := first
  distance := distance
  out := first
  op := f
  chunkSize := chunk_size

/-- `parallel_transform` -/
def parallelTransform {α : Type*} (first distance d_first : Nat) (op : α → α)
    (chunk_size : Nat) : Job α where
  first := first
  distance := distance
  out := d_first
  op := op
  chunkSize := chunk_size

/-- The iterators of a task: the next element, the end, the next place of the output. -/
structure Iterators where
  position : Nat
  stop : Nat
  out : Nat
  deriving DecidableEq

/-- What became of the task of a chunk. -/
inductive Task (τ : Type*)
  | none
  | queued (it : Iterators)
  | running (t : τ) (it : Iterators)
  | finished
  deriving DecidableEq

/-- Where the calling thread stands. -/
inductive Caller
  | enter
  | submit (num_chunks i : Nat)
  | wait (num_chunks : Nat)
  | returned
  deriving DecidableEq

/-- The memory, the caller with its latch, the tasks and the workers that run them; `applied` is
history. -/
structure State (τ α : Type*) where
  memory : Nat → α
  caller : Caller
  latch : Nat
  tasks : Nat → Task τ
  busy : τ → Option Nat
  applied : List Nat

/-- What happens next: the caller's next statement, a worker takes the task of chunk `i`,
or a worker goes on with its task. -/
inductive Action (τ : Type*)
  | call
  | take (t : τ) (i : Nat)
  | work (t : τ)

variable {τ α : Type*} [DecidableEq τ]

-- ---------------------------------------------------------------------------
-- The steps
-- ---------------------------------------------------------------------------

/-- What the task of chunk `i` captures. -/
def Job.iterators (job : Job α) (num_chunks i : Nat) : Iterators where
  position := job.first + chunkStart job.chunkSize i
  stop := job.first + chunkEnd job.distance job.chunkSize num_chunks i
  out := job.out + chunkStart job.chunkSize i

def State.setTask (s : State τ α) (i : Nat) (task : Task τ) : State τ α :=
  { s with tasks := Function.update s.tasks i task }

/-- The calling thread. A `wait` on a latch that is not 0 blocks. -/
def call (job : Job α) (s : State τ α) : Option (State τ α) :=
  match s.caller with
  | .enter =>
    if job.distance = 0 then some { s with caller := .returned }
    else
      match numChunks job.distance job.chunkSize with
      | none => none
      | some num_chunks => some { s with caller := .submit num_chunks 0, latch := num_chunks }
  | .submit num_chunks i =>
    if i < num_chunks then
      some { s.setTask i (.queued (job.iterators num_chunks i)) with
        caller := .submit num_chunks (i + 1) }
    else some { s with caller := .wait num_chunks }
  | .wait _ => if s.latch = 0 then some { s with caller := .returned } else none
  | .returned => none

/-- An idle worker takes a task. -/
def take (s : State τ α) (t : τ) (i : Nat) : Option (State τ α) :=
  match s.busy t, s.tasks i with
  | none, .queued it =>
    some { s.setTask i (.running t it) with busy := Function.update s.busy t (some i) }
  | _, _ => none

/-- The next element of the task that worker `t` runs, or `count_down` after the last. -/
def work (job : Job α) (s : State τ α) (t : τ) : Option (State τ α) :=
  match s.busy t with
  | none => none
  | some i =>
    match s.tasks i with
    | .running _ it =>
      if it.position = it.stop then
        some { s.setTask i .finished with
          busy := Function.update s.busy t none
          latch := s.latch - 1 }
      else
        some { s.setTask i (.running t ⟨it.position + 1, it.stop, it.out + 1⟩) with
          memory := Function.update s.memory it.out (job.op (s.memory it.position))
          applied := s.applied ++ [it.position - job.first] }
    | _ => none

/-- The caller goes on, a worker takes a task, or it works on the one that it has. -/
def step (job : Job α) (s : State τ α) : Action τ → Option (State τ α)
  | .call => call job s
  | .take t i => take s t i
  | .work t => work job s t

-- ---------------------------------------------------------------------------
-- The system
-- ---------------------------------------------------------------------------

/-- A call that has not begun. -/
def init (τ : Type*) {α : Type*} (memory : Nat → α) : State τ α where
  memory := memory
  caller := .enter
  latch := 0
  tasks := fun _ => .none
  busy := fun _ => none
  applied := []

/-- The runs of one call, on a pool with the workers `τ`. -/
def system (τ : Type*) {α : Type*} [DecidableEq τ] (job : Job α) (memory : Nat → α) :
    System (State τ α) (Action τ) where
  init := init τ memory
  step := step job

/-- The sequential `std::transform` on the whole range, which goes over the elements in
order; `std::for_each` is its case `d_first = first`. -/
def transform {α : Type*} (first distance d_first : Nat) (op : α → α) (memory : Nat → α) :
    Nat → α :=
  (List.range distance).foldl
    (fun m i => Function.update m (d_first + i) (op (m (first + i)))) memory

end EmbLinux.ParallelAlgorithms
