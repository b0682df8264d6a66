import EmbLinux.Lib.System
import Mathlib.Data.Nat.Notation

/-!
# EmbLinux — `LockFreeQueue`, the single-producer single-consumer ring

One producer thread calls `push`, one consumer thread calls `pop`. A step is one
access of one thread: a load or store of `m_head` or `m_tail`, or the access to
the cell of `m_buffer` that lies between the check and the publishing store.
Arithmetic on local values runs with the access before it.

The two overloads of `push` make the same accesses (they differ in what is left
in the caller's argument), so one program counter serves both. `size_t`
arithmetic does not wrap: an index is at most `Capacity`, and the array of
`Capacity + 1` cells bounds `Capacity`.
-/

namespace EmbLinux.LockFreeQueue

/-- `kRealCapacity`: one cell more than the queue can hold. -/
def kRealCapacity (Capacity : Nat) : Nat := Capacity + 1

-- ---------------------------------------------------------------------------
-- The two threads
-- ---------------------------------------------------------------------------

/-- Where the producer stands in `push(value)`. -/
inductive Producer (α : Type*)
  | idle (result : Option Bool)
  | loadTail (value : α)
  | loadHead (value : α) (currentTail : Nat)
  | writeCell (value : α) (currentTail : Nat)
  | storeTail (value : α) (currentTail : Nat)
  deriving DecidableEq

/-- Where the consumer stands in `pop()`. -/
inductive Consumer (α : Type*)
  | idle (result : Option (Option α))
  | loadHead
  | loadTail (currentHead : Nat)
  | readCell (currentHead : Nat)
  | storeHead (currentHead : Nat) (value : α)
  deriving DecidableEq

/-- The queue, the two threads, and the history of the calls: `pushed` are the
values whose `push` returned true, `popped` the values that `pop` returned. -/
structure State (α : Type*) where
  buffer : Nat → α
  head : Nat
  tail : Nat
  producer : Producer α
  consumer : Consumer α
  pushed : List α
  popped : List α

/-- What a thread does next: call an operation, or make its next access.
`leftover` is what `std::move` leaves behind in the cell that `pop` reads. -/
inductive Action (α : Type*)
  | callPush (value : α)
  | producer
  | callPop
  | consumer (leftover : α)

variable {α : Type*}

-- ---------------------------------------------------------------------------
-- The accesses
-- ---------------------------------------------------------------------------

/-- The next access of `push`. -/
def push (Capacity : Nat) (s : State α) : Option (State α) :=
  match s.producer with
  | .idle _ => none
  -- `current_tail = m_tail.load()`
  | .loadTail value => some { s with producer := .loadHead value s.tail }
  | .loadHead value currentTail =>
    -- `next_tail == m_head.load()`: full
    if (currentTail + 1) % kRealCapacity Capacity = s.head then
      some { s with producer := .idle (some false) }
    else
      some { s with producer := .writeCell value currentTail }
  -- `m_buffer[current_tail] = value`
  | .writeCell value currentTail =>
    some { s with
      buffer := Function.update s.buffer currentTail value
      producer := .storeTail value currentTail }
  -- `m_tail.store(next_tail)`: the value is published
  | .storeTail value currentTail =>
    some { s with
      tail := (currentTail + 1) % kRealCapacity Capacity
      producer := .idle (some true)
      pushed := s.pushed ++ [value] }

/-- The next access of `pop`. -/
def pop (Capacity : Nat) (leftover : α) (s : State α) : Option (State α) :=
  match s.consumer with
  | .idle _ => none
  -- `current_head = m_head.load()`
  | .loadHead => some { s with consumer := .loadTail s.head }
  | .loadTail currentHead =>
    -- `current_head == m_tail.load()`: empty
    if currentHead = s.tail then
      some { s with consumer := .idle (some none) }
    else
      some { s with consumer := .readCell currentHead }
  -- `value = std::move(m_buffer[current_head])`
  | .readCell currentHead =>
    some { s with
      buffer := Function.update s.buffer currentHead leftover
      consumer := .storeHead currentHead (s.buffer currentHead) }
  -- `m_head.store(..)`: the cell is the producer's again
  | .storeHead currentHead value =>
    some { s with
      head := (currentHead + 1) % kRealCapacity Capacity
      consumer := .idle (some (some value))
      popped := s.popped ++ [value] }

/-- A call, or the next access of one of the two threads. -/
def step (Capacity : Nat) (s : State α) : Action α → Option (State α)
  | .callPush value =>
    match s.producer with
    | .idle _ => some { s with producer := .loadTail value }
    | _ => none
  | .producer => push Capacity s
  | .callPop =>
    match s.consumer with
    | .idle _ => some { s with consumer := .loadHead }
    | _ => none
  | .consumer leftover => pop Capacity leftover s

-- ---------------------------------------------------------------------------
-- The system
-- ---------------------------------------------------------------------------

/-- A queue whose cells hold default values, as `std::array` leaves them. -/
def init (α : Type*) [Inhabited α] : State α where
  buffer := fun _ => default
  head := 0
  tail := 0
  producer := .idle none
  consumer := .idle none
  pushed := []
  popped := []

/-- An empty queue, with both threads outside. -/
def system (α : Type*) [Inhabited α] (Capacity : Nat) : System (State α) (Action α) where
  init := init α
  step := step Capacity

end EmbLinux.LockFreeQueue
