import EmbLinux.Lib.System

/-!
# EmbLinux — `threadsafe_queue_fine_grained`

The model of the queue with a dummy node and two mutexes. Any number of threads call
`push`, `try_pop`, `wait_and_pop` (both overloads each) and `empty`; a step is one lock
or unlock, or one access to `head`, `tail`, `data` or `next`. A node is an address, 0 is
`nullptr`, and `new` returns any address that is not allocated, so an address may come
back after its `delete`. Of the two operands of `head.get() == get_tail()` the model reads
`head` second; nobody else writes it meanwhile.

`data_cond` is the list of the threads that are blocked in `wait`: `wait` evaluates the
predicate with `head_mutex` locked, then adds the thread to the list and releases the
mutex in one step; `notify_one` takes any one of the list, if there is one; a thread may
also leave it spuriously. A thread that left the list locks `head_mutex` again and goes
back to the predicate.

History that no access reads:

* each value travels with the number of its `push` call;
* `pushed` and `popped` are the values in the order of the assignments to `tail` and of
  the moves out of `head`;
* `filled t` is the last node that thread `t` stored a value in, and `complete p` says
  that the `push` that filled node `p` left its locked region;
* `seenEmpty t` says whether as many values had been popped as pushed when thread `t`
  last read `tail`;
* `woken t` is set when thread `t` leaves the list, until it finds the queue empty or
  takes the head.
-/

namespace EmbLinux.DesignLockBase.Queue

-- ---------------------------------------------------------------------------
-- Calls and program points
-- ---------------------------------------------------------------------------

/-- The overload that returns a `shared_ptr<T>`, or the one that assigns to a `T&`. -/
inductive Overload
  | pointer
  | value
  deriving DecidableEq

/-- The operations that lock `head_mutex`. -/
inductive HeadCall
  | waitAndPop (o : Overload)
  | tryPop (o : Overload)
  | empty
  deriving DecidableEq

/-- The return values. `popped none` is a null pointer or `false`. -/
inductive Ret (α : Type*)
  | popped (res : Option α)
  | isEmpty (b : Bool)
  | pushed
  deriving DecidableEq

/-- Where a thread stands. `out` is the value that the `T&` overload has assigned, and `c`
the call that a pop belongs to. -/
inductive Pc (α : Type*)
  | idle (last : Option (Ret α))
  | pushNew (data : α)
  | pushLock (data : α) (p : Nat)
  | pushData (data : α) (p : Nat)
  | pushNext (data : α) (p : Nat)
  | pushTail (data : α) (p : Nat)
  | pushUnlock
  | pushNotify
  | headLock (c : HeadCall)
  | getLock (c : HeadCall)
  | getRead (c : HeadCall)
  | getUnlock (c : HeadCall) (tail : Nat)
  | compare (c : HeadCall) (tail : Nat)
  | waitBlock (o : Overload)
  | blocked (o : Overload)
  | popValue (c : HeadCall)
  | popMove (c : HeadCall) (out : Option α)
  | popNext (old : Nat) (out : Option α)
  | popHead (old next : Nat) (out : Option α)
  | popUnlock (old : Nat) (out : Option α)
  | popRead (old : Nat)
  | popDelete (old : Nat) (res : Option α)
  | failUnlock
  | emptyUnlock (b : Bool)
  deriving DecidableEq

/-- Values with the number of the `push` call that brought them. -/
abbrev Numbered (α : Type*) := Nat × α

/-- The nodes by their addresses, the two ends with their mutexes, the threads blocked on
`data_cond`, and where each thread stands. -/
structure State (τ α : Type*) where
  data : Nat → Option (Numbered α)
  next : Nat → Nat
  allocated : Nat → Bool
  head : Nat
  tail : Nat
  headMutex : Option τ
  tailMutex : Option τ
  waiting : List τ
  pc : τ → Pc (Numbered α)
  complete : Nat → Bool
  filled : τ → Nat
  seenEmpty : τ → Bool
  woken : τ → Bool
  calls : Nat
  pushed : List (Numbered α)
  popped : List (Numbered α)

/-- What happens next: a call begins, the thread makes its next step, or a blocked thread
wakes up spuriously. `fresh` is what `new` returns and `pick` the place in the list of
the thread that `notify_one` wakes. -/
inductive Action (τ α : Type*)
  | callPush (t : τ) (data : α)
  | call (t : τ) (c : HeadCall)
  | run (t : τ) (fresh pick : Nat)
  | wakeUp (t : τ)

variable {τ α : Type*} [DecidableEq τ]

-- ---------------------------------------------------------------------------
-- The accesses
-- ---------------------------------------------------------------------------

def State.setPc (s : State τ α) (t : τ) (pc : Pc (Numbered α)) : State τ α :=
  { s with pc := Function.update s.pc t pc }

/-- `new node`. -/
def State.newNode (s : State τ α) (p : Nat) : State τ α :=
  { s with
    data := Function.update s.data p none
    next := Function.update s.next p 0
    allocated := Function.update s.allocated p true
    complete := Function.update s.complete p false }

/-- A thread leaves the list of `data_cond`. -/
def State.wake (s : State τ α) (t : τ) : State τ α :=
  { s with
    waiting := s.waiting.erase t
    woken := Function.update s.woken t true }

/-- `return tail` in `get_tail`. -/
def State.readTail (s : State τ α) (t : τ) : State τ α :=
  { s with
    seenEmpty := Function.update s.seenEmpty t (decide (s.pushed.length = s.popped.length))
    woken := Function.update s.woken t (s.woken t && decide (s.head ≠ s.tail)) }

/-- `tail = new_tail`; the value that was stored in the old dummy node is in the queue. -/
def State.assignTail (s : State τ α) (data : Numbered α) (p : Nat) : State τ α :=
  { s with
    tail := p
    pushed := s.pushed ++ [data] }

/-- `std::unique_ptr<node> old_head = std::move(head)`. -/
def State.moveHead (s : State τ α) (t : τ) : State τ α :=
  { s with
    head := 0
    popped := s.popped ++ (s.data s.head).toList
    woken := Function.update s.woken t false }

/-- Where `head.get() == get_tail()` leads. -/
def State.branch (s : State τ α) (t : τ) (c : HeadCall) (equal : Bool) : State τ α :=
  match c, equal with
  | .waitAndPop o, true => s.setPc t (.waitBlock o)
  | .tryPop _, true => s.setPc t .failUnlock
  | .empty, b => s.setPc t (.emptyUnlock b)
  | .waitAndPop .pointer, false | .tryPop .pointer, false => s.setPc t (.popMove c none)
  | .waitAndPop .value, false | .tryPop .value, false => s.setPc t (.popValue c)

/-- `notify_one`. -/
def State.notifyOne (s : State τ α) (pick : Nat) : Option (State τ α) :=
  match s.waiting with
  | [] => some s
  | _ :: _ => s.waiting[pick]?.map s.wake

/-- The next step of the call that thread `t` is running. -/
def run (s : State τ α) (t : τ) (fresh pick : Nat) : Option (State τ α) :=
  match s.pc t with
  | .idle _ => none
  | .pushNew data =>
    if fresh ≠ 0 ∧ s.allocated fresh = false then
      some ((s.newNode fresh).setPc t (.pushLock data fresh))
    else none
  | .pushLock data p =>
    match s.tailMutex with
    | none => some { s.setPc t (.pushData data p) with tailMutex := some t }
    | some _ => none
  | .pushData data p =>
    some { s.setPc t (.pushNext data p) with
      data := Function.update s.data s.tail (some data)
      filled := Function.update s.filled t s.tail }
  | .pushNext data p =>
    some { s.setPc t (.pushTail data p) with next := Function.update s.next s.tail p }
  | .pushTail data p => some ((s.assignTail data p).setPc t .pushUnlock)
  | .pushUnlock =>
    some { s.setPc t .pushNotify with
      tailMutex := none
      complete := Function.update s.complete (s.filled t) true }
  | .pushNotify => (s.notifyOne pick).map fun s' => s'.setPc t (.idle (some .pushed))
  | .headLock c =>
    match s.headMutex with
    | none => some { s.setPc t (.getLock c) with headMutex := some t }
    | some _ => none
  | .getLock c =>
    match s.tailMutex with
    | none => some { s.setPc t (.getRead c) with tailMutex := some t }
    | some _ => none
  | .getRead c => some ((s.readTail t).setPc t (.getUnlock c s.tail))
  | .getUnlock c tail => some { s.setPc t (.compare c tail) with tailMutex := none }
  | .compare c tail => some (s.branch t c (decide (s.head = tail)))
  | .waitBlock o =>
    some { s.setPc t (.blocked o) with
      headMutex := none
      waiting := s.waiting ++ [t] }
  | .blocked o =>
    if t ∈ s.waiting then none else some (s.setPc t (.headLock (.waitAndPop o)))
  -- `value = std::move(*head->data)`, which needs a value
  | .popValue c => (s.data s.head).map fun v => s.setPc t (.popMove c (some v))
  | .popMove _ out => some ((s.moveHead t).setPc t (.popNext s.head out))
  -- `head = std::move(old_head->next)`: the pointer is taken out, then stored
  | .popNext old out =>
    some { s.setPc t (.popHead old (s.next old) out) with
      next := Function.update s.next old 0 }
  | .popHead old next out => some { s.setPc t (.popUnlock old out) with head := next }
  | .popUnlock old none => some { s.setPc t (.popRead old) with headMutex := none }
  | .popUnlock old (some v) =>
    some { s.setPc t (.popDelete old (some v)) with headMutex := none }
  | .popRead old => some (s.setPc t (.popDelete old (s.data old)))
  | .popDelete old res =>
    some { s.setPc t (.idle (some (.popped res))) with
      allocated := Function.update s.allocated old false }
  | .failUnlock => some { s.setPc t (.idle (some (.popped none))) with headMutex := none }
  | .emptyUnlock b => some { s.setPc t (.idle (some (.isEmpty b))) with headMutex := none }

/-- A call, the next access of a thread, or a spurious wake-up. -/
def step (s : State τ α) : Action τ α → Option (State τ α)
  | .callPush t data =>
    match s.pc t with
    | .idle _ => some { s.setPc t (.pushNew (s.calls, data)) with calls := s.calls + 1 }
    | _ => none
  | .call t c =>
    match s.pc t with
    | .idle _ => some (s.setPc t (.headLock c))
    | _ => none
  | .run t fresh pick => run s t fresh pick
  | .wakeUp t => if t ∈ s.waiting then some (s.wake t) else none

-- ---------------------------------------------------------------------------
-- The system
-- ---------------------------------------------------------------------------

/-- The constructor: one dummy node, here at address 1. -/
def init (τ α : Type*) : State τ α where
  data := fun _ => none
  next := fun _ => 0
  allocated := fun p => decide (p = 1)
  head := 1
  tail := 1
  headMutex := none
  tailMutex := none
  waiting := []
  pc := fun _ => .idle none
  complete := fun _ => false
  filled := fun _ => 0
  seenEmpty := fun _ => false
  woken := fun _ => false
  calls := 0
  pushed := []
  popped := []

/-- A queue with a dummy node, and no call under way. -/
def system (τ α : Type*) [DecidableEq τ] : System (State τ α) (Action τ α) where
  init := init τ α
  step := step

end EmbLinux.DesignLockBase.Queue
