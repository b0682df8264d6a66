import EmbLinux.Lib.System
import Mathlib.Logic.Function.Basic

/-!
# EmbLinux — `threadsafe_list`

The model of the singly linked list with one mutex for each node. Any number of threads
call `push_front`, `for_each`, `find_first_if` and `remove_if`; a step is one lock or
unlock, one update of a pointer, or one call of the function or predicate, whose answer
and whose assignment to the element the step brings. 0 is `nullptr` and 1 the dummy node
`head`; `new` numbers the nodes from 2 on. A number is not used twice: that no thread has a
pointer to a deleted node, so that an address that comes back is not confused with the old
one, is a result.

History that no access reads:

* `nodes` is the list, in its order: a node enters it when `push_front` stores it in
  `head.next`, and leaves it when `remove_if` moves it out of the `next` before it;
* `accepted` has each call of a predicate by `remove_if` that returned true, with the thread,
  and `unlinked` each node that left the list, with the thread that took it out;
* `present t` are the nodes that were in the list when the last traversal of thread `t`
  locked `head`, and have been in it since; `visited t` are those to which its function
  was applied.
-/

namespace EmbLinux.DesignLockBase.ThreadsafeList

-- ---------------------------------------------------------------------------
-- Calls and program points
-- ---------------------------------------------------------------------------

/-- The dummy node. -/
abbrev head : Nat := 1

/-- The three calls that go through the list. -/
inductive Traversal
  | forEach
  | findFirstIf
  | removeIf
  deriving DecidableEq

/-- What a call returns. -/
inductive Ret (α : Type*)
  | pushed
  | found (res : Option α)
  | done
  deriving DecidableEq

/-- Where a thread stands. -/
inductive Pc (α : Type*)
  | idle (last : Option (Ret α))
  | pushNew (data : α)
  | pushLock (p : Nat)
  | pushTake (p : Nat)
  | pushLink (p : Nat)
  | pushUnlock
  | lockHead (v : Traversal)
  | readNext (v : Traversal) (current : Nat)
  | lockNext (v : Traversal) (current next : Nat)
  | unlockCurrent (v : Traversal) (current next : Nat)
  | callBack (v : Traversal) (next : Nat)
  | findReturn (next : Nat)
  | findUnlock (next : Nat) (res : Option α)
  | callPredicate (current next : Nat)
  | removeTake (current next : Nat)
  | removeLink (current oldNext : Nat)
  | removeUnlock (current oldNext : Nat)
  | removeDelete (current oldNext : Nat)
  | removePass (current next : Nat)
  | unlockLast (v : Traversal) (current : Nat)
  deriving DecidableEq

/-- The nodes by their addresses, with a mutex each, and where each thread stands; the rest is
history: the nodes in their order, the removals and the visits. -/
structure State (τ α : Type*) where
  data : Nat → Option α
  next : Nat → Nat
  allocated : Nat → Bool
  mutex : Nat → Option τ
  pc : τ → Pc α
  news : Nat
  nodes : List Nat
  accepted : List (τ × Nat)
  unlinked : List (τ × Nat)
  present : τ → List Nat
  visited : τ → List Nat

/-- What happens next: a call begins, or the thread makes its next step. If the step calls the
function or the predicate, `answer` is what it returns, and `value` what it assigns to the
element, if it does. -/
inductive Action (τ α : Type*)
  | callPush (t : τ) (data : α)
  | call (t : τ) (v : Traversal)
  | run (t : τ) (answer : Bool) (value : Option α)

variable {τ α : Type*} [DecidableEq τ]

-- ---------------------------------------------------------------------------
-- The steps
-- ---------------------------------------------------------------------------

def State.setPc (s : State τ α) (t : τ) (pc : Pc α) : State τ α :=
  { s with pc := Function.update s.pc t pc }

/-- A thread takes the mutex of a node, -/
def State.lock (s : State τ α) (t : τ) (p : Nat) : State τ α :=
  { s with mutex := Function.update s.mutex p (some t) }

/-- or gives it back. -/
def State.unlock (s : State τ α) (p : Nat) : State τ α :=
  { s with mutex := Function.update s.mutex p none }

/-- `new node(value)` -/
def State.newNode (s : State τ α) (data : α) : State τ α :=
  { s with
    data := Function.update s.data (s.news + 2) (some data)
    next := Function.update s.next (s.news + 2) 0
    allocated := Function.update s.allocated (s.news + 2) true
    mutex := Function.update s.mutex (s.news + 2) none
    news := s.news + 1 }

/-- `target->next = std::move(source->next)`, for two nodes. -/
def State.moveNext (s : State τ α) (target source : Nat) : State τ α :=
  { s with next := Function.update (Function.update s.next target (s.next source)) source 0 }

/-- `old_next = std::move(current->next)`: the node `p` leaves the list. -/
def State.takeNext (s : State τ α) (t : τ) (current p : Nat) : State τ α :=
  { s with
    next := Function.update s.next current 0
    nodes := s.nodes.erase p
    unlinked := s.unlinked ++ [(t, p)]
    present := fun u => (s.present u).erase p }

/-- `head.next = std::move(new_node)`: the node `p` enters the list. -/
def State.linkFront (s : State τ α) (p : Nat) : State τ α :=
  { s with
    next := Function.update s.next head p
    nodes := p :: s.nodes }

/-- `delete`, at the end of the scope of `old_next`. -/
def State.delete (s : State τ α) (p : Nat) : State τ α :=
  { s with allocated := Function.update s.allocated p false }

/-- A traversal begins. -/
def State.enter (s : State τ α) (t : τ) : State τ α :=
  { s with
    present := Function.update s.present t s.nodes
    visited := Function.update s.visited t [] }

/-- The function is applied to the node. -/
def State.visit (s : State τ α) (t : τ) (p : Nat) : State τ α :=
  { s with visited := Function.update s.visited t (s.visited t ++ [p]) }

/-- The predicate of `remove_if` returned true for the node. -/
def State.accept (s : State τ α) (t : τ) (p : Nat) : State τ α :=
  { s with accepted := s.accepted ++ [(t, p)] }

/-- `*p->data = value`, by the function or predicate. -/
def State.assign (s : State τ α) (p : Nat) : Option α → State τ α
  | none => s
  | some value => { s with data := Function.update s.data p (some value) }

/-- After the lock of the next node. -/
def afterLock (v : Traversal) (current next : Nat) : Pc α :=
  match v with
  | .removeIf => .callPredicate current next
  | .forEach | .findFirstIf => .unlockCurrent v current next

/-- After the function or predicate. -/
def afterCall (v : Traversal) (next : Nat) (answer : Bool) : Pc α :=
  match v with
  | .findFirstIf => if answer then .findReturn next else .readNext v next
  | .forEach | .removeIf => .readNext v next

/-- What the call returns after the last node. -/
def Traversal.ret : Traversal → Ret α
  | .findFirstIf => .found none
  | .forEach | .removeIf => .done

/-- The next step of the call that thread `t` is running. -/
def run (s : State τ α) (t : τ) (answer : Bool) (value : Option α) : Option (State τ α) :=
  match s.pc t with
  | .idle _ => none
  | .pushNew data => some ((s.newNode data).setPc t (.pushLock (s.news + 2)))
  | .pushLock p =>
    match s.mutex head with
    | none => some ((s.lock t head).setPc t (.pushTake p))
    | some _ => none
  | .pushTake p => some ((s.moveNext p head).setPc t (.pushLink p))
  | .pushLink p => some ((s.linkFront p).setPc t .pushUnlock)
  | .pushUnlock => some ((s.unlock head).setPc t (.idle (some .pushed)))
  | .lockHead v =>
    match s.mutex head with
    | none => some (((s.lock t head).enter t).setPc t (.readNext v head))
    | some _ => none
  -- `while (node* const next = current->next.get())`
  | .readNext v current =>
    if s.next current = 0 then some (s.setPc t (.unlockLast v current))
    else some (s.setPc t (.lockNext v current (s.next current)))
  | .lockNext v current next =>
    match s.mutex next with
    | none => some ((s.lock t next).setPc t (afterLock v current next))
    | some _ => none
  | .unlockCurrent v current next => some ((s.unlock current).setPc t (.callBack v next))
  | .callBack v next =>
    some (((s.assign next value).visit t next).setPc t (afterCall v next answer))
  | .findReturn next => some (s.setPc t (.findUnlock next (s.data next)))
  | .findUnlock next res => some ((s.unlock next).setPc t (.idle (some (.found res))))
  | .callPredicate current next =>
    if answer then
      some (((s.assign next value).accept t next).setPc t (.removeTake current next))
    else some ((s.assign next value).setPc t (.removePass current next))
  | .removeTake current next =>
    some ((s.takeNext t current next).setPc t (.removeLink current next))
  | .removeLink current oldNext =>
    some ((s.moveNext current oldNext).setPc t (.removeUnlock current oldNext))
  | .removeUnlock current oldNext =>
    some ((s.unlock oldNext).setPc t (.removeDelete current oldNext))
  | .removeDelete current oldNext =>
    some ((s.delete oldNext).setPc t (.readNext .removeIf current))
  | .removePass current next => some ((s.unlock current).setPc t (.readNext .removeIf next))
  | .unlockLast v current => some ((s.unlock current).setPc t (.idle (some v.ret)))

/-- A call, or the next access of a thread, with what the function of the caller answers and
assigns there. -/
def step (s : State τ α) : Action τ α → Option (State τ α)
  | .callPush t data =>
    match s.pc t with
    | .idle _ => some (s.setPc t (.pushNew data))
    | _ => none
  | .call t v =>
    match s.pc t with
    | .idle _ => some (s.setPc t (.lockHead v))
    | _ => none
  | .run t answer value => run s t answer value

-- ---------------------------------------------------------------------------
-- The system
-- ---------------------------------------------------------------------------

/-- A head without a successor. -/
def init (τ α : Type*) : State τ α where
  data := fun _ => none
  next := fun _ => 0
  allocated := fun p => decide (p = head)
  mutex := fun _ => none
  pc := fun _ => .idle none
  news := 0
  nodes := []
  accepted := []
  unlinked := []
  present := fun _ => []
  visited := fun _ => []

/-- The threads and their list. -/
def system (τ α : Type*) [DecidableEq τ] : System (State τ α) (Action τ α) where
  init := init τ α
  step := step

end EmbLinux.DesignLockBase.ThreadsafeList
