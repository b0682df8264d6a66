import EmbLinux.Lib.System

/-!
# EmbLinux — `lock_free_stack`

The model of `lock_free_stack` with split reference counts. Any number of threads
call `push` and `pop`; a step is one atomic access of one thread, one access to a
field of a node, or one `new` or `delete`, in a sequentially consistent memory.
`compare_exchange_weak` may fail spuriously. A node is an address, 0 is `nullptr`,
and `new` returns any address that is not allocated, so an address may come back
after its `delete`. The counts are unbounded.

History that no access reads:

* each value travels with the number of its `push` call;
* `external` is the external count of a node, in `head` or in the `next` of the node
  above it, and after the node was popped with the thread that popped it until this
  thread adds it to the internal count;
* `serial` numbers the nodes that an address was used for, `taken t` and `made t` are
  the numbers of the node that thread `t` took its last reference to and of the last
  one that it made, `removed` and `deleted` those of the nodes that were taken off the
  stack and of those that were deleted;
* `returned` lists the values that a `pop` returned.
-/

namespace EmbLinux.DesignLockFree.Stack

-- ---------------------------------------------------------------------------
-- Nodes, calls and program points
-- ---------------------------------------------------------------------------

/-- `counted_node_ptr`. -/
structure CountedNodePtr where
  externalCount : Int
  ptr : Nat
  deriving DecidableEq

/-- The public member functions. -/
inductive Call (α : Type*)
  | pop
  | push (data : α)
  deriving DecidableEq

/-- The return values of the two operations. -/
inductive Ret (α : Type*)
  | popped (res : Option α)
  | pushed
  deriving DecidableEq

/-- What follows a drop of a reference: `return res`, or the next turn of the loop. -/
inductive Cont (α : Type*)
  | popReturn (res : Option α)
  | popRetry (oldHead : CountedNodePtr)
  deriving DecidableEq

/-- Where a thread stands. -/
inductive Pc (α : Type*)
  | idle (last : Option (Ret α))
  | popLoad
  | popIncrease (oldHead : CountedNodePtr)
  | popNext (oldHead : CountedNodePtr)
  | popCas (oldHead next : CountedNodePtr)
  | popSwap (oldHead : CountedNodePtr)
  | popAdd (oldHead : CountedNodePtr) (res : Option α)
  | popSub (ptr : Nat) (oldHead : CountedNodePtr)
  | popAcquire (ptr : Nat) (oldHead : CountedNodePtr)
  | delete (ptr : Nat) (k : Cont α)
  | pushNew (data : α)
  | pushLoad (data : α) (ptr : Nat)
  | pushCas (data : α) (ptr : Nat)
  deriving DecidableEq

/-- Values with the number of the `push` call that brought them. -/
abbrev Numbered (α : Type*) := Nat × α

/-- The nodes, `head` and the threads; the fields from `external` on are records of the proof
that no step reads. -/
structure State (τ α : Type*) where
  data : Nat → Option (Numbered α)
  internalCount : Nat → Int
  next : Nat → CountedNodePtr
  allocated : Nat → Bool
  head : CountedNodePtr
  pc : τ → Pc (Numbered α)
  external : Nat → Option Int
  serial : Nat → Nat
  news : Nat
  taken : τ → Nat
  made : τ → Nat
  removed : List Nat
  deleted : List Nat
  calls : Nat
  returned : List (Numbered α)

/-- What happens next: a call begins, or the thread makes its next access. `fresh`
is what `new` returns, if the access is one. -/
inductive Action (τ α : Type*)
  | callPop (t : τ)
  | callPush (t : τ) (data : α)
  | run (t : τ) (spurious : Bool) (fresh : Nat)

variable {τ α : Type*} [DecidableEq τ]

-- ---------------------------------------------------------------------------
-- The accesses
-- ---------------------------------------------------------------------------

/-- Thread `t` goes on at `pc`. -/
def State.setPc (s : State τ α) (t : τ) (pc : Pc (Numbered α)) : State τ α :=
  { s with pc := Function.update s.pc t pc }

/-- `new node(data)`. Its `next` is stored later, here it is null. -/
def State.newNode (s : State τ α) (t : τ) (p : Nat) (data : Numbered α) : State τ α :=
  { s with
    data := Function.update s.data p (some data)
    internalCount := Function.update s.internalCount p 0
    next := Function.update s.next p ⟨0, 0⟩
    allocated := Function.update s.allocated p true
    external := Function.update s.external p (some 1)
    serial := Function.update s.serial p s.news
    news := s.news + 1
    made := Function.update s.made t s.news }

/-- `delete` of the node at `p`: its address is free again. -/
def State.deleteNode (s : State τ α) (p : Nat) : State τ α :=
  { s with
    allocated := Function.update s.allocated p false
    deleted := s.deleted ++ [s.serial p] }

/-- What the `pop` does after it dropped its reference. -/
def State.resume (s : State τ α) (t : τ) : Cont (Numbered α) → State τ α
  | .popReturn res =>
    { s.setPc t (.idle (some (.popped res))) with returned := s.returned ++ res.toList }
  | .popRetry oldHead => s.setPc t (.popIncrease oldHead)

/-- One turn of the loop of `increase_head_count`, and `if(!ptr)` after a successful
one. -/
def State.increaseHeadCount (s : State τ α) (t : τ) (old : CountedNodePtr) : State τ α :=
  if s.head = old then
    if old.ptr = 0 then
      { s.setPc t (.idle (some (.popped none))) with head := ⟨old.externalCount + 1, old.ptr⟩ }
    else
      { s.setPc t (.popNext ⟨old.externalCount + 1, old.ptr⟩) with
        head := ⟨old.externalCount + 1, old.ptr⟩
        external := Function.update s.external old.ptr (some (old.externalCount + 1))
        taken := Function.update s.taken t (s.serial old.ptr) }
  else
    s.setPc t (.popIncrease s.head)

/-- The next access of the call that thread `t` is running. -/
def run (s : State τ α) (t : τ) (spurious : Bool) (fresh : Nat) : Option (State τ α) :=
  match s.pc t with
  | .idle _ => none
  | .popLoad => some (s.setPc t (.popIncrease s.head))
  | .popIncrease oldHead => some (s.increaseHeadCount t oldHead)
  | .popNext oldHead => some (s.setPc t (.popCas oldHead (s.next oldHead.ptr)))
  | .popCas oldHead next =>
    if s.head = oldHead then
      some { s.setPc t (.popSwap oldHead) with
        head := next
        removed := s.removed ++ [s.serial oldHead.ptr] }
    else
      some (s.setPc t (.popSub oldHead.ptr s.head))
  -- `res.swap(ptr->data)`
  | .popSwap oldHead =>
    some { s.setPc t (.popAdd oldHead (s.data oldHead.ptr)) with
      data := Function.update s.data oldHead.ptr none }
  | .popAdd oldHead res =>
    let added : State τ α := { s with
      internalCount := Function.update s.internalCount oldHead.ptr
        (s.internalCount oldHead.ptr + (oldHead.externalCount - 2))
      external := Function.update s.external oldHead.ptr none }
    if s.internalCount oldHead.ptr = -(oldHead.externalCount - 2) then
      some (added.setPc t (.delete oldHead.ptr (.popReturn res)))
    else
      some (added.resume t (.popReturn res))
  | .popSub ptr oldHead =>
    let subtracted : State τ α := { s with
      internalCount := Function.update s.internalCount ptr (s.internalCount ptr - 1) }
    if s.internalCount ptr = 1 then some (subtracted.setPc t (.popAcquire ptr oldHead))
    else some (subtracted.setPc t (.popIncrease oldHead))
  -- `internal_count.load(memory_order_acquire)`
  | .popAcquire ptr oldHead => some (s.setPc t (.delete ptr (.popRetry oldHead)))
  | .delete ptr k => some ((s.deleteNode ptr).resume t k)
  | .pushNew data =>
    if fresh ≠ 0 ∧ s.allocated fresh = false then
      some ((s.newNode t fresh data).setPc t (.pushLoad data fresh))
    else none
  | .pushLoad data ptr =>
    some { s.setPc t (.pushCas data ptr) with next := Function.update s.next ptr s.head }
  | .pushCas data ptr =>
    if s.head = s.next ptr ∧ spurious = false then
      some { s.setPc t (.idle (some .pushed)) with head := ⟨1, ptr⟩ }
    else
      some { s.setPc t (.pushCas data ptr) with next := Function.update s.next ptr s.head }

/-- A call begins or a running one takes its next step. -/
def step (s : State τ α) : Action τ α → Option (State τ α)
  | .callPop t =>
    match s.pc t with
    | .idle _ => some (s.setPc t .popLoad)
    | _ => none
  | .callPush t data =>
    match s.pc t with
    | .idle _ => some { s.setPc t (.pushNew (s.calls, data)) with calls := s.calls + 1 }
    | _ => none
  | .run t spurious fresh => run s t spurious fresh

-- ---------------------------------------------------------------------------
-- The system
-- ---------------------------------------------------------------------------

/-- The constructor: `head` is `{0, nullptr}`. -/
def init (τ α : Type*) : State τ α where
  data := fun _ => none
  internalCount := fun _ => 0
  next := fun _ => ⟨0, 0⟩
  allocated := fun _ => false
  head := ⟨0, 0⟩
  pc := fun _ => .idle none
  external := fun _ => none
  serial := fun _ => 0
  news := 0
  taken := fun _ => 0
  made := fun _ => 0
  removed := []
  deleted := []
  calls := 0
  returned := []

/-- The stack, under every interleaving. -/
def system (τ α : Type*) [DecidableEq τ] : System (State τ α) (Action τ α) where
  init := init τ α
  step := step

end EmbLinux.DesignLockFree.Stack
