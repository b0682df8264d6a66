import EmbLinux.Lib.System
import Mathlib

/-!
# EmbLinux — `lock_free_queue`

The model of `lock_free_queue` with split reference counts. Any number of threads
call `push` and `pop`; a step is one atomic access of one thread, or one `new` or
`delete`, in a sequentially consistent memory. `compare_exchange_weak` may fail
spuriously. A node is an address, 0 is `nullptr`, and `new` returns any address
that is not allocated, so an address may come back after its `delete`. External
and internal counts are unbounded, `external_counters` has its two bits.

History that no access reads:

* each value travels with the number of its `push` call;
* `published`, `passed` and `external` say of a node, since its `new`, whether it
  has been linked, which of `head` and `tail` has moved past it, and the external
  count that each of them has for it until `free_external_counter` adds it;
* `serial` numbers the nodes that an address was used for, `taken t` and `made t` are
  the numbers of the node that thread `t` took its last reference to and of the last
  one that it made;
* `pushed` and `popped` list the values in the order in which `tail` and `head`
  moved past their nodes, `finished` and `returned` those whose `push` returned
  and those that a `pop` returned.
-/

namespace EmbLinux.DesignLockFree.Queue

-- ---------------------------------------------------------------------------
-- Nodes, calls and program points
-- ---------------------------------------------------------------------------

/-- `counted_node_ptr`. -/
structure CountedNodePtr where
  externalCount : Int
  ptr : Nat
  deriving DecidableEq

/-- The two bits of `external_counters` have a zero. -/
instance neZeroFour : NeZero 4 := Nat.instNeZeroSucc

/-- `node_counter`; the bit field of two bits is a `Fin 4`. -/
structure NodeCounter where
  internalCount : Int
  externalCounters : Fin 4
  deriving DecidableEq

/-- `{0, nullptr}`. -/
def nullNext : CountedNodePtr := ⟨0, 0⟩

/-- The two counted pointers of the queue: `head` and `tail`. -/
inductive Side
  | head
  | tail
  deriving DecidableEq

/-- The public member functions. -/
inductive Call (α : Type*)
  | pop
  | push (value : α)
  deriving DecidableEq

/-- The return values of the two operations. -/
inductive Ret (α : Type*)
  | popped (result : Option α)
  | pushed
  deriving DecidableEq

/-- What follows a `free_external_counter` or a `release_ref`. -/
inductive Cont (α : Type*)
  | popReturn (result : Option α)
  | popRetry (oldHead : CountedNodePtr)
  | pushReturn (value : α)
  | pushRetry (value : α) (newNext oldTail : CountedNodePtr)
  deriving DecidableEq

/-- Who calls `set_new_tail`: a `push` whose value is in the node, or one that
helps. -/
inductive Pusher (α : Type*)
  | finish (value : α)
  | help (value : α) (newNext : CountedNodePtr)
  deriving DecidableEq

/-- Where a thread stands. -/
inductive Pc (α : Type*)
  | idle (last : Option (Ret α))
  | popLoad
  | popIncrease (oldHead : CountedNodePtr)
  | popTail (oldHead : CountedNodePtr)
  | popNext (oldHead : CountedNodePtr)
  | popCas (oldHead next : CountedNodePtr)
  | popData (oldHead : CountedNodePtr)
  | pushNew (value : α)
  | pushLoad (value : α) (newNext : CountedNodePtr)
  | pushIncrease (value : α) (newNext oldTail : CountedNodePtr)
  | pushData (value : α) (newNext oldTail : CountedNodePtr)
  | pushNext (value : α) (newNext oldTail : CountedNodePtr)
  | pushDelete (value : α) (newNext oldTail oldNext : CountedNodePtr)
  | helpNext (value : α) (newNext oldTail : CountedNodePtr)
  | helpNew (value : α) (oldTail oldNext : CountedNodePtr)
  | setNewTail (pusher : Pusher α) (oldTail newTail : CountedNodePtr)
  | freeLoad (side : Side) (old : CountedNodePtr) (k : Cont α)
  | freeCas (side : Side) (old : CountedNodePtr) (oldCounter : NodeCounter) (k : Cont α)
  | releaseLoad (ptr : Nat) (k : Cont α)
  | releaseCas (ptr : Nat) (oldCounter : NodeCounter) (k : Cont α)
  | delete (ptr : Nat) (k : Cont α)
  deriving DecidableEq

/-- Values with the number of the `push` call that brought them. -/
abbrev Numbered (α : Type*) := Nat × α

/-- The nodes, the two counted pointers and the threads; the fields from `published` on are
records of the proof that no step reads. -/
structure State (τ α : Type*) where
  data : Nat → Option (Numbered α)
  count : Nat → NodeCounter
  next : Nat → CountedNodePtr
  allocated : Nat → Bool
  counter : Side → CountedNodePtr
  pc : τ → Pc (Numbered α)
  published : Nat → Bool
  passed : Nat → Side → Bool
  external : Nat → Side → Option Int
  serial : Nat → Nat
  news : Nat
  taken : τ → Nat
  made : τ → Nat
  calls : Nat
  pushed : List (Numbered α)
  popped : List (Numbered α)
  finished : List (Numbered α)
  returned : List (Numbered α)

/-- What happens next: a call begins, or the thread makes its next access. `fresh`
is what `new` returns, if the access is one. -/
inductive Action (τ α : Type*)
  | callPop (t : τ)
  | callPush (t : τ) (value : α)
  | run (t : τ) (spurious : Bool) (fresh : Nat)

variable {τ α : Type*} [DecidableEq τ]

-- ---------------------------------------------------------------------------
-- The accesses
-- ---------------------------------------------------------------------------

/-- Thread `t` goes on at `pc`. -/
def State.setPc (s : State τ α) (t : τ) (pc : Pc (Numbered α)) : State τ α :=
  { s with pc := Function.update s.pc t pc }

/-- `new node`, with its constructor. -/
def State.newNode (s : State τ α) (t : τ) (p : Nat) : State τ α :=
  { s with
    data := Function.update s.data p none
    count := Function.update s.count p ⟨0, 2⟩
    next := Function.update s.next p nullNext
    allocated := Function.update s.allocated p true
    published := Function.update s.published p false
    passed := Function.update s.passed p fun _ => false
    external := Function.update s.external p fun _ => some 1
    serial := Function.update s.serial p s.news
    news := s.news + 1
    made := Function.update s.made t s.news }

/-- `delete` of the node at `p`: its address is free again. -/
def State.deleteNode (s : State τ α) (p : Nat) : State τ α :=
  { s with allocated := Function.update s.allocated p false }

/-- What the call does after it dropped its node. -/
def State.resume (s : State τ α) (t : τ) : Cont (Numbered α) → State τ α
  | .popReturn result =>
    { s.setPc t (.idle (some (.popped result))) with returned := s.returned ++ result.toList }
  | .popRetry oldHead => s.setPc t (.popIncrease oldHead)
  | .pushReturn value =>
    { s.setPc t (.idle (some .pushed)) with finished := s.finished ++ [value] }
  | .pushRetry value newNext oldTail => s.setPc t (.pushIncrease value newNext oldTail)

/-- One turn of the loop of `increase_external_count`. -/
def State.increaseExternalCount (s : State τ α) (t : τ) (side : Side) (old : CountedNodePtr)
    (again after : CountedNodePtr → Pc (Numbered α)) : State τ α :=
  if s.counter side = old then
    { s.setPc t (after ⟨old.externalCount + 1, old.ptr⟩) with
      counter := Function.update s.counter side ⟨old.externalCount + 1, old.ptr⟩
      external := Function.update s.external old.ptr
        (Function.update (s.external old.ptr) side (some (old.externalCount + 1)))
      taken := Function.update s.taken t (s.serial old.ptr) }
  else
    s.setPc t (again (s.counter side))

/-- The test of `node_counter` after an exchange on it: the last reference deletes. -/
def State.dropped (s : State τ α) (t : τ) (ptr : Nat) (new : NodeCounter)
    (k : Cont (Numbered α)) : State τ α :=
  if new.internalCount = 0 ∧ new.externalCounters = 0 then s.setPc t (.delete ptr k)
  else s.resume t k

/-- `head` or `tail` moves from the node of `old` to `new`. -/
def State.move (s : State τ α) (side : Side) (old new : CountedNodePtr) : State τ α :=
  { s with
    counter := Function.update s.counter side new
    passed := Function.update s.passed old.ptr (Function.update (s.passed old.ptr) side true) }

/-- A successful exchange of `next`, from `{0, nullptr}`. -/
def State.link (s : State τ α) (p : Nat) (new : CountedNodePtr) : State τ α :=
  { s with
    next := Function.update s.next p new
    published := Function.update s.published new.ptr true }

/-- What follows the `set_new_tail` of a `push`, with `old_tail` as it is then. -/
def Pusher.cont : Pusher (Numbered α) → CountedNodePtr → Cont (Numbered α)
  | .finish value, _ => .pushReturn value
  | .help value newNext, oldTail => .pushRetry value newNext oldTail

/-- The next access of the call that thread `t` is running. -/
def run (s : State τ α) (t : τ) (spurious : Bool) (fresh : Nat) : Option (State τ α) :=
  match s.pc t with
  | .idle _ => none
  | .popLoad => some (s.setPc t (.popIncrease (s.counter .head)))
  | .popIncrease oldHead => some (s.increaseExternalCount t .head oldHead .popIncrease .popTail)
  | .popTail oldHead =>
    if oldHead.ptr = (s.counter .tail).ptr then
      some (s.setPc t (.releaseLoad oldHead.ptr (.popReturn none)))
    else
      some (s.setPc t (.popNext oldHead))
  | .popNext oldHead => some (s.setPc t (.popCas oldHead (s.next oldHead.ptr)))
  | .popCas oldHead next =>
    if s.counter .head = oldHead then
      some { (s.move .head oldHead next).setPc t (.popData oldHead) with
        popped := s.popped ++ (s.data oldHead.ptr).toList }
    else
      some (s.setPc t (.releaseLoad oldHead.ptr (.popRetry (s.counter .head))))
  -- `data.exchange(nullptr)`
  | .popData oldHead =>
    some { s.setPc t (.freeLoad .head oldHead (.popReturn (s.data oldHead.ptr))) with
      data := Function.update s.data oldHead.ptr none }
  | .pushNew value =>
    if fresh ≠ 0 ∧ s.allocated fresh = false then
      some ((s.newNode t fresh).setPc t (.pushLoad value ⟨1, fresh⟩))
    else none
  | .pushLoad value newNext => some (s.setPc t (.pushIncrease value newNext (s.counter .tail)))
  | .pushIncrease value newNext oldTail =>
    some (s.increaseExternalCount t .tail oldTail (.pushIncrease value newNext)
      (.pushData value newNext))
  | .pushData value newNext oldTail =>
    match s.data oldTail.ptr with
    | none =>
      some { s.setPc t (.pushNext value newNext oldTail) with
        data := Function.update s.data oldTail.ptr (some value) }
    | some _ => some (s.setPc t (.helpNext value newNext oldTail))
  | .pushNext value newNext oldTail =>
    if s.next oldTail.ptr = nullNext then
      some ((s.link oldTail.ptr newNext).setPc t (.setNewTail (.finish value) oldTail newNext))
    else
      some (s.setPc t (.pushDelete value newNext oldTail (s.next oldTail.ptr)))
  | .pushDelete value newNext oldTail oldNext =>
    some ((s.deleteNode newNext.ptr).setPc t (.setNewTail (.finish value) oldTail oldNext))
  | .helpNext value newNext oldTail =>
    if s.next oldTail.ptr = nullNext then
      some ((s.link oldTail.ptr newNext).setPc t (.helpNew value oldTail newNext))
    else
      some (s.setPc t (.setNewTail (.help value newNext) oldTail (s.next oldTail.ptr)))
  | .helpNew value oldTail oldNext =>
    -- `new_next.ptr = new node`; the count of `new_next` stays
    if fresh ≠ 0 ∧ s.allocated fresh = false then
      some ((s.newNode t fresh).setPc t
        (.setNewTail (.help value ⟨oldNext.externalCount, fresh⟩) oldTail oldNext))
    else none
  | .setNewTail pusher oldTail newTail =>
    if s.counter .tail = oldTail ∧ spurious = false then
      some { (s.move .tail oldTail newTail).setPc t (.freeLoad .tail oldTail (pusher.cont oldTail))
        with pushed := s.pushed ++ (s.data oldTail.ptr).toList }
    else if (s.counter .tail).ptr = oldTail.ptr then
      some (s.setPc t (.setNewTail pusher (s.counter .tail) newTail))
    else
      some (s.setPc t (.releaseLoad oldTail.ptr (pusher.cont (s.counter .tail))))
  | .freeLoad side old k => some (s.setPc t (.freeCas side old (s.count old.ptr) k))
  | .freeCas side old oldCounter k =>
    if s.count old.ptr = oldCounter then
      some (({ s with
        count := Function.update s.count old.ptr
          ⟨oldCounter.internalCount + (old.externalCount - 2), oldCounter.externalCounters - 1⟩
        external := Function.update s.external old.ptr
          (Function.update (s.external old.ptr) side none) } : State τ α).dropped t old.ptr
        ⟨oldCounter.internalCount + (old.externalCount - 2), oldCounter.externalCounters - 1⟩ k)
    else
      some (s.setPc t (.freeCas side old (s.count old.ptr) k))
  | .releaseLoad ptr k => some (s.setPc t (.releaseCas ptr (s.count ptr) k))
  | .releaseCas ptr oldCounter k =>
    if s.count ptr = oldCounter then
      some (({ s with
        count := Function.update s.count ptr
          ⟨oldCounter.internalCount - 1, oldCounter.externalCounters⟩ } : State τ α).dropped t ptr
        ⟨oldCounter.internalCount - 1, oldCounter.externalCounters⟩ k)
    else
      some (s.setPc t (.releaseCas ptr (s.count ptr) k))
  | .delete ptr k => some ((s.deleteNode ptr).resume t k)

/-- A call begins or a running one takes its next step. -/
def step (s : State τ α) : Action τ α → Option (State τ α)
  | .callPop t =>
    match s.pc t with
    | .idle _ => some (s.setPc t .popLoad)
    | _ => none
  | .callPush t value =>
    match s.pc t with
    | .idle _ => some { s.setPc t (.pushNew (s.calls, value)) with calls := s.calls + 1 }
    | _ => none
  | .run t spurious fresh => run s t spurious fresh

-- ---------------------------------------------------------------------------
-- The system
-- ---------------------------------------------------------------------------

/-- The constructor: `head` and `tail` have the same new node, here at address 1. -/
def init (τ α : Type*) : State τ α where
  data := fun _ => none
  count := fun p => if p = 1 then ⟨0, 2⟩ else ⟨0, 0⟩
  next := fun _ => nullNext
  allocated := fun p => decide (p = 1)
  counter := fun _ => ⟨1, 1⟩
  pc := fun _ => .idle none
  published := fun p => decide (p = 1)
  passed := fun _ _ => false
  external := fun p _ => if p = 1 then some 1 else none
  serial := fun _ => 0
  news := 1
  taken := fun _ => 0
  made := fun _ => 0
  calls := 0
  pushed := []
  popped := []
  finished := []
  returned := []

/-- The queue, under every interleaving. -/
def system (τ α : Type*) [DecidableEq τ] : System (State τ α) (Action τ α) where
  init := init τ α
  step := step

end EmbLinux.DesignLockFree.Queue
