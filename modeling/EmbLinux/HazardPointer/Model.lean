import EmbLinux.Lib.System
import Mathlib.Logic.Function.Basic

/-!
# EmbLinux — hazard pointers

The model of `HazardPointerOwner`, `reclaim_later` and
`delete_nodes_with_no_hazards`. Any number of threads acquire and release slots,
store to the pointers of their slots, retire objects and reclaim. A step is one
atomic access of one thread in a sequentially consistent memory, with the store
to `next` of a node that only the thread has; `compare_exchange_weak` may fail
spuriously.

Objects are values of `ο`, and `addr` gives their addresses: an address may be
used again once its object is deleted. A `DataToReclaim` node is a number, 0 is
the null pointer, and `new` returns any node that is not allocated.

History that no access reads:

* `object` is the object that an allocated node was made for;
* `retired` and `deleted` list the objects that `reclaim_later` was called with,
  and those whose deleter ran;
* `held o i` says that slot `i` has held the address of `o` without a break since
  before `o` was retired. An object counts as retired from the exchange that ends
  its `reclaim_later`, so the slots that held it before the call are among these.
-/

namespace EmbLinux.HazardPointer

/-- `kMaxHazardPointers` -/
def kMaxHazardPointers : Nat := 100

/-- Where a thread stands. `rest` and `next` are the start of the chain that is
left for it; `new` is whether `reclaim_later` adds the node, or a reclaimer adds
it again. -/
inductive Pc
  | idle
  | acquire (i : Nat)
  -- the two stores of `~HazardPointerOwner`
  | clear (i : Nat)
  | free (i : Nat)
  | addLoad (node rest : Nat) (new : Bool)
  | addCas (node rest : Nat) (new : Bool)
  | exchange
  | readNext (current : Nat)
  | scan (current next i : Nat)
  | delete (current next : Nat)
  deriving DecidableEq

/-- `slots t` are the slots that the owners of thread `t` have in `m_hp`. -/
structure State (τ ο π : Type*) where
  id : Nat → Option τ
  pointer : Nat → Option π
  nodesToReclaim : Nat
  data : Nat → Option π
  next : Nat → Nat
  pc : τ → Pc
  slots : τ → List Nat
  object : Nat → Option ο
  retired : List ο
  deleted : List ο
  held : ο → Nat → Bool

/-- What happens next: a call begins, an idle thread stores to the pointer of its
slot, or a thread makes its next access. -/
inductive Action (τ ο π : Type*)
  | acquire (t : τ)
  | release (t : τ) (i : Nat)
  | store (t : τ) (i : Nat) (p : Option π)
  | retire (t : τ) (o : ο) (node : Nat)
  | reclaim (t : τ)
  | run (t : τ) (spurious : Bool)

variable {τ ο π : Type*} [DecidableEq τ] [DecidableEq ο] [DecidableEq π]

def State.setPc (s : State τ ο π) (t : τ) (pc : Pc) : State τ ο π :=
  { s with pc := Function.update s.pc t pc }

/-- A store to the pointer of a slot. -/
def State.setPointer (s : State τ ο π) (i : Nat) (p : Option π) : State τ ο π :=
  { s with
    pointer := Function.update s.pointer i p
    held := fun o j => s.held o j && (decide (j ≠ i) || decide (s.pointer i = p)) }

/-- The test of the loop of `delete_nodes_with_no_hazards`. -/
def nextNode (node : Nat) : Pc :=
  if node = 0 then .idle else .readNext node

/-- The slots that hold an object when the exchange retires it. -/
def State.noteHeld (s : State τ ο π) (addr : ο → π) (node : Nat) : ο → Nat → Bool :=
  fun o i =>
    if s.object node = some o then decide (s.pointer i = some (addr o)) else s.held o i

/-- The rest of the loop of `outstanding_hazard_pointers_for` after it read slot
`i`, and what the reclaimer does with the answer. -/
def State.afterScan (s : State τ ο π) (current next i : Nat) : Pc :=
  if s.pointer i = s.data current then .addLoad current next false
  else if i + 1 < kMaxHazardPointers then .scan current next (i + 1)
  else .delete current next

/-- The next access of thread `t`. -/
def run (addr : ο → π) (s : State τ ο π) (t : τ) (spurious : Bool) : Option (State τ ο π) :=
  match s.pc t with
  | .idle => none
  | .acquire i =>
    match s.id i with
    | none =>
      some { s with
        id := Function.update s.id i (some t)
        slots := Function.update s.slots t (i :: s.slots t)
        pc := Function.update s.pc t .idle }
    | some _ => some (s.setPc t (if i + 1 < kMaxHazardPointers then .acquire (i + 1) else .idle))
  | .clear i => some ((s.setPointer i none).setPc t (.free i))
  | .free i =>
    some { s with
      id := Function.update s.id i none
      slots := Function.update s.slots t ((s.slots t).erase i)
      pc := Function.update s.pc t .idle }
  | .addLoad node rest new =>
    some { s with
      next := Function.update s.next node s.nodesToReclaim
      pc := Function.update s.pc t (.addCas node rest new) }
  | .addCas node rest new =>
    if s.nodesToReclaim = s.next node ∧ spurious = false then
      some { s with
        nodesToReclaim := node
        held := if new then s.noteHeld addr node else s.held
        pc := Function.update s.pc t (nextNode rest) }
    else
      -- the exchange leaves the head in `node->next`
      some { s with next := Function.update s.next node s.nodesToReclaim }
  | .exchange =>
    some { s with
      nodesToReclaim := 0
      pc := Function.update s.pc t (nextNode s.nodesToReclaim) }
  | .readNext current => some (s.setPc t (.scan current (s.next current) 0))
  | .scan current next i => some (s.setPc t (s.afterScan current next i))
  | .delete current next =>
    some { s with
      object := Function.update s.object current none
      deleted := s.deleted ++ (s.object current).toList
      pc := Function.update s.pc t (nextNode next) }

/-- A thread acquires or gives back a slot, stores a pointer in one, retires an object,
reclaims, or makes its next access. -/
def step (addr : ο → π) (s : State τ ο π) : Action τ ο π → Option (State τ ο π)
  | .acquire t => if s.pc t = .idle then some (s.setPc t (.acquire 0)) else none
  | .release t i =>
    if s.pc t = .idle ∧ i ∈ s.slots t then some (s.setPc t (.clear i)) else none
  | .store t i p =>
    if s.pc t = .idle ∧ i ∈ s.slots t then some (s.setPointer i p) else none
  | .retire t o node =>
    -- what `new` returns
    if s.pc t = .idle ∧ node ≠ 0 ∧ s.object node = none then
      some { s with
        data := Function.update s.data node (some (addr o))
        next := Function.update s.next node 0
        object := Function.update s.object node (some o)
        retired := s.retired ++ [o]
        pc := Function.update s.pc t (.addLoad node 0 true) }
    else none
  | .reclaim t => if s.pc t = .idle then some (s.setPc t .exchange) else none
  | .run t spurious => run addr s t spurious

/-- No slot is taken and no object retired. -/
def init (τ ο π : Type*) : State τ ο π where
  id := fun _ => none
  pointer := fun _ => none
  nodesToReclaim := 0
  data := fun _ => none
  next := fun _ => 0
  pc := fun _ => .idle
  slots := fun _ => []
  object := fun _ => none
  retired := []
  deleted := []
  held := fun _ _ => false

/-- Any number of threads and objects; `addr` is where each object lies. -/
def system (τ : Type*) {ο π : Type*} [DecidableEq τ] [DecidableEq ο] [DecidableEq π]
    (addr : ο → π) : System (State τ ο π) (Action τ ο π) where
  init := init τ ο π
  step := step addr

end EmbLinux.HazardPointer
