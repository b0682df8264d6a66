import EmbLinux.Lib.System
import Mathlib.Algebra.Group.Nat.Defs
import Mathlib.Logic.Function.Basic

/-!
# EmbLinux — `LockFreeStack`

The model of `LockFreeStack<T, Capacity>`. Any number of threads call `push` and
`pop`; a step is one atomic access of one thread, or one access to the data of a
node, in a sequentially consistent memory. Indices and tags are `uint32_t`, so a
tag wraps modulo `2 ^ 32`, and `compare_exchange_weak` may fail spuriously.

Both operations run the same two loops. The first takes the front node off one
chain, the second puts it in front of the other: `pop` takes from `m_head` and
puts to `m_free_head`, `push_impl` takes from `m_free_head` and puts to `m_head`.

History that no access reads:

* each value travels with the number of its `push` call;
* `version` counts the successful exchanges of a head, and a loop notes the
  version with the head that it loaded;
* `pushed` and `popped` list the values in the order in which the exchanges on
  `m_head` put and took them, `returned` the values that `pop` returned.
-/

namespace EmbLinux.LockFreeStack

/-- `kNullIndex` -/
def kNullIndex : Nat := 0xFFFFFFFF

/-- The number of values of `uint32_t`. -/
def tagModulus : Nat := 2 ^ 32

-- ---------------------------------------------------------------------------
-- Heads, calls and program points
-- ---------------------------------------------------------------------------

/-- `TaggedIndex`, the word that is exchanged. -/
structure TaggedIndex where
  index : Nat
  tag : Nat
  deriving DecidableEq

/-- The atomic heads of the two chains: `m_head` and `m_free_head`. -/
inductive Head
  | head
  | freeHead
  deriving DecidableEq

/-- The two calls. -/
inductive Call (α : Type*)
  | pop
  | push (value : α)
  deriving DecidableEq

/-- The head whose front node the call takes. -/
def Call.takes {α : Type*} : Call α → Head
  | .pop => .head
  | .push _ => .freeHead

/-- The head that the call puts the node to. -/
def Call.puts {α : Type*} : Call α → Head
  | .pop => .freeHead
  | .push _ => .head

/-- The return values of the two operations. -/
inductive Ret (α : Type*)
  | popped (result : Option α)
  | pushed (ok : Bool)
  deriving DecidableEq

/-- An empty chain: `pop` returns `std::nullopt`, `push` false. -/
def Call.refuse {α : Type*} : Call α → Ret α
  | .pop => .popped none
  | .push _ => .pushed false

/-- Where a thread stands. `old` is the expected value of its exchange, `node`
the node that it owns between its two loops. -/
inductive Pc (α : Type*)
  | idle (last : Option (Ret α))
  | takeLoad (call : Call α)
  | takeNext (call : Call α) (old : TaggedIndex) (version : Nat)
  | takeCas (call : Call α) (old : TaggedIndex) (version : Nat) (next : Nat)
  | data (call : Call α) (node : Nat)
  | clear (node : Nat) (result : Option α)
  | putLoad (call : Call α) (node : Nat) (result : Option α)
  | putStore (call : Call α) (node : Nat) (result : Option α) (old : TaggedIndex) (version : Nat)
  | putCas (call : Call α) (node : Nat) (result : Option α) (old : TaggedIndex) (version : Nat)
  deriving DecidableEq

/-- Values with the number of the `push` call that brought them. -/
abbrev Numbered (α : Type*) := Nat × α

/-- The nodes, the two heads, and the threads; `version` and the lists are history. -/
structure State (τ α : Type*) where
  data : Nat → Option (Numbered α)
  next : Nat → Nat
  heads : Head → TaggedIndex
  pc : τ → Pc (Numbered α)
  version : Head → Nat
  calls : Nat
  pushed : List (Numbered α)
  popped : List (Numbered α)
  returned : List (Numbered α)

/-- What happens next: a call begins, or the thread makes its next access, whose
exchange may fail spuriously. -/
inductive Action (τ α : Type*)
  | callPop (t : τ)
  | callPush (t : τ) (value : α)
  | run (t : τ) (spurious : Bool)

variable {τ α : Type*} [DecidableEq τ]

-- ---------------------------------------------------------------------------
-- The accesses
-- ---------------------------------------------------------------------------

def State.setPc (s : State τ α) (t : τ) (pc : Pc (Numbered α)) : State τ α :=
  { s with pc := Function.update s.pc t pc }

/-- A successful exchange on a head. -/
def State.exchange (s : State τ α) (h : Head) (index : Nat) : State τ α :=
  { s with
    heads := Function.update s.heads h ⟨index, ((s.heads h).tag + 1) % tagModulus⟩
    version := Function.update s.version h (s.version h + 1) }

/-- The head was read, by the load before the first loop or by a failed exchange:
the loop tests it for `kNullIndex`. -/
def State.enterTake (s : State τ α) (t : τ) (call : Call (Numbered α)) : State τ α :=
  if (s.heads call.takes).index = kNullIndex then
    s.setPc t (.idle (some call.refuse))
  else
    s.setPc t (.takeNext call (s.heads call.takes) (s.version call.takes))

/-- The head was read by the second loop. -/
def State.enterPut (s : State τ α) (t : τ) (call : Call (Numbered α)) (node : Nat)
    (result : Option (Numbered α)) : State τ α :=
  s.setPc t (.putStore call node result (s.heads call.puts) (s.version call.puts))

/-- The next access of the call that thread `t` is running. -/
def run (s : State τ α) (t : τ) (spurious : Bool) : Option (State τ α) :=
  match s.pc t with
  | .idle _ => none
  | .takeLoad call => some (s.enterTake t call)
  -- `m_pool[old.index].next.load()`, of a node that may be recycled by now
  | .takeNext call old version => some (s.setPc t (.takeCas call old version (s.next old.index)))
  | .takeCas call old _ next =>
    -- `compare_exchange_weak`; a failed one reads the head again
    if s.heads call.takes = old ∧ spurious = false then
      some { (s.exchange call.takes next).setPc t (.data call old.index) with
        popped := match call with
          | .pop => s.popped ++ (s.data old.index).toList
          | .push _ => s.popped }
    else
      some (s.enterTake t call)
  -- `result = std::move(data)`; the node is the thread's own from here on
  | .data .pop node => some (s.setPc t (.clear node (s.data node)))
  -- `data = std::forward<U>(value)`
  | .data (.push value) node =>
    some { s.setPc t (.putLoad (.push value) node none) with
      data := Function.update s.data node (some value) }
  -- `data = std::nullopt`
  | .clear node result =>
    some { s.setPc t (.putLoad .pop node result) with data := Function.update s.data node none }
  | .putLoad call node result => some (s.enterPut t call node result)
  -- `next.store(old.index)`
  | .putStore call node result old version =>
    some { s.setPc t (.putCas call node result old version) with
      next := Function.update s.next node old.index }
  | .putCas call node result old _ =>
    if s.heads call.puts = old ∧ spurious = false then
      match call with
      | .pop =>
        some { (s.exchange .freeHead node).setPc t (.idle (some (.popped result))) with
          returned := s.returned ++ result.toList }
      | .push value =>
        some { (s.exchange .head node).setPc t (.idle (some (.pushed true))) with
          pushed := s.pushed ++ [value] }
    else
      some (s.enterPut t call node result)

/-- A call, or the next access of a thread. -/
def step (s : State τ α) : Action τ α → Option (State τ α)
  | .callPop t =>
    match s.pc t with
    | .idle _ => some (s.setPc t (.takeLoad .pop))
    | _ => none
  | .callPush t value =>
    match s.pc t with
    | .idle _ => some { s.setPc t (.takeLoad (.push (s.calls, value))) with calls := s.calls + 1 }
    | _ => none
  | .run t spurious => run s t spurious

-- ---------------------------------------------------------------------------
-- The system
-- ---------------------------------------------------------------------------

/-- The constructor: all nodes are on the free chain. -/
def init (τ α : Type*) (Capacity : Nat) : State τ α where
  data := fun _ => none
  next := fun i => if i + 1 < Capacity then i + 1 else kNullIndex
  heads
    | .head => ⟨kNullIndex, 0⟩
    | .freeHead => ⟨0, 0⟩
  pc := fun _ => .idle none
  version := fun _ => 0
  calls := 0
  pushed := []
  popped := []
  returned := []

/-- A stack with all its nodes free. -/
def system (τ α : Type*) [DecidableEq τ] (Capacity : Nat) :
    System (State τ α) (Action τ α) where
  init := init τ α Capacity
  step := step

/-- A head that was exchanged since thread `t` loaded it has another tag than the
one that its exchange expects. Only the exchanges that take a node need this. -/
def TagFresh (s : State τ α) (t : τ) : Prop :=
  ∀ call old version next, s.pc t = .takeCas call old version next →
    s.version call.takes ≠ version → (s.heads call.takes).tag ≠ old.tag

/-- The step condition: no tag repeats between the load of a head and the
exchange. -/
def NoTagRepeat (s : State τ α) : Action τ α → Prop
  | .run t _ => TagFresh s t
  | _ => True

end EmbLinux.LockFreeStack
