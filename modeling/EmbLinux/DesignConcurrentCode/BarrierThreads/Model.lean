import EmbLinux.DesignConcurrentCode.Barrier
import EmbLinux.Lib.System
import Mathlib.Logic.Function.Basic

/-!
# EmbLinux — the threads of a `barrier`

The model of a `barrier` that is used again and again: exactly `count` threads, numbered
from 0, call `wait` any number of times. A step is the beginning of a call or one access
to `spaces` or `generation`, with the wrap-around of `unsigned`.

`entered` and `returned` count the calls that a thread began and those that it returned
from; no access reads them.
-/

namespace EmbLinux.DesignConcurrentCode.BarrierThreads

/-- A thread; `pc` is `left` outside `wait`. -/
structure Thread where
  pc : Wait
  entered : Nat
  returned : Nat
  deriving DecidableEq

/-- The barrier and its threads. -/
structure State where
  barrier : Barrier
  thread : Nat → Thread

/-- A thread calls `wait`, or makes its next access in it. -/
inductive Action
  | call (i : Nat)
  | run (i : Nat)
  deriving DecidableEq

/-- A thread that begins its next call. -/
def Thread.enter (t : Thread) : Thread :=
  { t with pc := .load, entered := t.entered + 1 }

/-- A thread after an access; the call returns when it has nothing left to do. -/
def Thread.goTo (t : Thread) (pc : Wait) : Thread :=
  { t with pc := pc, returned := if pc = .left then t.returned + 1 else t.returned }

/-- The threads beyond `count` call nothing. -/
def step (count : Nat) (s : State) : Action → Option State
  | .call i =>
    if i < count ∧ (s.thread i).pc = .left then
      some { s with thread := Function.update s.thread i (s.thread i).enter }
    else none
  | .run i =>
    if (s.thread i).pc = .left then none
    else
      let (barrier, pc) := s.barrier.wait (s.thread i).pc
      some ⟨barrier, Function.update s.thread i ((s.thread i).goTo pc)⟩

/-- `barrier b(count)`, before the first call. -/
def system (count : Nat) : System State Action where
  init := ⟨.make count, fun _ => ⟨.left, 0, 0⟩⟩
  step := step count

end EmbLinux.DesignConcurrentCode.BarrierThreads
