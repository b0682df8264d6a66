import EmbLinux.DesignConcurrentCode.Barrier
import EmbLinux.Lib.System
import Mathlib.Logic.Function.Basic

/-!
# EmbLinux — `parallel_partial_sum`

The model of one call of `parallel_partial_sum` on a range of `length` elements: the caller,
which starts a thread for every element but the last, works on that itself and then joins,
and the threads. A step is one test of the loop, one access to an element of the range or
of `buffer`, or one access to the barrier.

Thread `k` works on element `k`, narrowed to an `unsigned`; so are `step` and `stride`.
-/

namespace EmbLinux.DesignConcurrentCode.PartialSum

/-- Where a thread stands in `process_element`: before its start, at the test of the loop,
in the three accesses of `dest = source + addend`, in `b.wait()`, in the two accesses of
`ith_element = buffer[i]`, or at its end. -/
inductive Pc (α : Type*)
  | unborn
  | loop (step stride : Nat) (updateSource : Bool)
  | source (step stride : Nat)
  | addend (step stride : Nat) (source : α)
  | store (step stride : Nat) (sum : α)
  | wait (w : Wait) (step stride : Nat) (updateSource : Bool)
  | copy
  | writeBack (value : α)
  | done
  deriving DecidableEq

/-- Where the caller stands. `spawn i` and `join i` are at thread `i`; in `work` the caller
is thread `length - 1`. -/
inductive Caller
  | enter
  | spawn (i : Nat)
  | work
  | join (i : Nat)
  | returned
  deriving DecidableEq

/-- The range with the buffer, the barrier, and where the threads and the caller stand. -/
structure State (α : Type*) where
  caller : Caller
  pc : Nat → Pc α
  range : Nat → α
  buffer : Nat → α
  barrier : Barrier

/-- A step of the caller or of a thread. -/
inductive Action
  | caller
  | run (k : Nat)
  deriving DecidableEq

variable {α : Type*}

def State.setPc (s : State α) (k : Nat) (pc : Pc α) : State α :=
  { s with pc := Function.update s.pc k pc }

/-- `process_element()(first, last, buffer, i, b)` -/
def start : Pc α :=
  .loop 0 1 false

/-- The next step of the caller. -/
def runCaller (length : Nat) (s : State α) : Option (State α) :=
  match s.caller with
  | .enter => some { s with caller := if length ≤ 1 then .returned else .spawn 0 }
  | .spawn i =>
    if i < length - 1 then some { s.setPc i start with caller := .spawn (i + 1) }
    else some { s.setPc (length - 1) start with caller := .work }
  | .work =>
    match s.pc (length - 1) with
    | .done => some { s with caller := .join 0 }
    | _ => none
  | .join i =>
    if i < length - 1 then
      match s.pc i with
      | .done => some { s with caller := .join (i + 1) }
      | _ => none
    else some { s with caller := .returned }
  | .returned => none

/-- The next step of thread `k`. In odd steps `buffer` is the source. -/
def run [Add α] (s : State α) (k : Nat) : Option (State α) :=
  let i := k % unsignedModulus
  match s.pc k with
  | .loop step stride updateSource =>
    if stride ≤ i then some (s.setPc k (.source step stride))
    else some (s.setPc k (if updateSource then .copy else .done))
  | .source step stride =>
    some (s.setPc k (.addend step stride (if step % 2 = 1 then s.buffer i else s.range i)))
  | .addend step stride source =>
    let addend := if step % 2 = 1 then s.buffer (i - stride) else s.range (i - stride)
    some (s.setPc k (.store step stride (source + addend)))
  | .store step stride sum =>
    let s := s.setPc k (.wait .load step stride (step % 2 = 0))
    if step % 2 = 1 then some { s with range := Function.update s.range i sum }
    else some { s with buffer := Function.update s.buffer i sum }
  | .wait .left step stride updateSource =>
    -- `++step, stride *= 2`
    some (s.setPc k (.loop ((step + 1) % unsignedModulus) (stride * 2 % unsignedModulus)
      updateSource))
  | .wait w step stride updateSource =>
    let (barrier, w) := s.barrier.wait w
    some { s.setPc k (.wait w step stride updateSource) with barrier := barrier }
  | .copy => some (s.setPc k (.writeBack (s.buffer i)))
  | .writeBack value =>
    some { s.setPc k .done with range := Function.update s.range i value }
  | .unborn | .done => none

/-- The next access of one of them. -/
def step [Add α] (length : Nat) (s : State α) : Action → Option (State α)
  | .caller => runCaller length s
  | .run k => run s k

/-- The call, on a range with the elements `range`; `buffer` is value-initialized. -/
def system [Add α] [Inhabited α] (length : Nat) (range : Nat → α) : System (State α) Action where
  init := ⟨.enter, fun _ => .unborn, range, fun _ => default, .make length⟩
  step := step length

end EmbLinux.DesignConcurrentCode.PartialSum
