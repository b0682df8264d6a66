import EmbLinux.Lib.System

/-!
# EmbLinux — `parallel_find`

The model of one call of `parallel_find` on the positions from `first` up to `last` of a
range. The calls of `parallel_find_impl` are the nodes of a tree: each has its direct call
and the one that `std::async` runs in another thread, and a step is one access to `done`,
one comparison, or one call that begins or ends, anywhere in the tree. A comparison gives
whether an element equals `match`, or an exception.

The `std::future` of a call that ends without `get` waits for its thread. `thrown` lists
the positions whose comparison threw; no step reads it.
-/

namespace EmbLinux.DesignConcurrentCode.ParallelFind

/-- How a call ends: with an iterator or an exception. -/
inductive Result (ε : Type*)
  | returned (position : Nat)
  | threw (e : ε)
  deriving DecidableEq

/-- Where a call of `parallel_find_impl` stands: before its test of `length`, at the test
or the comparison of its loop, at `done = true` with a match, with its two calls, at
`done = true` with an exception, or at its end. -/
inductive Call (ε : Type*)
  | enter (first last : Nat)
  | test (first last : Nat)
  | compare (first last : Nat)
  | signal (first : Nat)
  | split (midPoint : Nat) (direct async : Call ε)
  | caught (e : ε)
  | finished (result : Result ε)
  deriving DecidableEq

/-- What the calls share. -/
structure Shared where
  done : Bool
  thrown : List Nat
  deriving DecidableEq

/-- The way down from a call to the one that makes a step. -/
inductive Branch
  | direct
  | async
  deriving DecidableEq

/-- `min_per_thread` -/
def minPerThread : Nat := 25

variable {α ε : Type*}

/-- The end of a call whose two calls have ended. -/
def Call.join (midPoint : Nat) : Result ε → Result ε → Call ε
  | .threw e, _ => .caught e
  | .returned directResult, asyncResult =>
    if directResult = midPoint then
      -- `async_result.get()`
      match asyncResult with
      | .returned position => .finished (.returned position)
      | .threw e => .caught e
    else .finished (.returned directResult)

/-- A step of the call, or of one below it. -/
def Call.step (equals : α → Except ε Bool) (range : Nat → α) (shared : Shared) :
    Call ε → List Branch → Option (Shared × Call ε)
  | .enter first last, [] =>
    let length := last - first
    if length < 2 * minPerThread then some (shared, .test first last)
    else
      let midPoint := first + length / 2
      some (shared, .split midPoint (.enter first midPoint) (.enter midPoint last))
  | .test first last, [] =>
    if first ≠ last ∧ shared.done = false then some (shared, .compare first last)
    else some (shared, .finished (.returned last))
  | .compare first last, [] =>
    match equals (range first) with
    | .ok true => some (shared, .signal first)
    | .ok false => some (shared, .test (first + 1) last)
    | .error e => some ({ shared with thrown := first :: shared.thrown }, .caught e)
  | .signal first, [] => some ({ shared with done := true }, .finished (.returned first))
  | .split midPoint direct async, .direct :: path =>
    (direct.step equals range shared path).map fun x => (x.1, .split midPoint x.2 async)
  | .split midPoint direct async, .async :: path =>
    (async.step equals range shared path).map fun x => (x.1, .split midPoint direct x.2)
  | .split midPoint (.finished directResult) (.finished asyncResult), [] =>
    some (shared, .join midPoint directResult asyncResult)
  | .caught e, [] => some ({ shared with done := true }, .finished (.threw e))
  | _, _ => none

/-- The flag that the calls share, and the tree of the calls. -/
structure State (ε : Type*) where
  shared : Shared
  call : Call ε
  deriving DecidableEq

/-- `parallel_find(first, last, match)`, where `equals` compares with `match`. -/
def system (equals : α → Except ε Bool) (range : Nat → α) (first last : Nat) :
    System (State ε) (List Branch) where
  init := ⟨⟨false, []⟩, .enter first last⟩
  step s path := (s.call.step equals range s.shared path).map fun x => ⟨x.1, x.2⟩

end EmbLinux.DesignConcurrentCode.ParallelFind
