import EmbLinux.Lib.System
import Mathlib.Logic.Function.Basic

/-!
# EmbLinux — `atomic_wait_until`

The model of a thread that loads `old_val` and calls `atomic_wait_until`, beside any number
of writers, each of which stores a value and then calls `atomic_notify_all`, again and
again. A step is one load, one store, one notification, or one check of
`std::atomic::wait`: it blocks while the value equals the one it was given, and checks
again when it was notified, or spuriously.

The predicate is evaluated on the current value, in a load of its own.
-/

namespace EmbLinux.AtomicWait

/-- Where the waiter stands: at the load of `old_val` before the call or in the loop, at
the evaluation of the predicate, at the check of `wait`, or blocked in it. -/
inductive Pc (α : Type*)
  | load
  | test (oldVal : α)
  | check (oldVal : α)
  | blocked (oldVal : α)
  | returned
  deriving DecidableEq

/-- `stored t` is whether writer `t` is between its store and its notification. -/
structure State (τ α : Type*) where
  value : α
  pc : Pc α
  stored : τ → Bool

/-- What happens next: the waiter's next access, a spurious wake-up of it, or the next
operation of a writer. -/
inductive Action (τ α : Type*)
  | run
  | wake
  | store (t : τ) (v : α)
  | notifyAll (t : τ)

variable {τ α : Type*} [DecidableEq τ] [DecidableEq α]

/-- The next access of the waiter. -/
def run (pred : α → Bool) (s : State τ α) : Option (State τ α) :=
  match s.pc with
  | .load => some { s with pc := .test s.value }
  -- `while (!pred())`
  | .test oldVal => some { s with pc := if pred s.value then .returned else .check oldVal }
  -- `atomic_var.wait(old_val)`
  | .check oldVal => some { s with pc := if s.value = oldVal then .blocked oldVal else .load }
  | .blocked _ | .returned => none

/-- A blocked waiter checks again. -/
def Pc.unblock : Pc α → Pc α
  | .blocked oldVal => .check oldVal
  | pc => pc

/-- A notification comes after the store of its writer, in a step of its own; the waiter may
wake up at any time. -/
def step (pred : α → Bool) (s : State τ α) : Action τ α → Option (State τ α)
  | .run => run pred s
  | .wake => some { s with pc := s.pc.unblock }
  | .store t v =>
    if s.stored t then none
    else some { s with value := v, stored := Function.update s.stored t true }
  | .notifyAll t =>
    if s.stored t then
      some { s with pc := s.pc.unblock, stored := Function.update s.stored t false }
    else none

/-- A waiter that has not yet loaded, and writers that have stored nothing. -/
def system (τ : Type*) [DecidableEq τ] (pred : α → Bool) (value : α) :
    System (State τ α) (Action τ α) where
  init := ⟨value, .load, fun _ => false⟩
  step := step pred

end EmbLinux.AtomicWait
