import EmbLinux.Lib.System
import Mathlib.Logic.Function.Basic

/-!
# EmbLinux — `FixedTask`

The model of any number of `FixedTask` objects, each with its raw `m_storage`, and of the
`Model` objects that are built in them. A placement `new` gives a new object, which lives
until its destructor is called; the storage it was built in may be used again, and nothing
but the code calls the destructor. A `Model` that was moved from lives on without a
callable.

To use an object that does not live, or to invoke one that was moved from, sets `fault`.
-/

namespace EmbLinux.FixedTask

/-- A callable and the number of the construction that it came with. -/
abbrev Callable (κ : Type*) := Nat × κ

/-- `storage t` is the object that was last built in `m_storage` of `t`, `concept t` its
`m_concept`: the storage that it points to. The objects are numbered in the order in which
they were built; `func n` is the callable in object `n` unless it was moved out.

`invoked` and `destroyed` list the invocations and the destructor calls. -/
structure State (τ κ : Type*) where
  alive : τ → Bool
  storage : τ → Option Nat
  concept : τ → Option τ
  objects : Nat
  live : Nat → Bool
  func : Nat → Option (Callable κ)
  callables : Nat
  invoked : List (Callable κ)
  destroyed : List Nat
  fault : Bool

/-- The operations on `FixedTask` objects; `construct` is the constructor that takes a
callable. -/
inductive Action (τ κ : Type*)
  | construct (t : τ) (f : κ)
  | default (t : τ)
  | moveConstruct (t other : τ)
  | moveAssign (t other : τ)
  | invoke (t : τ)
  | destroy (t : τ)
  deriving DecidableEq

variable {τ κ : Type*} [DecidableEq τ]

-- ---------------------------------------------------------------------------
-- `Model` objects
-- ---------------------------------------------------------------------------

/-- The object that lives at an address. -/
def State.objectAt (s : State τ κ) (p : τ) : Option Nat :=
  (s.storage p).filter s.live

/-- `new (dest) Model(...)` -/
def State.build (s : State τ κ) (dest : τ) (func : Option (Callable κ)) : State τ κ :=
  { s with
    storage := Function.update s.storage dest (some s.objects)
    objects := s.objects + 1
    live := Function.update s.live s.objects true
    func := Function.update s.func s.objects func }

/-- `Model::move_to` -/
def State.moveTo (s : State τ κ) (p dest : τ) : State τ κ :=
  match s.objectAt p with
  | some n => { s with func := Function.update s.func n none }.build dest (s.func n)
  | none => { s with fault := true }

/-- `~Concept()` -/
def State.destruct (s : State τ κ) (p : τ) : State τ κ :=
  match s.objectAt p with
  | some n => { s with
      live := Function.update s.live n false
      destroyed := s.destroyed ++ [n] }
  | none => { s with fault := true }

/-- `Model::invoke` -/
def State.invokeAt (s : State τ κ) (p : τ) : State τ κ :=
  match (s.objectAt p).bind s.func with
  | some c => { s with invoked := s.invoked ++ [c] }
  | none => { s with fault := true }

-- ---------------------------------------------------------------------------
-- The special members
-- ---------------------------------------------------------------------------

/-- An assignment to `concept_ptr` of a task. -/
def State.setConcept (s : State τ κ) (t : τ) (p : Option τ) : State τ κ :=
  { s with concept := Function.update s.concept t p }

/-- A new `FixedTask`, with the initializer of `m_concept`. -/
def State.enter (s : State τ κ) (t : τ) : State τ κ :=
  { s with alive := Function.update s.alive t true }.setConcept t none

/-- The part that both moves share: `if (other.m_concept) { ... }`. -/
def State.takeFrom (s : State τ κ) (t other : τ) : State τ κ :=
  match s.concept other with
  | some p =>
    (((s.moveTo p t).setConcept t (some t)).destruct p).setConcept other none
  | none => s

/-- The first part of the move assignment: `if (m_concept) { ... }`. -/
def State.reset (s : State τ κ) (t : τ) : State τ κ :=
  match s.concept t with
  | some p => (s.destruct p).setConcept t none
  | none => s

/-- The constructor from a callable. -/
def State.construct (s : State τ κ) (t : τ) (f : κ) : State τ κ :=
  { (s.enter t).build t (some (s.callables, f)) with callables := s.callables + 1 }.setConcept t
    (some t)

/-- The move constructor. -/
def State.moveConstruct (s : State τ κ) (t other : τ) : State τ κ :=
  (s.enter t).takeFrom t other

/-- The move assignment, which tests for itself. -/
def State.moveAssign (s : State τ κ) (t other : τ) : State τ κ :=
  if t = other then s else (s.reset t).takeFrom t other

/-- `~FixedTask` -/
def State.destroy (s : State τ κ) (t : τ) : State τ κ :=
  match s.concept t with
  | some p => { s.destruct p with alive := Function.update s.alive t false }
  | none => { s with alive := Function.update s.alive t false }

/-- `operator bool` -/
def State.operatorBool (s : State τ κ) (t : τ) : Bool :=
  (s.concept t).isSome

/-- `operator()` -/
def State.invoke (s : State τ κ) (t : τ) : State τ κ :=
  match s.concept t with
  | some p => s.invokeAt p
  | none => s

/-- A constructor is called where no `FixedTask` is, every other member of one that is
there, and a move from one that is there. -/
def step (s : State τ κ) : Action τ κ → Option (State τ κ)
  | .construct t f => if s.alive t then none else some (s.construct t f)
  | .default t => if s.alive t then none else some (s.enter t)
  | .moveConstruct t other =>
    if s.alive t = false ∧ s.alive other = true then some (s.moveConstruct t other) else none
  | .moveAssign t other =>
    if s.alive t = true ∧ s.alive other = true then some (s.moveAssign t other) else none
  | .invoke t => if s.alive t then some (s.invoke t) else none
  | .destroy t => if s.alive t then some (s.destroy t) else none

/-- No `FixedTask` yet. -/
def system (τ κ : Type*) [DecidableEq τ] : System (State τ κ) (Action τ κ) where
  init := ⟨fun _ => false, fun _ => none, fun _ => none, 0, fun _ => false, fun _ => none, 0, [],
    [], false⟩
  step := step

end EmbLinux.FixedTask
