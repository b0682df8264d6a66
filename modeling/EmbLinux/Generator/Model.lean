import EmbLinux.Lib.System

/-!
# EmbLinux — `Generator`

The model of one `Generator<T>` and a client that calls `begin()`, `++` on the iterator it
obtained last while that differs from `end()`, and `*` on it. The body is a sequence of
segments, each of which runs from one suspension to the next: it yields a value, returns,
or throws. An infinite body yields in every segment; what follows the segment that ends the
body is never run.

To resume a coroutine at its final suspension, and to read an empty `m_current_value`, is
undefined: the run ends there.
-/

namespace EmbLinux.Generator

/-- What the body does between two suspensions. -/
inductive Segment (α ε : Type*)
  | yields (value : α)
  | returns
  | throws (exception : ε)
  deriving DecidableEq

/-- A body: what it does between one suspension and the next, for each number of suspensions
before. -/
abbrev Body (α ε : Type*) := Nat → Segment α ε

/-- `handle_type`: `nullptr`, or the coroutine of the generator. -/
inductive Handle
  | null
  | coroutine
  deriving DecidableEq

/-- The coroutine: how many segments have run, whether it is at its final suspension, and
the members of `promise_type`. -/
structure Frame (α ε : Type*) where
  segments : Nat
  done : Bool
  currentValue : Option α
  exception : Option ε

/-- What has no defined meaning. -/
inductive Fault
  | resumedWhenDone
  | emptyValue
  deriving DecidableEq

/-- `generator` is `m_coroutine` of the `Generator`, `last` that of the iterator obtained
last, if there is one. `calls` counts the calls of `begin()` and `++`; `observed` has the
value behind the iterator after each of them that gave one, `escaped` the exceptions that
left one, and `reads` what each `*` gave, after how many values. -/
structure State (α ε : Type*) where
  frame : Frame α ε
  generator : Handle
  last : Option Handle
  calls : Nat
  observed : List α
  escaped : List ε
  reads : List (Nat × α)
  fault : Option Fault

/-- The calls of the client. -/
inductive Call
  | begin
  | increment
  | deref
  deriving DecidableEq

variable {α ε : Type*}

/-- `resume()`: the next segment of the body, with `yield_value`, `return_void` or
`unhandled_exception` at its end. -/
def Frame.resume (body : Body α ε) (f : Frame α ε) : Frame α ε :=
  match body f.segments with
  | .yields value => { f with segments := f.segments + 1, currentValue := some value }
  | .returns => { f with segments := f.segments + 1, done := true }
  | .throws e => { f with segments := f.segments + 1, done := true, exception := some e }

/-- `iterator{nullptr}` -/
def endIterator : Handle := .null

/-- The value that the iterator shows from now on. -/
def State.observe (s : State α ε) : State α ε :=
  match s.frame.currentValue with
  | some value => { s with observed := s.observed ++ [value] }
  | none => { s with fault := some .emptyValue }

/-- `Generator::begin`. The iterator of the client is replaced unless an exception
escapes. -/
def begin (body : Body α ε) (s : State α ε) : State α ε :=
  match s.generator with
  | .null => { s with last := some .null }
  | .coroutine =>
    if s.frame.done then { s with fault := some .resumedWhenDone }
    else
      let s := { s with frame := s.frame.resume body }
      if s.frame.done then
        match s.frame.exception with
        | some e => { s with escaped := s.escaped ++ [e] }
        | none => { s with last := some endIterator }
      else { s with last := some .coroutine }.observe

/-- `iterator::operator++`, of the iterator obtained last. An exception leaves it as it
is. -/
def increment (body : Body α ε) (s : State α ε) : State α ε :=
  if s.frame.done then { s with fault := some .resumedWhenDone }
  else
    let s := { s with frame := s.frame.resume body }
    if s.frame.done then
      match s.frame.exception with
      | some e => { s with escaped := s.escaped ++ [e] }
      | none => { s with last := some endIterator }
    else s.observe

/-- `iterator::operator*` -/
def deref (s : State α ε) : State α ε :=
  match s.frame.currentValue with
  | some value => { s with reads := s.reads ++ [(s.observed.length, value)] }
  | none => { s with fault := some .emptyValue }

/-- A call of the client; `++` and `*` only while the iterator differs from `end()`. -/
def step (body : Body α ε) (s : State α ε) (c : Call) : Option (State α ε) :=
  if s.fault.isSome then none
  else
    match c with
    | .begin => some (begin body { s with calls := s.calls + 1 })
    | .increment =>
      if s.last = some .coroutine then some (increment body { s with calls := s.calls + 1 })
      else none
    | .deref => if s.last = some .coroutine then some (deref s) else none

/-- A generator that was just created: suspended at `initial_suspend`. -/
def system (body : Body α ε) : System (State α ε) Call where
  init := ⟨⟨0, false, none, none⟩, .coroutine, none, 0, [], [], [], none⟩
  step := step body

end EmbLinux.Generator
