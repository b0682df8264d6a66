import EmbLinux.Generator.Model
import Mathlib.Data.List.Basic

/-!
# EmbLinux — iterating over a `Generator`

`begin()` and `++` resume the coroutine first and ask `done()` afterwards. A call that
returned normally leaves `end()` behind, so `++` is not called again, but `begin()` resumes
without asking; and an exception that escapes leaves the iterator as it was.

* `generator_contract` — the coroutine is never resumed at its final suspension, and what
  was observed is what the body yielded, exactly in the runs that call `begin()` and `++`
  no more often than the body has segments;
* `finished_body_resumed` — a second loop over a generator that was run to its end.
-/

namespace EmbLinux.Generator

variable {α ε : Type*} {body : Body α ε} {s s' : State α ε} {c : Call}

/-- The value of a `co_yield`. -/
def Segment.value? : Segment α ε → Option α
  | .yields value => some value
  | .returns | .throws _ => none

/-- The values that the first `n` segments yield. -/
def Body.yields (body : Body α ε) (n : Nat) : List α :=
  (List.range n).filterMap fun k => (body k).value?

/-- Segment `k` is the first that does not yield. -/
def Body.EndsAt (body : Body α ε) (k : Nat) : Prop :=
  (∀ j < k, (body j).value?.isSome) ∧ (body k).value? = none

/-- What a client relies on: it resumes nothing that is done, and finds each value that was
yielded once, in order. -/
structure Contract (body : Body α ε) (s : State α ε) : Prop where
  notWhenDone : s.fault ≠ some .resumedWhenDone
  observed : s.observed = body.yields s.frame.segments
  reads : ∀ r ∈ s.reads, 0 < r.1 ∧ s.observed[r.1 - 1]? = some r.2

/-- `begin()` and `++` were called no more often than the body has segments. -/
def WithinBody (body : Body α ε) (s : State α ε) : Prop :=
  ∀ k, body.EndsAt k → s.calls ≤ k + 1

-- ---------------------------------------------------------------------------
-- The steps
-- ---------------------------------------------------------------------------

/-- What a call can do to the generator. -/
inductive Effect (body : Body α ε) (s : State α ε) : State α ε → Prop
  | yields {value : α} (hDone : s.frame.done = false)
      (hBody : body s.frame.segments = .yields value) :
      Effect body s { s with
        frame := { s.frame with segments := s.frame.segments + 1, currentValue := some value }
        last := some .coroutine
        calls := s.calls + 1
        observed := s.observed ++ [value] }
  | returns (hDone : s.frame.done = false) (hBody : body s.frame.segments = .returns) :
      Effect body s { s with
        frame := { s.frame with segments := s.frame.segments + 1, done := true }
        last := some .null
        calls := s.calls + 1 }
  | throws {e : ε} (hDone : s.frame.done = false) (hBody : body s.frame.segments = .throws e) :
      Effect body s { s with
        frame :=
          { s.frame with segments := s.frame.segments + 1, done := true, exception := some e }
        calls := s.calls + 1
        escaped := s.escaped ++ [e] }
  | again (hDone : s.frame.done = true) :
      Effect body s { s with calls := s.calls + 1, fault := some .resumedWhenDone }
  | read {value : α} (hLast : s.last = some .coroutine)
      (hCurrent : s.frame.currentValue = some value) :
      Effect body s { s with reads := s.reads ++ [(s.observed.length, value)] }
  | unset (hLast : s.last = some .coroutine) (hCurrent : s.frame.currentValue = none) :
      Effect body s { s with fault := some .emptyValue }

/-- `begin()` on a generator with a coroutine is one of the effects, -/
theorem begin_effect (hGenerator : s.generator = .coroutine)
    (hException : s.frame.done = false → s.frame.exception = none) :
    Effect body s (begin body { s with calls := s.calls + 1 }) := by
  unfold begin
  by_cases hDone : s.frame.done = true
  · simpa [hGenerator, hDone] using Effect.again hDone
  · rw [Bool.not_eq_true] at hDone
    cases hBody : body s.frame.segments with
    | yields value =>
      simpa [hGenerator, hDone, Frame.resume, hBody, State.observe] using
        Effect.yields hDone hBody
    | returns =>
      simpa [hGenerator, hDone, Frame.resume, hBody, hException, endIterator] using
        Effect.returns hDone hBody
    | throws e =>
      simpa [hGenerator, hDone, Frame.resume, hBody] using Effect.throws hDone hBody

/-- so is `++` on an iterator that is not the end, -/
theorem increment_effect (hLast : s.last = some .coroutine)
    (hException : s.frame.done = false → s.frame.exception = none) :
    Effect body s (increment body { s with calls := s.calls + 1 }) := by
  unfold increment
  by_cases hDone : s.frame.done = true
  · simp only [hDone, if_true]
    exact .again hDone
  · rw [Bool.not_eq_true] at hDone
    cases hBody : body s.frame.segments with
    | yields value =>
      simpa [hDone, Frame.resume, hBody, hLast, State.observe] using Effect.yields hDone hBody
    | returns =>
      simpa [hDone, Frame.resume, hBody, hException, endIterator] using
        Effect.returns hDone hBody
    | throws e => simpa [hDone, Frame.resume, hBody] using Effect.throws hDone hBody

/-- and so is `*`, which may fault. -/
theorem deref_effect (hLast : s.last = some .coroutine) : Effect body s (deref s) := by
  unfold deref
  split
  · next hCurrent => exact .read hLast hCurrent
  · next hCurrent => exact .unset hLast hCurrent

/-- Every call of the client is one of the listed effects, and none follows a fault. -/
theorem step_effect (hGenerator : s.generator = .coroutine)
    (hException : s.frame.done = false → s.frame.exception = none)
    (hst : step body s c = some s') : Effect body s s' ∧ s.fault = none := by
  unfold step at hst
  split at hst
  · exact absurd hst (by simp)
  · next hFault =>
    refine ⟨?_, by simpa using hFault⟩
    cases c with
    | begin =>
      obtain rfl := Option.some.inj hst
      exact begin_effect hGenerator hException
    | increment =>
      simp only [Option.ite_none_right_eq_some] at hst
      obtain ⟨hLast, hst⟩ := hst
      obtain rfl := Option.some.inj hst
      exact increment_effect hLast hException
    | deref =>
      simp only [Option.ite_none_right_eq_some] at hst
      obtain ⟨hLast, hst⟩ := hst
      obtain rfl := Option.some.inj hst
      exact deref_effect hLast

-- ---------------------------------------------------------------------------
-- The invariant
-- ---------------------------------------------------------------------------

/-- Until the body ends every segment has yielded the value observed after it, and each call
of `begin()` and `++` has run one segment, but the one that found nothing to run. -/
structure Inv (body : Body α ε) (s : State α ε) : Prop where
  generator : s.generator = .coroutine
  exception : s.frame.done = false → s.frame.exception = none
  /-- What was observed are the first values of the body, in order. -/
  observed : s.observed.map some = (List.range s.observed.length).map fun k => (body k).value?
  /-- Each segment that ran gave a value, except for the one that ended the body. -/
  segments : s.frame.segments = s.observed.length + s.frame.done.toNat
  /-- The segment after the observed ones ends a body that is done. -/
  ended : s.frame.done = true → (body s.observed.length).value? = none
  current : s.frame.currentValue = s.observed.getLast?
  last : s.last = some .coroutine → s.observed ≠ []
  /-- `*` reads the value that was observed last. -/
  reads : ∀ r ∈ s.reads, 0 < r.1 ∧ s.observed[r.1 - 1]? = some r.2
  /-- A fault is a `resume` of a coroutine that is done. -/
  fault : s.fault = none ∧ s.calls = s.frame.segments ∨
    s.fault = some .resumedWhenDone ∧ s.frame.done = true ∧ s.calls = s.frame.segments + 1

theorem inv_init (body : Body α ε) : Inv body (system body).init := by
  refine ⟨rfl, fun _ => rfl, rfl, rfl, ?_, rfl, ?_, ?_, Or.inl ⟨rfl, rfl⟩⟩
  · intro hDone
    exact absurd hDone (by simp [system])
  · intro hLast
    exact absurd hLast (by simp [system])
  · intro r hr
    exact absurd hr (by simp [system])

/-- A value that was read stays where it is. -/
theorem getElem?_append_of_some {l : List α} {i : Nat} {value new : α} (h : l[i]? = some value) :
    (l ++ [new])[i]? = some value := by
  have hi : i < l.length := (List.getElem?_eq_some_iff.mp h).1
  rw [List.getElem?_append_left hi, h]

/-- Each effect keeps the invariant; the cases are the ways in which a resumed body can come
back. -/
theorem inv_effect (h : Inv body s) (hFault : s.fault = none) (he : Effect body s s') :
    Inv body s' := by
  have hCalls : s.calls = s.frame.segments := by
    rcases h.fault with ⟨-, hCalls⟩ | ⟨hSome, -⟩
    · exact hCalls
    · exact absurd (hSome.symm.trans hFault) (by simp)
  have hRunning : s.frame.done = false → s.frame.segments = s.observed.length := by
    intro hDone
    have hSegments := h.segments
    rw [hDone] at hSegments
    exact hSegments
  cases he with
  | @yields value hDone hBody =>
    rw [hRunning hDone] at hBody
    refine ⟨h.generator, h.exception, ?_, ?_, ?_, ?_, ?_, ?_, Or.inl ⟨hFault, ?_⟩⟩
    · rw [List.map_append, h.observed, List.length_append, List.length_singleton,
        List.range_succ, List.map_append]
      simp [hBody, Segment.value?]
    · simp [hDone, hRunning hDone]
    · intro hEnd
      exact absurd (hEnd.symm.trans hDone) (by simp)
    · simp
    · simp
    · intro r hr
      obtain ⟨hPos, hRead⟩ := h.reads r hr
      exact ⟨hPos, getElem?_append_of_some hRead⟩
    · rw [hCalls]
  | returns hDone hBody =>
    rw [hRunning hDone] at hBody
    refine ⟨h.generator, ?_, h.observed, ?_, ?_, h.current, ?_, h.reads, Or.inl ⟨hFault, ?_⟩⟩
    · simp
    · simp [hRunning hDone]
    · simp [hBody, Segment.value?]
    · simp
    · rw [hCalls]
  | throws hDone hBody =>
    rw [hRunning hDone] at hBody
    refine ⟨h.generator, ?_, h.observed, ?_, ?_, h.current, h.last, h.reads, Or.inl ⟨hFault, ?_⟩⟩
    · simp
    · simp [hRunning hDone]
    · simp [hBody, Segment.value?]
    · rw [hCalls]
  | again hDone =>
    exact ⟨h.generator, h.exception, h.observed, h.segments, h.ended, h.current, h.last, h.reads,
      Or.inr ⟨rfl, hDone, by rw [hCalls]⟩⟩
  | @read value hLast hCurrent =>
    refine ⟨h.generator, h.exception, h.observed, h.segments, h.ended, h.current, h.last, ?_,
      h.fault⟩
    intro r hr
    rw [List.mem_append, List.mem_singleton] at hr
    rcases hr with hOld | rfl
    · exact h.reads r hOld
    · have hPos : 0 < s.observed.length := List.length_pos_of_ne_nil (h.last hLast)
      rw [h.current, List.getLast?_eq_getElem?] at hCurrent
      exact ⟨hPos, hCurrent⟩
  | unset hLast hCurrent =>
    rw [h.current, List.getLast?_eq_none_iff] at hCurrent
    exact absurd hCurrent (h.last hLast)

/-- In every state that client calls lead to. -/
theorem inv_reachable (h : (system body).Reachable s) : Inv body s := by
  refine h.invariant (inv_init body) ?_
  intro s c s' _ hInv _ hst
  obtain ⟨he, hFault⟩ := step_effect hInv.generator hInv.exception hst
  exact inv_effect hInv hFault he

-- ---------------------------------------------------------------------------
-- What the client sees
-- ---------------------------------------------------------------------------

/-- The values observed are those of the segments that ran. -/
theorem Inv.observed_eq (h : Inv body s) : s.observed = body.yields s.frame.segments := by
  have hRan : s.observed = body.yields s.observed.length := by
    have hMap := congrArg (List.filterMap id) h.observed
    rw [List.filterMap_map, List.filterMap_map] at hMap
    simpa [Body.yields, Function.comp_def] using hMap
  rw [h.segments]
  cases hDone : s.frame.done with
  | false => simpa using hRan
  | true =>
    have hLast : body.yields (s.observed.length + 1) = body.yields s.observed.length := by
      simp [Body.yields, List.range_succ, h.ended hDone]
    rw [Bool.toNat_true, hLast]
    exact hRan

/-- The segments before the one that ends the body. -/
theorem Inv.length_le (h : Inv body s) {k : Nat} (hEnds : body.EndsAt k) :
    s.observed.length ≤ k := by
  by_contra hLong
  rw [Nat.not_le] at hLong
  have hValue := congrArg (fun l => l[k]?) h.observed
  simp [List.getElem?_eq_getElem hLong, List.getElem?_range hLong, hEnds.2] at hValue

/-- A coroutine that is done has ended after the values that were observed. -/
theorem Inv.endsAt (h : Inv body s) (hDone : s.frame.done = true) :
    body.EndsAt s.observed.length := by
  refine ⟨?_, h.ended hDone⟩
  intro j hj
  have hValue := congrArg (fun l => l[j]?) h.observed
  simp only [List.getElem?_map, List.getElem?_eq_getElem hj, List.getElem?_range hj,
    Option.map_some, Option.some.injEq] at hValue
  rw [← hValue]
  rfl

/-- **Iteration over a generator**: a client finds each value of the body once, in order, and
resumes nothing that is done, exactly if it stops calling `begin()` and `++` when the body has
ended. The state is any that a sequence of client calls reaches, with a body that ends, runs on,
or throws. -/
theorem generator_contract (h : (system body).Reachable s) :
    Contract body s ↔ WithinBody body s := by
  have hInv := inv_reachable h
  constructor
  · intro hContract k hEnds
    have hLength := hInv.length_le hEnds
    have hSegments := hInv.segments
    have hDone := Bool.toNat_le s.frame.done
    rcases hInv.fault with ⟨-, hCalls⟩ | ⟨hFault, -⟩
    · omega
    · exact absurd hFault hContract.notWhenDone
  · intro hWithin
    refine ⟨?_, hInv.observed_eq, hInv.reads⟩
    intro hFault
    rcases hInv.fault with ⟨hNone, -⟩ | ⟨-, hDone, hCalls⟩
    · exact absurd (hNone.symm.trans hFault) (by simp)
    · have hLess := hWithin _ (hInv.endsAt hDone)
      have hSegments := hInv.segments
      rw [hDone, Bool.toNat_true] at hSegments
      omega

/-- `co_yield 7`, and the end of the body. -/
def sevenOnly : Body Nat String
  | 0 => .yields 7
  | _ + 1 => .returns

/-- One loop over it. -/
theorem generator_contract_loop :
    ∃ s, (system sevenOnly).Reachable s ∧ s.observed = [7] ∧ s.frame.done = true ∧
      (Contract sevenOnly s ↔ WithinBody sevenOnly s) := by
  obtain ⟨s, hs, hObserved, hDone⟩ := System.exists_reachable_of_exec (S := system sevenOnly)
    (p := fun s => s.observed = [7] ∧ s.frame.done = true)
    [.begin, .deref, .increment] (by decide +kernel)
  exact ⟨s, hs, hObserved, hDone, generator_contract hs⟩

/-- A second loop over it: `begin()` resumes the coroutine at its final suspension. -/
theorem finished_body_resumed :
    ∃ s, (system sevenOnly).Reachable s ∧ ¬ Contract sevenOnly s := by
  obtain ⟨s, hs, hFault⟩ := System.exists_reachable_of_exec (S := system sevenOnly)
    (p := fun s => s.fault = some .resumedWhenDone) [.begin, .increment, .begin]
    (by decide +kernel)
  exact ⟨s, hs, fun hContract => hContract.notWhenDone hFault⟩

/-- `throw` at once. -/
def throwsOnly : Body Nat String := fun _ => .throws "failed"

/-- A `begin()` after the exception that the first one let through. -/
theorem failed_body_resumed :
    ∃ s, (system throwsOnly).Reachable s ∧ s.escaped = ["failed"] ∧ ¬ Contract throwsOnly s := by
  obtain ⟨s, hs, hEscaped, hFault⟩ := System.exists_reachable_of_exec (S := system throwsOnly)
    (p := fun s => s.escaped = ["failed"] ∧ s.fault = some .resumedWhenDone) [.begin, .begin]
    (by decide +kernel)
  exact ⟨s, hs, hEscaped, fun hContract => hContract.notWhenDone hFault⟩

end EmbLinux.Generator
