import EmbLinux.Lib.System

/-!
# EmbLinux — machines with one run

In a sequential program there is one action, so one run. `Passes P s t` is a run
from `s` to `t` whose states all satisfy `P`; such runs are composed piece by piece,
following the structure of the program. When the last state is stuck they say
something about every state that the machine reaches.

* `trans`, `snoc` — composing runs.
* `of_reachable` — what a run that has stopped says of every reachable state.
-/

namespace EmbLinux.System

variable {σ α : Type*} {S : System σ α} {P Q : σ → Prop} {s t u : σ}

/-- A run of `S` from `s` to `t` through states with `P`, the two included. -/
inductive Passes (S : System σ α) (P : σ → Prop) : σ → σ → Prop
  | refl {s : σ} : P s → Passes S P s s
  | step {s t u : σ} {a : α} : P s → S.step s a = some t → Passes S P t u → Passes S P s u

namespace Passes

/-- Two segments, one after the other. -/
theorem trans (h : S.Passes P s t) (h' : S.Passes P t u) : S.Passes P s u := by
  induction h with
  | refl _ => exact h'
  | step hP hst _ ih => exact .step hP hst (ih h')

/-- One more step. -/
theorem snoc (h : S.Passes P s t) {a : α} (hst : S.step t a = some u) (hP : P u) :
    S.Passes P s u := by
  induction h with
  | refl hHere => exact .step hHere hst (.refl hP)
  | step hHere hFirst _ ih => exact .step hHere hFirst (ih hst)

/-- What holds throughout holds at the beginning, -/
theorem first (h : S.Passes P s t) : P s := by
  cases h with
  | refl hP => exact hP
  | step hP _ _ => exact hP

/-- and at the end. -/
theorem last (h : S.Passes P s t) : P t := by
  induction h with
  | refl hP => exact hP
  | step _ _ _ ih => exact ih

/-- It is a schedule of `S`. -/
theorem exec (h : S.Passes P s t) : ∃ as, S.exec s as = some t := by
  induction h with
  | refl _ => exact ⟨[], rfl⟩
  | step _ hst _ ih =>
    obtain ⟨as, has⟩ := ih
    exact ⟨_ :: as, (exec_cons_of_step hst as).trans has⟩

/-- A machine with one action, and a run to a state where it is stuck: every state
that it reaches is on this run. -/
theorem of_reachable [Subsingleton α] (h : S.Passes P S.init t) (hEnd : ∀ a, S.step t a = none)
    (hs : S.Reachable s) : S.Passes P s t := by
  refine hs.invariant (I := fun s => S.Passes P s t) h ?_
  intro s a s' _ hPasses _ hst
  cases hPasses with
  | refl _ =>
    rw [hEnd a] at hst
    cases hst
  | @step _ s'' _ b _ hst' hRest =>
    rw [Subsingleton.elim a b, hst'] at hst
    exact Option.some.inj hst ▸ hRest

end Passes

end EmbLinux.System
