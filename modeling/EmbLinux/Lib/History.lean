import EmbLinux.Lib.System
import Mathlib.Logic.Function.Basic

/-!
# EmbLinux — systems with a history

`System.withHistory` lets a system run and keeps notes that no step reads: each step adds
to them what its source state and its action say. It has the runs of the system, with the
notes beside the states.

`System.observed` is the same for an observer, who sees the state after the step as well: the
calls and their answers are what such an observer writes down. A statement about his notes
speaks of what the callers were given, whatever the system keeps in its own state.

`Uses` is a history: how often each of a family of words was used, and how often the word
that a thread has loaded had been used when the thread loaded it.
-/

namespace EmbLinux

namespace System

variable {σ α η : Type*} {S : System σ α} {start : η} {note : σ → α → η → η} {x y : σ × η} {a : α}

/-- The system with notes of its states and actions. No step reads them. -/
def withHistory (S : System σ α) (start : η) (note : σ → α → η → η) : System (σ × η) α where
  init := (S.init, start)
  step x a := (S.step x.1 a).map fun s' => (s', note x.1 a x.2)

/-- A step, and the note of it. -/
theorem withHistory_step : (S.withHistory start note).step x a = some y ↔
    S.step x.1 a = some y.1 ∧ y.2 = note x.1 a x.2 := by
  simp only [withHistory, Option.map_eq_some_iff, Prod.ext_iff]
  constructor
  · rintro ⟨s', hst, rfl, hNote⟩
    exact ⟨hst, hNote.symm⟩
  · rintro ⟨hst, hNote⟩
    exact ⟨y.1, hst, rfl, hNote.symm⟩

/-- Without the notes it is a run of the system. -/
theorem ReachableWhere.of_history (h : (S.withHistory start note).Reachable x) :
    S.Reachable x.1 := by
  refine h.invariant (I := fun x => S.Reachable x.1) .init ?_
  intro x a y _ hx _ hst
  exact .step hx trivial (withHistory_step.mp hst).1

-- ---------------------------------------------------------------------------
-- Observers
-- ---------------------------------------------------------------------------

/-- The system and an observer of its steps: `note` is what he adds to his notes at a step,
from the state before it, the action and the state after it. -/
def observed (S : System σ α) (start : η) (note : σ → α → σ → η → η) : System (σ × η) α where
  init := (S.init, start)
  step x a := (S.step x.1 a).map fun s' => (s', note x.1 a s' x.2)

variable {see : σ → α → σ → η → η}

/-- A step, and what is observed of it. -/
theorem observed_step : (S.observed start see).step x a = some y ↔
    S.step x.1 a = some y.1 ∧ y.2 = see x.1 a y.1 x.2 := by
  simp only [observed, Option.map_eq_some_iff, Prod.ext_iff]
  constructor
  · rintro ⟨s', hst, rfl, hNote⟩
    exact ⟨hst, hNote.symm⟩
  · rintro ⟨hst, hNote⟩
    exact ⟨y.1, hst, rfl, hNote.symm⟩

/-- What is observed are the runs of the system. -/
theorem ReachableWhere.of_observed (ok : σ → α → Prop)
    (h : (S.observed start see).ReachableWhere (fun x a => ok x.1 a) x) :
    S.ReachableWhere ok x.1 := by
  refine h.invariant (I := fun x => S.ReachableWhere ok x.1) .init ?_
  intro x a y _ hx hok hst
  exact .step hx hok (observed_step.mp hst).1

/-- The run rule for a relation between the state and the notes. -/
theorem ReachableWhere.observed_invariant {I : σ → η → Prop} (ok : σ → α → Prop)
    (hInit : I S.init start)
    (hStep : ∀ s a s' n, S.ReachableWhere ok s → I s n → ok s a → S.step s a = some s' →
      I s' (see s a s' n))
    (h : (S.observed start see).ReachableWhere (fun x a => ok x.1 a) x) : I x.1 x.2 := by
  refine h.invariant (I := fun x => I x.1 x.2) hInit ?_
  intro x a y hx hI hok hst
  obtain ⟨hSt, hNotes⟩ := observed_step.mp hst
  rw [hNotes]
  exact hStep x.1 a y.1 x.2 (hx.of_observed ok) hI hok hSt

/-- The case without a condition. -/
theorem Reachable.of_observed (h : (S.observed start see).Reachable x) : S.Reachable x.1 :=
  ReachableWhere.of_observed (fun _ _ => True) h

/-- The case without a condition. -/
theorem Reachable.observed_invariant {I : σ → η → Prop} (hInit : I S.init start)
    (hStep : ∀ s a s' n, S.Reachable s → I s n → S.step s a = some s' → I s' (see s a s' n))
    (h : (S.observed start see).Reachable x) : I x.1 x.2 :=
  ReachableWhere.observed_invariant (fun _ _ => True) hInit
    (fun s a s' n hs hI _ hst => hStep s a s' n hs hI hst) h

end System

-- ---------------------------------------------------------------------------
-- Uses of a word
-- ---------------------------------------------------------------------------

/-- How often each key was used, and how often when a thread last loaded it. -/
structure Uses (τ κ : Type*) where
  count : κ → Nat
  loaded : τ → Nat

namespace Uses

variable {τ κ : Type*} [DecidableEq τ] [DecidableEq κ]

/-- Nothing was used or loaded. -/
def none (τ κ : Type*) : Uses τ κ where
  count := fun _ => 0
  loaded := fun _ => 0

/-- Thread `t` loads word `k`. -/
def load (u : Uses τ κ) (t : τ) (k : κ) : Uses τ κ :=
  { u with loaded := Function.update u.loaded t (u.count k) }

/-- Thread `t` uses word `k`, and knows the word as it is then. -/
def use (u : Uses τ κ) (t : τ) (k : κ) : Uses τ κ where
  count := Function.update u.count k (u.count k + 1)
  loaded := Function.update u.loaded t (u.count k + 1)

/-- Word `k` is a new one. -/
def renew (u : Uses τ κ) (k : κ) : Uses τ κ :=
  { u with count := Function.update u.count k 0 }

variable {u : Uses τ κ} {t v : τ} {k : κ}

omit [DecidableEq κ] in
/-- A load notes the present count, -/
theorem load_self : (u.load t k).loaded t = u.count k :=
  Function.update_self ..

omit [DecidableEq κ] in
/-- for its own thread only. -/
theorem load_of_ne (h : v ≠ t) : (u.load t k).loaded v = u.loaded v :=
  Function.update_of_ne h ..

/-- A use is one more, and its thread has seen it; -/
theorem use_self : (u.use t k).loaded t = u.count k + 1 :=
  Function.update_self ..

/-- the other threads have not. -/
theorem use_of_ne (h : v ≠ t) : (u.use t k).loaded v = u.loaded v :=
  Function.update_of_ne h ..

end Uses

end EmbLinux
