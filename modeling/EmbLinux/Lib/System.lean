import Mathlib.Logic.Function.Basic

/-!
# EmbLinux — labelled transition systems

A concurrent program is a `System`: one start state and the partial effect of
each action, an action being one atomic access of one thread. Nothing in this
module names a program.

* `ReachableWhere ok` — the states of the runs whose every step `(s, a)` meets
  `ok`. What callers promise (fresh pointers, sections that do not nest) and
  the conditions under which a defect is avoided are such step conditions;
  `Reachable` puts none.
* `ReachableWhere.invariant` — the induction over runs, packaged once.
* `ReachableWhere.strengthen` — trading one step condition for another along an
  invariant.
* `ReachableWhere.simulate` — forward simulation: every step is matched by a
  finite run of an abstract system; `ReachableWhere.map` — the same for an
  abstraction function, with step conditions on both sides.
* `exec` — running a given list of actions, for concrete schedules;
  `Reachable.length_le` bounds the length of the runs that a number counts down.
-/

namespace EmbLinux

/-- A start state and the effect of each action; `none` means that the action
is not enabled. -/
structure System (σ α : Type*) where
  init : σ
  step : σ → α → Option σ

namespace System

variable {σ α : Type*}

/-- The states reached by runs whose every step `(s, a)` meets `ok`. -/
inductive ReachableWhere (S : System σ α) (ok : σ → α → Prop) : σ → Prop
  | init : ReachableWhere S ok S.init
  | step {s s' : σ} {a : α} : ReachableWhere S ok s → ok s a → S.step s a = some s' →
      ReachableWhere S ok s'

/-- The states reached by any run. -/
abbrev Reachable (S : System σ α) : σ → Prop :=
  S.ReachableWhere fun _ _ => True

variable {S : System σ α} {ok ok' : σ → α → Prop}

/-- One more step, with its action named. -/
theorem ReachableWhere.act {s s' : σ} (h : S.ReachableWhere ok s) (a : α) (hok : ok s a)
    (hst : S.step s a = some s') : S.ReachableWhere ok s' :=
  .step h hok hst

/-- The run rule: what holds at the start and is kept by every step that meets
`ok` holds in every state reached. The step may use that its source is reached. -/
theorem ReachableWhere.invariant {I : σ → Prop} (hInit : I S.init)
    (hStep : ∀ s a s', S.ReachableWhere ok s → I s → ok s a → S.step s a = some s' → I s')
    {s : σ} (h : S.ReachableWhere ok s) : I s := by
  induction h with
  | init => exact hInit
  | step hs hok hst ih => exact hStep _ _ _ hs ih hok hst

/-- Along an invariant that makes every `ok` step an `ok'` step, runs under `ok`
are runs under `ok'`. -/
theorem ReachableWhere.strengthen {I : σ → Prop} (hInit : I S.init)
    (hStep : ∀ s a s', S.ReachableWhere ok' s → I s → ok s a → S.step s a = some s' →
      ok' s a ∧ I s')
    {s : σ} (h : S.ReachableWhere ok s) : S.ReachableWhere ok' s ∧ I s := by
  induction h with
  | init => exact ⟨.init, hInit⟩
  | step _ hok hst ih =>
    obtain ⟨hok', hI'⟩ := hStep _ _ _ ih.1 ih.2 hok hst
    exact ⟨.step ih.1 hok' hst, hI'⟩

/-- A weaker condition allows more runs, -/
theorem ReachableWhere.mono (hle : ∀ s a, ok s a → ok' s a) {s : σ}
    (h : S.ReachableWhere ok s) : S.ReachableWhere ok' s :=
  (h.strengthen (I := fun _ => True) trivial
    fun _ _ _ _ _ hok _ => ⟨hle _ _ hok, trivial⟩).1

/-- and none allows all. -/
theorem ReachableWhere.reachable {s : σ} (h : S.ReachableWhere ok s) : S.Reachable s :=
  h.mono fun _ _ _ => trivial

-- ---------------------------------------------------------------------------
-- Concrete schedules
-- ---------------------------------------------------------------------------

/-- The state after the actions of a schedule, if each of them is enabled. -/
def exec (S : System σ α) (s : σ) : List α → Option σ
  | [] => some s
  | a :: as => (S.step s a).bind fun s' => S.exec s' as

@[simp] theorem exec_nil (s : σ) : S.exec s [] = some s := rfl

theorem exec_cons (s : σ) (a : α) (as : List α) :
    S.exec s (a :: as) = (S.step s a).bind fun s' => S.exec s' as := rfl

/-- A schedule that begins with a step that is possible. -/
theorem exec_cons_of_step {s s' : σ} {a : α} (h : S.step s a = some s') (as : List α) :
    S.exec s (a :: as) = S.exec s' as := by
  rw [exec_cons, h, Option.bind_some]

/-- Two schedules, one after the other. -/
theorem exec_append (s : σ) (as bs : List α) :
    S.exec s (as ++ bs) = (S.exec s as).bind fun t => S.exec t bs := by
  induction as generalizing s with
  | nil => rfl
  | cons a as ih =>
    rw [List.cons_append, exec_cons, exec_cons, Option.bind_assoc]
    exact congrArg _ (funext fun t => ih t)

/-- A run goes on along a schedule. -/
theorem Reachable.exec {s s' : σ} {as : List α} (h : S.Reachable s)
    (he : S.exec s as = some s') : S.Reachable s' := by
  induction as generalizing s with
  | nil => exact Option.some.inj he ▸ h
  | cons a as ih =>
    rw [exec_cons] at he
    cases hst : S.step s a with
    | none => simp [hst] at he
    | some t => exact ih (.step h trivial hst) (by simpa [hst] using he)

/-- A number that every step makes smaller bounds the length of a run. -/
theorem Reachable.length_le {m : σ → Nat}
    (hLess : ∀ s a s', S.Reachable s → S.step s a = some s' → m s' < m s)
    {s s' : σ} {as : List α} (h : S.Reachable s) (he : S.exec s as = some s') :
    as.length + m s' ≤ m s := by
  induction as generalizing s with
  | nil => simp [Option.some.inj he]
  | cons a as ih =>
    rw [exec_cons] at he
    cases hst : S.step s a with
    | none => simp [hst] at he
    | some t =>
      have hRest := ih (.step h trivial hst) (by simpa [hst] using he)
      have hFirst := hLess s a t h hst
      rw [List.length_cons]
      omega

/-- The state after a schedule whose every step passes a check. -/
def execWhere (S : System σ α) (c : σ → α → Bool) (s : σ) : List α → Option σ
  | [] => some s
  | a :: as => if c s a then (S.step s a).bind fun s' => S.execWhere c s' as else none

/-- A run goes on along a schedule whose steps meet a condition that is evaluated. -/
theorem ReachableWhere.execWhere {c : σ → α → Bool} (hCheck : ∀ s a, c s a = true → ok s a)
    {s s' : σ} {as : List α} (h : S.ReachableWhere ok s) (he : S.execWhere c s as = some s') :
    S.ReachableWhere ok s' := by
  induction as generalizing s with
  | nil => exact Option.some.inj he ▸ h
  | cons a as ih =>
    simp only [System.execWhere] at he
    split at he
    · next hc =>
      cases hst : S.step s a with
      | none => simp [hst] at he
      | some t => exact ih (.step h (hCheck s a hc) hst) (by simpa [hst] using he)
    · cases he

/-- A schedule that runs from the start state to a state with `p`, as a check
that evaluates. -/
theorem exists_reachableWhere_of_exec {c : σ → α → Bool} (hCheck : ∀ s a, c s a = true → ok s a)
    {p : σ → Prop} [DecidablePred p] (as : List α)
    (h : (S.execWhere c S.init as).any (fun s => decide (p s)) = true) :
    ∃ s, S.ReachableWhere ok s ∧ p s := by
  cases he : S.execWhere c S.init as with
  | none => simp [he] at h
  | some s => exact ⟨s, ReachableWhere.execWhere hCheck .init he, by simpa [he] using h⟩

/-- A state that a schedule leads to, found by evaluation. -/
theorem exists_reachable_of_exec {p : σ → Prop} [DecidablePred p] (as : List α)
    (h : (S.execWhere (fun _ _ => true) S.init as).any (fun s => decide (p s)) = true) :
    ∃ s, S.Reachable s ∧ p s :=
  exists_reachableWhere_of_exec (fun _ _ _ => trivial) as h

-- ---------------------------------------------------------------------------
-- Refinement
-- ---------------------------------------------------------------------------

variable {τ β : Type*} {T : System τ β}

/-- Forward simulation along `R`: every step of the concrete system is matched by
a finite run of the abstract one, so every reached state has a related reachable
abstract state. -/
theorem ReachableWhere.simulate {R : σ → τ → Prop} (hInit : R S.init T.init)
    (hStep : ∀ s a s' t, T.Reachable t → R s t → ok s a → S.step s a = some s' →
      ∃ bs t', T.exec t bs = some t' ∧ R s' t')
    {s : σ} (h : S.ReachableWhere ok s) : ∃ t, T.Reachable t ∧ R s t := by
  induction h with
  | init => exact ⟨T.init, .init, hInit⟩
  | step _ hok hst ih =>
    obtain ⟨t, ht, hR⟩ := ih
    obtain ⟨bs, t', hbs, hR'⟩ := hStep _ _ _ t ht hR hok hst
    exact ⟨t', Reachable.exec ht hbs, hR'⟩

/-- Refinement by a function, condition for condition: every `ok` step that keeps
the invariant `I` is one abstract step that meets `okT`. -/
theorem ReachableWhere.map {I : σ → Prop} {okT : τ → β → Prop} (f : σ → τ)
    (hInit : f S.init = T.init)
    (hInv : ∀ s, S.ReachableWhere ok s → I s)
    (hStep : ∀ s a s', I s → ok s a → S.step s a = some s' →
      ∃ b, okT (f s) b ∧ T.step (f s) b = some (f s'))
    {s : σ} (h : S.ReachableWhere ok s) : T.ReachableWhere okT (f s) := by
  induction h with
  | init =>
    rw [hInit]
    exact .init
  | step hs hok hst ih =>
    obtain ⟨b, hOkT, hStT⟩ := hStep _ _ _ (hInv _ hs) hok hst
    exact .step ih hOkT hStT

end System

end EmbLinux
