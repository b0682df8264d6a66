import EmbLinux.Lib.System
import EmbLinux.Lib.Update
import Mathlib.Algebra.BigOperators.Group.Finset.Basic
import Mathlib.Algebra.Order.BigOperators.Group.Finset

/-!
# EmbLinux — runs that a number drives

What is left to do of a family of things, as a sum, and the run that a decreasing number
gives: from every reached state, as long as some step makes the number smaller, a run leads
to a state with `p`.

* `sum_update_lt` — one thing moves on and the sum goes down.
* `exists_exec_of_descent`, `Reachable.exists_of_descent` — the run to a state with `p`, from one
  state and from every reached one.
-/

namespace EmbLinux

variable {β : Type*}

/-- One thing moves, the others have as much to do as before. -/
theorem sum_update {f g : Nat → β} {m : Nat → β → Nat} {n j : Nat} {b : β}
    (h : g = Function.update f j b) (hj : j < n) :
    ∑ k ∈ Finset.range n, m k (g k) + m j (f j) =
      ∑ k ∈ Finset.range n, m k (f k) + m j b := by
  have hMem : j ∈ Finset.range n := Finset.mem_range.mpr hj
  have hOthers : ∑ k ∈ (Finset.range n).erase j, m k (g k) =
      ∑ k ∈ (Finset.range n).erase j, m k (f k) := by
    refine Finset.sum_congr rfl fun k hk => ?_
    rw [h, Function.update_of_ne (Finset.ne_of_mem_erase hk)]
  rw [← Finset.add_sum_erase _ _ hMem, ← Finset.add_sum_erase _ _ hMem, hOthers, h,
    Function.update_self]
  omega

/-- One thing has less to do, the others as much as before. -/
theorem sum_update_lt {f g : Nat → β} {m : Nat → β → Nat} {n j : Nat} {b : β}
    (h : g = Function.update f j b) (hj : j < n) (hLess : m j b < m j (f j)) :
    ∑ k ∈ Finset.range n, m k (g k) < ∑ k ∈ Finset.range n, m k (f k) := by
  have hSum := sum_update (m := m) h hj
  omega

namespace System

variable {σ α : Type*} {S : System σ α}

/-- As long as `p` does not hold, some action with `q` keeps `I` and makes the number
smaller: a run of such actions leads to `p`. -/
theorem exists_exec_of_descent {m : σ → Nat} {p I : σ → Prop} {q : α → Prop}
    (hStep : ∀ s, I s → ¬ p s → ∃ a s', q a ∧ S.step s a = some s' ∧ I s' ∧ m s' < m s)
    {s : σ} (h : I s) : ∃ as s', (∀ a ∈ as, q a) ∧ S.exec s as = some s' ∧ p s' := by
  induction hm : m s using Nat.strong_induction_on generalizing s with
  | _ k ih =>
    by_cases hp : p s
    · exact ⟨[], s, List.forall_mem_nil _, rfl, hp⟩
    · obtain ⟨a, t, hq, hst, hI, hLess⟩ := hStep s h hp
      obtain ⟨as, s', hqs, he, hp'⟩ := ih (m t) (hm ▸ hLess) hI rfl
      exact ⟨a :: as, s', List.forall_mem_cons.mpr ⟨hq, hqs⟩,
        by rw [exec_cons_of_step hst, he], hp'⟩

/-- If every state without `p` has a step that makes the measure less, a state with `p` is
reached. -/
theorem Reachable.exists_of_descent {m : σ → Nat} {p : σ → Prop}
    (hStep : ∀ s, S.Reachable s → ¬ p s → ∃ a s', S.step s a = some s' ∧ m s' < m s)
    {s : σ} (h : S.Reachable s) : ∃ as s', S.exec s as = some s' ∧ p s' := by
  obtain ⟨as, s', -, he, hp⟩ := exists_exec_of_descent (S := S) (q := fun _ => True) (m := m)
    (fun s hs hp => by
      obtain ⟨a, t, hst, hLess⟩ := hStep s hs hp
      exact ⟨a, t, trivial, hst, .step hs trivial hst, hLess⟩) h
  exact ⟨as, s', he, hp⟩

end System

end EmbLinux
