import Mathlib.Logic.Function.Basic

/-!
# EmbLinux — steps that move one thread

A step of an interleaving semantics changes a family of states (the threads, the
coroutines, the records) at one or two indices. The lemmas say what holds of
such a family afterwards, from an equation that names it: `g` is the new family,
and it may be a field of a new state.

* `update_cases`, `update_two_cases` — an index is the one that moved or has its old value.
* `forall_of_update`, `part_of_update` — an invariant of all indices, and one of a part of each.
-/

namespace EmbLinux

variable {ι β γ : Type*} [DecidableEq ι] {f g : ι → β} {i j : ι} {b c : β}

/-- The index that moved, or another one. -/
theorem update_at (f : ι → β) (i : ι) (b : β) (k : ι) :
    (k = i ∧ Function.update f i b k = b) ∨ (k ≠ i ∧ Function.update f i b k = f k) := by
  by_cases hki : k = i
  · exact Or.inl ⟨hki, by rw [hki, Function.update_self]⟩
  · exact Or.inr ⟨hki, Function.update_of_ne hki ..⟩

/-- A function that was updated at one place, there and elsewhere. -/
theorem update_cases (h : g = Function.update f i b) (k : ι) :
    (k = i ∧ g k = b) ∨ (k ≠ i ∧ g k = f k) := by
  rw [h]
  exact update_at f i b k

/-- One of the two indices that moved, or another one. -/
theorem update_two_cases (h : g = Function.update (Function.update f j c) i b) (k : ι) :
    (k = i ∧ g k = b) ∨ (k ≠ i ∧ k = j ∧ g k = c) ∨ (k ≠ i ∧ k ≠ j ∧ g k = f k) := by
  rcases update_cases h k with hHere | ⟨hki, hk⟩
  · exact Or.inl hHere
  rcases update_at f j c k with ⟨hkj, hk'⟩ | ⟨hkj, hk'⟩
  · exact Or.inr (Or.inl ⟨hki, hkj, hk.trans hk'⟩)
  · exact Or.inr (Or.inr ⟨hki, hkj, hk.trans hk'⟩)

/-- What holds of every index holds after a step, if it holds of the one that
moved. -/
theorem forall_of_update {p : β → Prop} (h : g = Function.update f i b) (hOld : ∀ k, p (f k))
    (hNew : p b) (k : ι) : p (g k) := by
  rcases update_cases h k with ⟨-, hk⟩ | ⟨-, hk⟩ <;> rw [hk]
  · exact hNew
  · exact hOld k

/-- The same for a part that not every value has. -/
theorem part_of_update {p : ι → γ → Prop} (m : β → Option γ) (h : g = Function.update f i b)
    (hMoved : ∀ c, m b = some c → p i c) (hOther : ∀ k c, k ≠ i → m (f k) = some c → p k c)
    (k : ι) (c : γ) (hc : m (g k) = some c) : p k c := by
  rcases update_cases h k with ⟨rfl, hk⟩ | ⟨hki, hk⟩ <;> rw [hk] at hc
  · exact hMoved c hc
  · exact hOther k c hki hc

/-- An observation that the moved index keeps is kept by all. -/
theorem observe_update (m : β → γ) (h : g = Function.update f i b) (hKeep : m b = m (f i)) (k : ι) :
    m (g k) = m (f k) := by
  rcases update_cases h k with ⟨hki, hk⟩ | ⟨-, hk⟩ <;> rw [hk]
  rw [hki, hKeep]

/-- A part of the values, after a step. -/
theorem part_update (m : β → γ) (f : ι → β) (i : ι) (b : β) :
    (fun k => m (Function.update f i b k)) = Function.update (fun k => m (f k)) i (m b) := by
  funext k
  rcases update_at f i b k with ⟨rfl, hk⟩ | ⟨hki, hk⟩ <;> rw [hk]
  · rw [Function.update_self]
  · rw [Function.update_of_ne hki]

end EmbLinux
