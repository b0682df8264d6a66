import Mathlib.Data.Set.Card

/-!
# EmbLinux — counting the threads at a program point

`count p f` is the number of indices (threads, coroutines) whose value satisfies
`p`. Any number of them may exist; only finitely many leave their start value
in a run, so the lemmas carry the finiteness of the counted set, which every
update keeps.

* `count_update_of_iff`, `count_update_enter`, `count_update_leave` — one thread moves: the count
  stays, or is one more or one less.
* `exists_of_count_pos` — somebody is there.
-/

namespace EmbLinux

variable {ι β : Type*} {p : β → Prop} {f : ι → β} {i : ι} {b : β}

/-- The number of indices whose value satisfies `p`. -/
noncomputable def count (p : β → Prop) (f : ι → β) : Nat :=
  {i | p (f i)}.ncard

/-- Somebody with the property is counted. -/
theorem count_pos (hFin : {i | p (f i)}.Finite) (h : p (f i)) : 0 < count p f :=
  (Set.ncard_pos hFin).mpr ⟨i, h⟩

/-- Nobody is counted if nobody has it. -/
theorem count_eq_zero (h : ∀ i, ¬ p (f i)) : count p f = 0 := by
  rw [count, show {i | p (f i)} = ∅ from Set.eq_empty_of_forall_notMem h, Set.ncard_empty]

/-- Whoever is counted exists. -/
theorem exists_of_count_pos (h : 0 < count p f) : ∃ i, p (f i) := by
  by_contra hNone
  rw [count_eq_zero (fun i hi => hNone ⟨i, hi⟩)] at h
  exact Nat.lt_irrefl 0 h

variable [DecidableEq ι]

/-- One more or less is still finitely many. -/
theorem finite_update (hFin : {i | p (f i)}.Finite) :
    {j | p (Function.update f i b j)}.Finite := by
  refine (hFin.insert i).subset ?_
  intro j hj
  by_cases hji : j = i
  · exact Or.inl hji
  · exact Or.inr (by simpa [hji] using hj)

/-- A move between two counted or two uncounted values keeps the count. -/
theorem count_update_of_iff (h : p b ↔ p (f i)) :
    count p (Function.update f i b) = count p f := by
  unfold count
  congr 1
  ext j
  by_cases hj : j = i
  · subst hj
    simpa using h
  · simp [hj]

/-- Index `i` enters the counted set. -/
theorem count_update_enter (hFin : {i | p (f i)}.Finite) (hOut : ¬ p (f i)) (hIn : p b) :
    count p (Function.update f i b) = count p f + 1 := by
  have hSet : {j | p (Function.update f i b j)} = insert i {j | p (f j)} := by
    ext j
    by_cases hj : j = i
    · subst hj
      simpa using hIn
    · simp [hj]
  rw [count, hSet, Set.ncard_insert_of_notMem (s := {j | p (f j)}) hOut hFin, count]

/-- Index `i` leaves the counted set. -/
theorem count_update_leave (hFin : {i | p (f i)}.Finite) (hIn : p (f i)) (hOut : ¬ p b) :
    count p (Function.update f i b) + 1 = count p f := by
  have hSet : {j | p (Function.update f i b j)} = {j | p (f j)} \ {i} := by
    ext j
    by_cases hj : j = i
    · subst hj
      simpa using hOut
    · simp [hj]
  rw [count, hSet, Set.ncard_sdiff_singleton_add_one (s := {j | p (f j)}) hIn hFin, count]

/-- One move takes one index out of the counted set at most. -/
theorem count_le_update_succ (hFin : {i | p (f i)}.Finite) :
    count p f ≤ count p (Function.update f i b) + 1 := by
  by_cases hOld : p (f i) <;> by_cases hNew : p b
  · rw [count_update_of_iff ⟨fun _ => hOld, fun _ => hNew⟩]
    exact Nat.le_succ _
  · exact Nat.le_of_eq (count_update_leave hFin hOld hNew).symm
  · rw [count_update_enter hFin hOld hNew]
    omega
  · rw [count_update_of_iff ⟨fun h => absurd h hNew, fun h => absurd h hOld⟩]
    exact Nat.le_succ _

/-- The count before and after one move. -/
theorem count_update_add [DecidablePred p] (hFin : {i | p (f i)}.Finite) :
    count p (Function.update f i b) + (if p (f i) then 1 else 0) =
      count p f + (if p b then 1 else 0) := by
  by_cases hOld : p (f i) <;> by_cases hNew : p b
  · rw [count_update_of_iff ⟨fun _ => hOld, fun _ => hNew⟩, if_pos hOld, if_pos hNew]
  · rw [if_pos hOld, if_neg hNew, count_update_leave hFin hOld hNew, Nat.add_zero]
  · rw [if_neg hOld, if_pos hNew, count_update_enter hFin hOld hNew, Nat.add_zero]
  · rw [count_update_of_iff ⟨fun h => absurd h hNew, fun h => absurd h hOld⟩, if_neg hOld,
      if_neg hNew]

end EmbLinux
