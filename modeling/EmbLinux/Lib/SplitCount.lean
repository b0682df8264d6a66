import EmbLinux.Lib.Count
import EmbLinux.Lib.Update
import Mathlib.Algebra.BigOperators.Group.Finset.Basic
import Mathlib.Algebra.Ring.Int.Defs

/-!
# EmbLinux — split reference counts

The references to an object are counted in two places. A counted pointer `i` to
the object `p` holds an external count, `external p i`: it starts at 1, and each
thread that takes a reference through the pointer adds one. The object itself
holds an internal count: a thread that drops its reference subtracts one, and when
the pointer is gone, the thread that removed it adds the external count, less two
for the pointer and for its own reference; from then on the pointer is closed.

`Balanced` says that the counts together are the number of references, `ref t`
being the object that thread `t` has a reference to. The lemmas are the rules for
the four ways in which a program moves the counts, and what a thread may conclude
from an internal count once all pointers are closed.
-/

namespace EmbLinux

/-- What a counted pointer adds to the count of its object: a closed one nothing. -/
def share : Option Int → Int
  | none => 0
  | some c => c - 1

@[simp] theorem share_none : share none = 0 := rfl

@[simp] theorem share_some (c : Int) : share (some c) = c - 1 := rfl

/-- The internal counts and the open external counts are the numbers of references. -/
structure Balanced {κ ι τ : Type*} [Fintype ι] (internal : κ → Int)
    (external : κ → ι → Option Int) (ref : τ → Option κ) : Prop where
  finite : ∀ p, {t | ref t = some p}.Finite
  balance : ∀ p, internal p + ∑ i, share (external p i) = count (fun r => r = some p) ref

section

variable {κ ι τ : Type*} [Fintype ι] [DecidableEq κ] [DecidableEq ι] [DecidableEq τ]
  {internal internal' : κ → Int} {external external' : κ → ι → Option Int}
  {ref ref' : τ → Option κ} {p : κ} {i : ι} {t u : τ} {c : Int}

/-- The sum of the shares changes with one of them. -/
theorem sum_share_update (e : ι → Option Int) (i : ι) (x : Option Int) :
    ∑ j, share (Function.update e i x j) = ∑ j, share (e j) - share (e i) + share x := by
  have hOld := Finset.add_sum_erase Finset.univ (fun j => share (e j)) (Finset.mem_univ i)
  have hNew := Finset.add_sum_erase Finset.univ (fun j => share (Function.update e i x j))
    (Finset.mem_univ i)
  have hSame : ∑ j ∈ Finset.univ.erase i, share (Function.update e i x j) =
      ∑ j ∈ Finset.univ.erase i, share (e j) := by
    refine Finset.sum_congr rfl ?_
    intro j hj
    rw [Function.update_of_ne (Finset.ne_of_mem_erase hj)]
  simp only [Function.update_self] at hNew
  omega

namespace Balanced

/-- A thread takes a reference through an open pointer. -/
theorem acquire (h : Balanced internal external ref) (hNone : ref t = none)
    (hOpen : external p i = some c)
    (hExternal : external' = Function.update external p
      (Function.update (external p) i (some (c + 1))))
    (hRef : ref' = Function.update ref t (some p)) : Balanced internal external' ref' := by
  subst hExternal hRef
  refine ⟨fun q => finite_update (p := fun r => r = some q) (h.finite q), ?_⟩
  intro q
  rcases update_at external p (Function.update (external p) i (some (c + 1))) q with
    ⟨rfl, hAt⟩ | ⟨hne, hAt⟩ <;> rw [hAt]
  · have hOut : ¬ ref t = some q := by simp [hNone]
    have hEnter := count_update_enter (b := some q) (p := fun r => r = some q) (h.finite q) hOut rfl
    have hBalance := h.balance q
    rw [sum_share_update, hOpen]
    simp only [share_some]
    omega
  · rw [count_update_of_iff (by simp [hNone, Ne.symm hne])]
    exact h.balance q

omit [DecidableEq ι] in
/-- A thread drops its reference. -/
theorem release (h : Balanced internal external ref) (hHas : ref t = some p)
    (hInternal : internal' = Function.update internal p (internal p - 1))
    (hRef : ref' = Function.update ref t none) : Balanced internal' external ref' := by
  subst hInternal hRef
  refine ⟨fun q => finite_update (p := fun r => r = some q) (h.finite q), ?_⟩
  intro q
  have hBalance := h.balance q
  rcases update_at internal p (internal p - 1) q with ⟨rfl, hAt⟩ | ⟨hne, hAt⟩ <;> rw [hAt]
  · have hLeave := count_update_leave (b := none) (p := fun r => r = some q) (h.finite q) hHas
      (by simp)
    omega
  · rw [count_update_of_iff (by simp [hHas, Ne.symm hne])]
    exact hBalance

/-- The thread that removed a pointer adds its count, and drops its reference. -/
theorem close (h : Balanced internal external ref) (hHas : ref t = some p)
    (hOpen : external p i = some c)
    (hInternal : internal' = Function.update internal p (internal p + (c - 2)))
    (hExternal : external' = Function.update external p (Function.update (external p) i none))
    (hRef : ref' = Function.update ref t none) : Balanced internal' external' ref' := by
  subst hInternal hExternal hRef
  refine ⟨fun q => finite_update (p := fun r => r = some q) (h.finite q), ?_⟩
  intro q
  have hBalance := h.balance q
  by_cases hne : q = p
  · subst hne
    have hLeave := count_update_leave (b := none) (p := fun r => r = some q) (h.finite q) hHas
      (by simp)
    rw [Function.update_self, Function.update_self, sum_share_update, hOpen]
    simp only [share_some, share_none]
    omega
  · rw [Function.update_of_ne hne, Function.update_of_ne hne,
      count_update_of_iff (p := fun r => r = some q) (by simp [hHas, Ne.symm hne])]
    exact hBalance

omit [DecidableEq ι] [DecidableEq τ] in
/-- A new object, which nobody has a reference to. -/
theorem create (h : Balanced internal external ref) (hNew : ∀ t, ref t ≠ some p)
    (hInternal : internal' = Function.update internal p 0)
    (hExternal : external' = Function.update external p fun _ => some 1) :
    Balanced internal' external' ref := by
  subst hInternal hExternal
  refine ⟨h.finite, ?_⟩
  intro q
  by_cases hne : q = p
  · subst hne
    rw [Function.update_self, Function.update_self, count_eq_zero hNew]
    simp
  · rw [Function.update_of_ne hne, Function.update_of_ne hne]
    exact h.balance q

-- ---------------------------------------------------------------------------
-- What the internal count says
-- ---------------------------------------------------------------------------

omit [DecidableEq κ] [DecidableEq ι] [DecidableEq τ] in
/-- When all pointers are closed, the internal count is the number of references. -/
theorem closed (h : Balanced internal external ref) (hClosed : ∀ i, external p i = none) :
    internal p = count (fun r => r = some p) ref := by
  have hBalance := h.balance p
  simp only [hClosed, share_none, Finset.sum_const_zero, add_zero] at hBalance
  exact hBalance

omit [DecidableEq κ] [DecidableEq ι] [DecidableEq τ] in
/-- When the count is closed and 0, nobody has a reference. -/
theorem no_ref (h : Balanced internal external ref) (hClosed : ∀ i, external p i = none)
    (hZero : internal p = 0) (t : τ) : ref t ≠ some p := by
  intro hRef
  have hPos := count_pos (p := fun r => r = some p) (h.finite p) hRef
  have hEq := h.closed hClosed
  omega

end Balanced

end

end EmbLinux
