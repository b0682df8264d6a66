import EmbLinux.Lib.Update
import Mathlib.Data.List.Nodup
import Mathlib.Data.List.Perm.Basic

/-!
# EmbLinux — things in one of several queues

Queues indexed by `κ`, over things that are each in one queue at most, and there
only once. `place` says in which one. A thing enters a queue, or moves from one to
another; where in the queue does not matter.

* `unique` — a thing is in one queue only.
* `add`, `move` — a new thing, and one that changes its queue: the two steps from which a proof of
  conservation is made.
-/

namespace EmbLinux

variable {α κ : Type*}

/-- Each queue holds exactly the things that are placed in it, each once. -/
def Placement (queues : κ → List α) (place : α → Option κ) : Prop :=
  ∀ k, (queues k).Nodup ∧ ∀ x, x ∈ queues k ↔ place x = some k

namespace Placement

variable {queues queues' : κ → List α} {place : α → Option κ} {x : α} {k k' : κ}

/-- Nothing is anywhere. -/
theorem empty : Placement (fun _ : κ => ([] : List α)) fun _ => none :=
  fun _ => ⟨List.nodup_nil, fun _ => ⟨nofun, nofun⟩⟩

/-- What is in a queue has this place. -/
theorem place_of_mem (h : Placement queues place) (hx : x ∈ queues k) : place x = some k :=
  ((h k).2 x).mp hx

/-- Nothing is in two queues. -/
theorem unique (h : Placement queues place) (hx : x ∈ queues k) (hx' : x ∈ queues k') :
    k = k' :=
  Option.some.inj ((h.place_of_mem hx).symm.trans (h.place_of_mem hx'))

/-- The queues are reordered at most. -/
theorem congr (h : Placement queues place) (hPerm : ∀ k, (queues' k).Perm (queues k)) :
    Placement queues' place := by
  intro k
  refine ⟨(hPerm k).nodup_iff.mpr (h k).1, ?_⟩
  intro x
  rw [(hPerm k).mem_iff]
  exact (h k).2 x

variable [DecidableEq α]

/-- Something new enters a queue. -/
theorem add (h : Placement queues place) (hNew : place x = none)
    (hEnter : (queues' k).Perm (x :: queues k)) (hOther : ∀ j, j ≠ k → queues' j = queues j) :
    Placement queues' (Function.update place x (some k)) := by
  have hOut : ∀ j, x ∉ queues j := by
    intro j hx
    rw [h.place_of_mem hx] at hNew
    cases hNew
  intro j
  by_cases hj : j = k
  · subst hj
    refine ⟨hEnter.nodup_iff.mpr (List.nodup_cons.mpr ⟨hOut j, (h j).1⟩), ?_⟩
    intro y
    rw [hEnter.mem_iff, List.mem_cons]
    rcases update_at place x (some j) y with ⟨hEq, hAt⟩ | ⟨hne, hAt⟩ <;> rw [hAt]
    · exact ⟨fun _ => rfl, fun _ => Or.inl hEq⟩
    · rw [← (h j).2 y]
      exact ⟨fun hOr => hOr.resolve_left hne, Or.inr⟩
  · rw [hOther j hj]
    refine ⟨(h j).1, ?_⟩
    intro y
    rcases update_at place x (some k) y with ⟨rfl, hAt⟩ | ⟨-, hAt⟩ <;> rw [hAt]
    · exact ⟨fun hy => absurd hy (hOut j), fun hEq => absurd (Option.some.inj hEq).symm hj⟩
    · exact (h j).2 y

/-- Something moves from one queue to another. -/
theorem move (h : Placement queues place) (hne : k ≠ k')
    (hLeave : (queues k).Perm (x :: queues' k)) (hEnter : (queues' k').Perm (x :: queues k'))
    (hOther : ∀ j, j ≠ k → j ≠ k' → queues' j = queues j) :
    Placement queues' (Function.update place x (some k')) := by
  have hx : x ∈ queues k := hLeave.mem_iff.mpr List.mem_cons_self
  have hNodup := hLeave.nodup_iff.mp (h k).1
  obtain ⟨hGone, hRest⟩ := List.nodup_cons.mp hNodup
  have hOut : ∀ j, j ≠ k → x ∉ queues j := fun j hj hMem => hj (h.unique hMem hx)
  intro j
  by_cases hjk : j = k
  · rw [hjk]
    refine ⟨hRest, ?_⟩
    intro y
    rcases update_at place x (some k') y with ⟨rfl, hAt⟩ | ⟨hy, hAt⟩ <;> rw [hAt]
    · exact ⟨fun hMem => absurd hMem hGone, fun hEq => absurd (Option.some.inj hEq).symm hne⟩
    · rw [← (h k).2 y, hLeave.mem_iff, List.mem_cons]
      exact ⟨Or.inr, fun hOr => hOr.resolve_left hy⟩
  by_cases hjk' : j = k'
  · rw [hjk']
    have hFresh := hOut k' (Ne.symm hne)
    refine ⟨hEnter.nodup_iff.mpr (List.nodup_cons.mpr ⟨hFresh, (h k').1⟩), ?_⟩
    intro y
    rw [hEnter.mem_iff, List.mem_cons]
    rcases update_at place x (some k') y with ⟨hEq, hAt⟩ | ⟨hy, hAt⟩ <;> rw [hAt]
    · exact ⟨fun _ => rfl, fun _ => Or.inl hEq⟩
    · rw [← (h k').2 y]
      exact ⟨fun hOr => hOr.resolve_left hy, Or.inr⟩
  · rw [hOther j hjk hjk']
    refine ⟨(h j).1, ?_⟩
    intro y
    rcases update_at place x (some k') y with ⟨rfl, hAt⟩ | ⟨-, hAt⟩ <;> rw [hAt]
    · exact ⟨fun hMem => absurd hMem (hOut j hjk),
        fun hEq => absurd (Option.some.inj hEq).symm hjk'⟩
    · exact (h j).2 y

end Placement

end EmbLinux
