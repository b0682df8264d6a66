import EmbLinux.Lib.System
import Mathlib.Data.List.Perm.Basic

/-!
# EmbLinux — an abstract last-in first-out stack

The specification that the stacks of the repository are compared with: a list of
items, top first, and the history of what went in and what came out.

* `exec_push`, `exec_pop` — what a run of one operation does.
* `pushed_perm` — nothing is lost: what went in is what came out and what is left.
-/

namespace EmbLinux

/-- A stack with the history of its operations. -/
structure Lifo (α : Type*) where
  items : List α
  pushed : List α
  popped : List α

namespace Lifo

variable {α : Type*}

/-- The operations of a stack. -/
inductive Op (α : Type*)
  | push (v : α)
  | pop

/-- A push goes on top; a pop of the empty stack is no step. -/
def step (q : Lifo α) : Op α → Option (Lifo α)
  | .push v => some { q with items := v :: q.items, pushed := q.pushed ++ [v] }
  | .pop =>
    match q.items with
    | [] => none
    | v :: rest => some { q with items := rest, popped := q.popped ++ [v] }

/-- The stack that starts empty. -/
def system (α : Type*) : System (Lifo α) (Op α) where
  init := ⟨[], [], []⟩
  step := step

variable {q : Lifo α}

/-- One push is a run, -/
theorem exec_push (q : Lifo α) (v : α) :
    (system α).exec q [.push v] =
      some { q with items := v :: q.items, pushed := q.pushed ++ [v] } := rfl

/-- and so is one pop. -/
theorem exec_pop {v : α} {rest : List α} (h : q.items = v :: rest) :
    (system α).exec q [.pop] = some { q with items := rest, popped := q.popped ++ [v] } := by
  simp [System.exec_cons, system, step, h]

/-- Nothing is lost or duplicated: what went in is what is still there, with what
came out. -/
theorem pushed_perm (h : (system α).Reachable q) : q.pushed.Perm (q.items ++ q.popped) := by
  refine h.invariant (I := fun q => q.pushed.Perm (q.items ++ q.popped)) (List.Perm.refl _) ?_
  intro q op q' _ hPerm _ hst
  cases op with
  | push v =>
    cases hst
    have hEnd : (q.pushed ++ [v]).Perm (v :: q.pushed) := List.perm_append_singleton v q.pushed
    exact hEnd.trans (hPerm.cons v)
  | pop =>
    simp only [system, step] at hst
    split at hst
    · cases hst
    · next v rest hitems =>
      cases hst
      rw [hitems] at hPerm
      refine hPerm.trans ?_
      -- the top moves from the front of the items to the end of the history
      have hEnd : (v :: (rest ++ q.popped)).Perm (rest ++ q.popped ++ [v]) :=
        (List.perm_append_singleton v _).symm
      simpa [List.append_assoc] using hEnd

end Lifo

end EmbLinux
