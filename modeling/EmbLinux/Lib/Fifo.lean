import EmbLinux.Lib.System

/-!
# EmbLinux — an abstract first-in first-out queue

The specification that the queues and channels of the repository are compared
with: a list of items, an append at one end, a removal at the other, and the
history of both. `room n` says whether one more item fits when `n` are stored,
so one system serves bounded and unbounded queues.

* `exec_push`, `exec_pop` — what a run of one operation does.
* `pushed_eq` — what went in is what came out and then what is left, in this order.
* `length_le` — the items keep within the bound that `room` gives.
-/

namespace EmbLinux

/-- A queue with the history of what went in and what came out. -/
structure Fifo (α : Type*) where
  items : List α
  pushed : List α
  popped : List α

namespace Fifo

variable {α : Type*}

/-- The operations of a queue. -/
inductive Op (α : Type*)
  | push (v : α)
  | pop

/-- `room` says for which lengths there is room for one more. -/
def step (room : Nat → Bool) (q : Fifo α) : Op α → Option (Fifo α)
  | .push v =>
    if room q.items.length then
      some { q with items := q.items ++ [v], pushed := q.pushed ++ [v] }
    else none
  | .pop =>
    match q.items with
    | [] => none
    | v :: rest => some { q with items := rest, popped := q.popped ++ [v] }

/-- The queue that starts empty. -/
def system (α : Type*) (room : Nat → Bool) : System (Fifo α) (Op α) where
  init := ⟨[], [], []⟩
  step := step room

variable {room : Nat → Bool} {q : Fifo α}

/-- One push is a run, -/
theorem exec_push {v : α} (h : room q.items.length = true) :
    (system α room).exec q [.push v] =
      some { q with items := q.items ++ [v], pushed := q.pushed ++ [v] } := by
  simp [System.exec_cons, system, step, h]

/-- and so is one pop. -/
theorem exec_pop {v : α} {rest : List α} (h : q.items = v :: rest) :
    (system α room).exec q [.pop] =
      some { q with items := rest, popped := q.popped ++ [v] } := by
  simp [System.exec_cons, system, step, h]

/-- Nothing is lost, duplicated or reordered: what went in is what came out,
followed by what is still stored. -/
theorem pushed_eq (h : (system α room).Reachable q) : q.pushed = q.popped ++ q.items := by
  refine h.invariant (I := fun q => q.pushed = q.popped ++ q.items) rfl ?_
  rintro q op q' - hI - hst
  cases op with
  | push v =>
    simp only [system, step] at hst
    split at hst
    · cases hst
      simp [hI]
    · cases hst
  | pop =>
    simp only [system, step] at hst
    split at hst
    · cases hst
    · next v rest hitems =>
      cases hst
      simp [hI, hitems]

/-- What was popped is the beginning of what was pushed. -/
theorem popped_prefix (h : (system α room).Reachable q) : q.popped <+: q.pushed :=
  ⟨q.items, (pushed_eq h).symm⟩

/-- The number of stored items never exceeds a capacity that `room` respects. -/
theorem length_le {cap : Nat} (hRoom : ∀ n, room n = true → n < cap)
    (h : (system α room).Reachable q) : q.items.length ≤ cap := by
  refine h.invariant (I := fun q => q.items.length ≤ cap) (Nat.zero_le _) ?_
  rintro q op q' - hI - hst
  cases op with
  | push v =>
    simp only [system, step] at hst
    split at hst
    · next hr =>
      cases hst
      have := hRoom _ hr
      simp only [List.length_append, List.length_singleton]
      omega
    · cases hst
  | pop =>
    simp only [system, step] at hst
    split at hst
    · cases hst
    · next v rest hitems =>
      cases hst
      simp only [hitems, List.length_cons] at hI ⊢
      omega

end Fifo

end EmbLinux
