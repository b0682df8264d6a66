import Mathlib.Data.List.Perm.Basic
import Mathlib.Order.Defs.Unbundled

/-!
# EmbLinux — lists split at a pivot

`Partition p l` is what a partition of `l` by a predicate gives: the elements with `p` before
the others, in any order. `Ascending lt l` says that no element is less than one before it; two
sorted lists on either side of a pivot make a sorted list.

* `Partition.stable` — the partition that keeps the order on either side.
* `Ascending.append` — two halves around a pivot make a sorted whole.
-/

namespace EmbLinux

variable {α : Type*}

/-- A list split by a predicate, in no particular order. -/
structure Partition (p : α → Bool) (l : List α) where
  front : List α
  back : List α
  perm : (front ++ back).Perm l
  all_front : ∀ x ∈ front, p x = true
  all_back : ∀ x ∈ back, p x = false

/-- The stable one. -/
def Partition.stable (p : α → Bool) (l : List α) : Partition p l where
  front := l.filter p
  back := l.filter fun x => !p x
  perm := List.filter_append_perm p l
  all_front := fun _ hx => (List.mem_filter.mp hx).2
  all_back := fun _ hx => by simpa using (List.mem_filter.mp hx).2

/-- No element is less than one before it. -/
def Ascending (lt : α → α → Prop) (l : List α) : Prop :=
  l.Pairwise fun a b => ¬ lt b a

variable {lt : α → α → Prop} {l r : List α} {pivot : α}

theorem Ascending.nil : Ascending lt [] :=
  List.Pairwise.nil

/-- An element in front of what is not below it, -/
theorem Ascending.cons (h : Ascending lt r) (hPivot : ∀ b ∈ r, ¬ lt b pivot) :
    Ascending lt (pivot :: r) :=
  List.pairwise_cons.mpr ⟨hPivot, h⟩

/-- and a list in front of what is not below any of its elements. -/
theorem Ascending.append (hl : Ascending lt l) (hr : Ascending lt r)
    (hCross : ∀ a ∈ l, ∀ b ∈ r, ¬ lt b a) : Ascending lt (l ++ r) :=
  List.pairwise_append.mpr ⟨hl, hr, hCross⟩

/-- What is less than the pivot, before what is not. -/
theorem not_lt_of_pivot [IsStrictOrder α lt] (hl : ∀ a ∈ l, lt a pivot)
    (hr : ∀ b ∈ r, ¬ lt b pivot) : ∀ a ∈ l, ∀ b ∈ pivot :: r, ¬ lt b a := by
  intro a ha b hb hLess
  rcases List.mem_cons.mp hb with rfl | hb
  · exact irrefl_of lt b (trans_of lt hLess (hl a ha))
  · exact hr b hb (trans_of lt hLess (hl a ha))

end EmbLinux
