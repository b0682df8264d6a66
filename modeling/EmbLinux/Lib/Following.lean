import Mathlib.Data.List.Nodup

/-!
# EmbLinux — what follows an element of a list

For lists in which nothing comes twice: the part of the list behind an element, and how it
changes when an element is taken out of the list or put in at the front.

* `following_inj` — two elements that are followed by the same are the same.
* `following_erase`, `following_insert` — the two changes.
-/

namespace EmbLinux

variable {β : Type*} [DecidableEq β] {a b c : β} {l r : List β}

/-- The part of the list behind the first `a`. -/
def following (a : β) : List β → List β
  | [] => []
  | x :: l => if x = a then l else following a l

/-- Behind the first element comes the rest, -/
theorem following_cons_self : following a (a :: l) = l :=
  if_pos rfl

/-- and behind a later one what comes behind it there. -/
theorem following_cons_of_ne (h : b ≠ a) : following a (b :: l) = following a l :=
  if_neg h

/-- What is behind an element is behind the first one, in the same order. -/
theorem following_cons_sublist (a x : β) (l : List β) : (following a (x :: l)).Sublist l := by
  induction l generalizing x with
  | nil =>
    unfold following
    split
    · exact List.Sublist.refl _
    · exact List.Sublist.slnil
  | cons y l ih =>
    unfold following
    split
    · exact List.Sublist.refl _
    · exact (ih y).cons y

/-- An element does not come behind itself. -/
theorem not_mem_following (h : l.Nodup) (a : β) : a ∉ following a l := by
  induction l with
  | nil => exact List.not_mem_nil
  | cons x l ih =>
    obtain ⟨hx, hl⟩ := List.nodup_cons.mp h
    by_cases hxa : x = a
    · rw [← hxa, following_cons_self]
      exact hx
    · rw [following_cons_of_ne hxa]
      exact ih hl

/-- What is behind the next element. -/
theorem following_of_cons (h : l.Nodup) (hNext : following a l = b :: r) : following b l = r := by
  induction l with
  | nil => cases hNext
  | cons x l ih =>
    obtain ⟨hx, hl⟩ := List.nodup_cons.mp h
    have hb : x ≠ b := by
      rintro rfl
      exact hx ((following_cons_sublist a x l).subset (hNext ▸ List.mem_cons_self))
    rw [following_cons_of_ne hb]
    by_cases hxa : x = a
    · rw [hxa, following_cons_self] at hNext
      rw [hNext, following_cons_self]
    · rw [following_cons_of_ne hxa] at hNext
      exact ih hl hNext

/-- An element comes next behind one element only. -/
theorem following_inj (h : l.Nodup) {r' : List β} (ha : following a l = c :: r)
    (hb : following b l = c :: r') : a = b := by
  induction l with
  | nil => cases ha
  | cons x l ih =>
    have hFirst : ∀ {d : β}, l = c :: r ∨ l = c :: r' → c ∉ following d l := by
      rintro d (rfl | rfl) hMem
      · exact (List.nodup_cons.mp (List.nodup_cons.mp h).2).1
          ((following_cons_sublist d c r).subset hMem)
      · exact (List.nodup_cons.mp (List.nodup_cons.mp h).2).1
          ((following_cons_sublist d c r').subset hMem)
    by_cases hxa : x = a <;> by_cases hxb : x = b
    · exact hxa.symm.trans hxb
    · rw [hxa, following_cons_self] at ha
      rw [following_cons_of_ne hxb] at hb
      exact absurd (hb ▸ List.mem_cons_self) (hFirst (Or.inl ha))
    · rw [following_cons_of_ne hxa] at ha
      rw [hxb, following_cons_self] at hb
      exact absurd (ha ▸ List.mem_cons_self) (hFirst (Or.inr hb))
    · rw [following_cons_of_ne hxa] at ha
      rw [following_cons_of_ne hxb] at hb
      exact ih (List.nodup_cons.mp h).2 ha hb

/-- An element is taken out. -/
theorem following_erase (h : l.Nodup) (hne : a ≠ b) :
    following a (l.erase b) = (following a l).erase b := by
  induction l with
  | nil => rfl
  | cons x l ih =>
    obtain ⟨hx, hl⟩ := List.nodup_cons.mp h
    by_cases hxb : x = b
    · have hOut : b ∉ following a (x :: l) := fun hMem =>
        hx (hxb ▸ (following_cons_sublist a x l).subset hMem)
      rw [List.erase_of_not_mem hOut, hxb, List.erase_cons_head, following_cons_of_ne (Ne.symm hne)]
    · rw [List.erase_cons_tail (by simpa using hxb)]
      by_cases hxa : x = a
      · rw [hxa, following_cons_self, following_cons_self]
      · rw [following_cons_of_ne hxa, following_cons_of_ne hxa]
        exact ih hl

/-- An element is put in behind the first one. -/
theorem following_insert (hx : a ≠ b) (hc : a ≠ c) :
    following a (b :: c :: l) = following a (b :: l) := by
  rw [following_cons_of_ne (Ne.symm hx), following_cons_of_ne (Ne.symm hc),
    following_cons_of_ne (Ne.symm hx)]

end EmbLinux
