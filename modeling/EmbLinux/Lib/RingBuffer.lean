import Mathlib.Data.Nat.Notation

/-!
# EmbLinux — ring buffer positions

A ring of `size` cells holds a list of items starting at the cell `head`; the
`i`-th item lives in the cell `slot size head i`. The lemmas say how positions
move when items are appended behind the last or removed in front, and how the
full and the empty ring are told apart from the two end positions alone.

* `slot_inj` — two items are in two cells.
* `slot_eq_head_iff`, `next_slot_eq_head_iff` — when the position behind the last item is the one
  of the first, and when it is one before it.
-/

namespace EmbLinux.RingBuffer

/-- The cell of the `i`-th item of a ring that starts at `head`. -/
def slot (size head i : Nat) : Nat :=
  (head + i) % size

variable {size head i j : Nat}

/-- Positions wrap at most once. -/
theorem slot_eq (hHead : head < size) (hi : i ≤ size) :
    slot size head i = if head + i < size then head + i else head + i - size := by
  unfold slot
  split
  · next h => exact Nat.mod_eq_of_lt h
  · next h => rw [Nat.mod_eq_sub_mod (by omega), Nat.mod_eq_of_lt (by omega)]

@[simp] theorem slot_zero (hHead : head < size) : slot size head 0 = head :=
  Nat.mod_eq_of_lt hHead

/-- Different places behind the head have different slots. -/
theorem slot_inj (hHead : head < size) (hi : i < size) (hj : j < size)
    (h : slot size head i = slot size head j) : i = j := by
  rw [slot_eq hHead (Nat.le_of_lt hi), slot_eq hHead (Nat.le_of_lt hj)] at h
  split at h <;> split at h <;> omega

/-- The cell behind the `i`-th item is the `(i + 1)`-th. -/
theorem next_slot : (slot size head i + 1) % size = slot size head (i + 1) := by
  rw [slot, Nat.mod_add_mod, slot, Nat.add_assoc]

/-- Dropping the first item renumbers the others. -/
theorem slot_next : slot size ((head + 1) % size) i = slot size head (i + 1) := by
  rw [slot, Nat.mod_add_mod, slot]
  congr 1
  omega

/-- The end position meets `head` only when the ring is empty. -/
theorem slot_eq_head_iff (hHead : head < size) (hi : i < size) :
    slot size head i = head ↔ i = 0 := by
  rw [slot_eq hHead (Nat.le_of_lt hi)]
  split <;> omega

/-- One cell is kept free: the position behind the end meets `head` only when
`size - 1` items are stored. -/
theorem next_slot_eq_head_iff (hHead : head < size) (hi : i < size) :
    (slot size head i + 1) % size = head ↔ i + 1 = size := by
  rw [next_slot, slot_eq hHead hi]
  split <;> omega

/-- The number of items is the distance of the end positions modulo `size`. -/
theorem slot_sub_head_emod (hHead : head < size) (hi : i < size) :
    ((slot size head i : Int) - head) % size = i := by
  rw [slot_eq hHead (Nat.le_of_lt hi)]
  split
  · rw [show ((head + i : Nat) : Int) - head = i by omega]
    exact Int.emod_eq_of_lt (by omega) (by omega)
  · rw [show ((head + i - size : Nat) : Int) - head = i - size by omega, Int.sub_emod_right]
    exact Int.emod_eq_of_lt (by omega) (by omega)

end EmbLinux.RingBuffer
