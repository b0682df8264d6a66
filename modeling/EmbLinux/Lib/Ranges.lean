import Mathlib.Algebra.BigOperators.Group.Finset.Basic
import Mathlib.Algebra.Order.BigOperators.Group.Finset
import Mathlib.Order.Interval.Finset.Nat
import Mathlib.Algebra.Order.Interval.Finset.SuccPred

/-!
# EmbLinux — ranges of one size

Ranges `[a, a + size)` of natural numbers, given by their starts. `Apart` says that they
do not overlap. Ranges that are apart and inside a longer one fit into it by their total
length, which is what an array of blocks that is too long for its memory contradicts.

* `Apart.disjoint` — ranges that are apart have no number in common.
* `length_mul_le` — as many as there are, they take their total length of the range around them.
-/

namespace EmbLinux

/-- The ranges of length `size` from `a` and from `b` do not overlap. -/
def Apart (size a b : Nat) : Prop :=
  a + size ≤ b ∨ b + size ≤ a

/-- The range of length `size` from `a` lies in the one of length `bytes` from `start`. -/
def Inside (start bytes size a : Nat) : Prop :=
  start ≤ a ∧ a + size ≤ start + bytes

variable {start bytes size : Nat} {l : List Nat}

/-- Ranges that are apart begin at different places, -/
theorem Apart.ne {a b : Nat} (h : Apart size a b) (hPos : 0 < size) : a ≠ b := by
  unfold Apart at h
  omega

/-- and have no element in common. -/
theorem Apart.disjoint {a b : Nat} (h : Apart size a b) :
    Disjoint (Finset.Ico a (a + size)) (Finset.Ico b (b + size)) := by
  rw [Finset.disjoint_left]
  intro x hxa hxb
  rw [Finset.mem_Ico] at hxa hxb
  unfold Apart at h
  omega

/-- A range inside another one is part of it. -/
theorem Inside.subset {a : Nat} (h : Inside start bytes size a) :
    Finset.Ico a (a + size) ⊆ Finset.Ico start (start + bytes) :=
  Finset.Ico_subset_Ico h.1 h.2

/-- Ranges that are apart fill at most the range that they lie in. -/
theorem length_mul_le (hApart : l.Pairwise (Apart size))
    (hInside : ∀ a ∈ l, Inside start bytes size a) : l.length * size ≤ bytes := by
  rcases Nat.eq_zero_or_pos size with rfl | hPos
  · simp
  have hNodup : l.Nodup := hApart.imp fun h => h.ne hPos
  have hDisjoint : (l.toFinset : Set Nat).PairwiseDisjoint fun a => Finset.Ico a (a + size) := by
    intro a ha b hb hne
    rw [List.coe_toFinset] at ha hb
    have hSymm : Std.Symm (Apart size) := ⟨fun _ _ h => h.symm⟩
    exact (hApart.forall ha hb hne).disjoint
  have hSubset : l.toFinset.biUnion (fun a => Finset.Ico a (a + size)) ⊆
      Finset.Ico start (start + bytes) := by
    refine Finset.biUnion_subset.mpr ?_
    intro a ha
    exact (hInside a (List.mem_toFinset.mp ha)).subset
  have hCard := Finset.card_le_card hSubset
  rw [Finset.card_biUnion hDisjoint] at hCard
  simpa [Nat.card_Ico, List.toFinset_card_of_nodup hNodup] using hCard

end EmbLinux
