import EmbLinux.Lib.Update

/-!
# EmbLinux — things with one holder

A family of holders, each with one thing or nothing. It is `Exclusive` if nothing has two
holders; giving something new to a holder, taking it away and handing it on keep that.

It is meant for nodes or blocks that threads own one at a time, where the holders are the threads
and the pool.
-/

namespace EmbLinux

variable {ι β : Type*} {f : ι → Option β} {i j : ι} {b : β}

/-- Nothing has two holders. -/
def Exclusive (f : ι → Option β) : Prop :=
  ∀ i j b, f i = some b → f j = some b → i = j

namespace Exclusive

/-- Nobody holds anything. -/
theorem empty : Exclusive fun _ : ι => (none : Option β) :=
  fun _ _ _ h => absurd h (by simp)

variable [DecidableEq ι]

/-- A holder gets what nobody has. -/
theorem put (h : Exclusive f) (hNew : ∀ k, f k ≠ some b) :
    Exclusive (Function.update f i (some b)) := by
  intro j k c hj hk
  rcases update_at f i (some b) j with ⟨hji, hAtJ⟩ | ⟨-, hAtJ⟩ <;> rw [hAtJ] at hj
  · rcases update_at f i (some b) k with ⟨hki, -⟩ | ⟨-, hAtK⟩
    · rw [hji, hki]
    · rw [hAtK, ← hj] at hk
      exact absurd hk (hNew k)
  · rcases update_at f i (some b) k with ⟨-, hAtK⟩ | ⟨-, hAtK⟩ <;> rw [hAtK] at hk
    · rw [← hk] at hj
      exact absurd hj (hNew j)
    · exact h j k c hj hk

/-- A holder loses what it has. -/
theorem drop (h : Exclusive f) : Exclusive (Function.update f i none) := by
  intro j k c hj hk
  rcases update_at f i none j with ⟨-, hAtJ⟩ | ⟨-, hAtJ⟩ <;> rw [hAtJ] at hj
  · cases hj
  rcases update_at f i none k with ⟨-, hAtK⟩ | ⟨-, hAtK⟩ <;> rw [hAtK] at hk
  · cases hk
  exact h j k c hj hk

/-- What a holder lost is with nobody. -/
theorem not_held (h : Exclusive f) (hi : f i = some b) (k : ι) :
    Function.update f i none k ≠ some b := by
  intro hk
  rcases update_at f i none k with ⟨-, hAtK⟩ | ⟨hki, hAtK⟩ <;> rw [hAtK] at hk
  · cases hk
  · exact hki (h k i b hk hi)

end Exclusive

end EmbLinux
