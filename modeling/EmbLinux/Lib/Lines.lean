import Mathlib.Data.List.TakeDrop
import Mathlib.Data.List.TakeWhile

/-!
# EmbLinux — texts and their lines

A text is a list, and its lines end at the element `nl`; what stands behind the last `nl` is a
line if it is not empty. `lines_cases` takes the first line off a text.
-/

namespace EmbLinux

variable {α : Type*} [DecidableEq α] {nl : α}

/-- The lines of a text, without their ends. -/
def lines (nl : α) : List α → List (List α)
  | [] => []
  | c :: s =>
    if c = nl then [] :: lines nl s
    else match lines nl s with
      | [] => [[c]]
      | l :: rest => (c :: l) :: rest

/-- The first line, -/
theorem lines_line {l : List α} (s : List α) (hLine : nl ∉ l) :
    lines nl (l ++ nl :: s) = l :: lines nl s := by
  induction l with
  | nil => simp [lines]
  | cons c l ih =>
    rw [List.mem_cons, not_or] at hLine
    rw [List.cons_append, lines, if_neg (Ne.symm hLine.1), ih hLine.2]

/-- and the last one, which no separator ends. -/
theorem lines_last {l : List α} (hne : l ≠ []) (hLine : nl ∉ l) : lines nl l = [l] := by
  induction l with
  | nil => exact absurd rfl hne
  | cons c l ih =>
    rw [List.mem_cons, not_or] at hLine
    rw [lines, if_neg (Ne.symm hLine.1)]
    by_cases hNil : l = []
    · rw [hNil]
      rfl
    · rw [ih hNil hLine.2]

/-- A text is empty, or one line without its end, or a line in front of a text. -/
theorem lines_cases (nl : α) (s : List α) :
    s = [] ∨ (s ≠ [] ∧ nl ∉ s) ∨ ∃ l rest, s = l ++ nl :: rest ∧ nl ∉ l := by
  induction s with
  | nil => exact Or.inl rfl
  | cons c s ih =>
    refine Or.inr ?_
    by_cases hc : c = nl
    · exact Or.inr ⟨[], s, by rw [hc]; rfl, List.not_mem_nil⟩
    · rcases ih with rfl | ⟨-, hOut⟩ | ⟨l, rest, rfl, hOut⟩
      · exact Or.inl ⟨by simp, by simpa using Ne.symm hc⟩
      · exact Or.inl ⟨by simp, by simp [Ne.symm hc, hOut]⟩
      · exact Or.inr ⟨c :: l, rest, rfl, by simp [Ne.symm hc, hOut]⟩

/-- What is left of a text behind its first line. -/
def dropLine (nl : α) (s : List α) : List α :=
  (s.dropWhile fun c => decide (c ≠ nl)).drop 1

/-- The rest of a line is dropped with its end, -/
theorem dropLine_line {l : List α} (s : List α) (hLine : nl ∉ l) :
    dropLine nl (l ++ nl :: s) = s := by
  induction l with
  | nil => simp [dropLine]
  | cons c l ih =>
    rw [List.mem_cons, not_or] at hLine
    rw [dropLine, List.cons_append, List.dropWhile_cons_of_pos (by simpa using Ne.symm hLine.1)]
    exact ih hLine.2

/-- or to the end of the text. -/
theorem dropLine_last {l : List α} (hLine : nl ∉ l) : dropLine nl l = [] := by
  induction l with
  | nil => rfl
  | cons c l ih =>
    rw [List.mem_cons, not_or] at hLine
    rw [dropLine, List.dropWhile_cons_of_pos (by simpa using Ne.symm hLine.1)]
    exact ih hLine.2

/-- What is left is the end of the text. -/
theorem dropLine_suffix (nl : α) (s : List α) : dropLine nl s <:+ s :=
  (List.drop_suffix 1 _).trans (List.dropWhile_suffix _)

/-- The lines of what is left behind the first line. -/
theorem lines_dropLine (nl : α) (s : List α) : lines nl (dropLine nl s) = (lines nl s).drop 1 := by
  rcases lines_cases nl s with rfl | ⟨hne, hOut⟩ | ⟨l, rest, rfl, hOut⟩
  · rfl
  · rw [dropLine_last hOut, lines_last hne hOut]
    rfl
  · rw [dropLine_line rest hOut, lines_line rest hOut]
    rfl

end EmbLinux
