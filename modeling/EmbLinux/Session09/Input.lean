import EmbLinux.Lib.Lines
import Mathlib.Algebra.Group.Int.Defs
import Mathlib.Algebra.Group.Nat.Defs

/-!
# EmbLinux — the input of `writer.c` and `controller.c`

The model of `clear_stdin` and `get_user_input`, which both programs have, on what is left of
`stdin`, and of the `atoi` of the writer. A string of C ends at its first `'\0'`, so a line
with this character in it is not seen to the end.

`errno` is not `EINTR` when `fgets` returns `NULL`: neither program handles a signal. What
`stdin` still has is read without errors, and a program sees its end once.

* `reads_iff` — what a program that calls `get_user_input` until the end of the input reads,
  for every buffer that has room for a character and whose size `fgets` takes as an `int`;
* `atoi_print` — `atoi` reads every `int` that `%d` prints.

The reading of a text with `'\0'` in it is `cString`; `kept_of_text` is the plain case.

## Results

* `getUserInput_line`, `getUserInput_last` — what one call gives for a line with and without an
  end, for a buffer that it fits or not.
* `kept_of_input`, `getUserInput_shorter` — what one call leaves of the text, and that it is less.
-/

namespace EmbLinux.Session09

-- ---------------------------------------------------------------------------
-- `get_user_input`
-- ---------------------------------------------------------------------------

/-- The character that ends a string. -/
def nul : Char := Char.ofNat 0

/-- At most `n` characters, up to and with the end of the line. -/
def readUpTo : Nat → List Char → List Char × List Char
  | 0, stdin => ([], stdin)
  | _ + 1, [] => ([], [])
  | n + 1, c :: stdin =>
    if c = '\n' then ([c], stdin)
    else ((c :: (readUpTo n stdin).1), (readUpTo n stdin).2)

/-- The buffer that `fgets` fills, and what it leaves; `none` is `NULL`. A buffer of one
character gets the empty string, whatever there is to read. -/
def fgets : Nat → List Char → Option (List Char × List Char)
  | 0, _ => none
  | 1, stdin => some ([], stdin)
  | size + 2, stdin => if stdin.isEmpty then none else some (readUpTo (size + 1) stdin)

/-- The sizes with room for a character that are an `int`, as `fgets` takes them. -/
def IsSize (size : Nat) : Prop := 2 ≤ size ∧ size < 2 ^ 31

instance (size : Nat) : Decidable (IsSize size) := inferInstanceAs (Decidable (_ ∧ _))

/-- What `strlen` and `strcmp` see of a buffer. -/
def cString (buffer : List Char) : List Char :=
  buffer.takeWhile fun c => decide (c ≠ nul)

/-- `clear_stdin` -/
def clearStdin (stdin : List Char) : List Char :=
  dropLine '\n' stdin

/-- The end of the line is cut off, or looked for in what is left of `stdin`. -/
def cutEnd (buffer rest : List Char) : List Char × List Char :=
  if (cString buffer).getLast? = some '\n' then ((cString buffer).dropLast, rest)
  else (cString buffer, clearStdin rest)

/-- The input, and what is left of `stdin`; `none` is the result `-1`. -/
def getUserInput (size : Nat) (stdin : List Char) : Option (List Char × List Char) :=
  (fgets size stdin).map fun read => cutEnd read.1 read.2

/-- The inputs of a program that asks until there is no input left. -/
inductive Reads (size : Nat) : List Char → List (List Char) → Prop
  | done {stdin : List Char} (hEnd : getUserInput size stdin = none) : Reads size stdin []
  | next {stdin rest : List Char} {input : List Char} {inputs : List (List Char)}
      (hInput : getUserInput size stdin = some (input, rest)) (hRest : Reads size rest inputs) :
      Reads size stdin (input :: inputs)

/-- What `get_user_input` makes of a line. -/
def cut (size : Nat) (line : List Char) : List Char :=
  cString (line.take (size - 1))

/-- The end of the line is in the buffer, and not in the string. -/
def Swallows (size : Nat) (line : List Char) : Prop :=
  line.length < size - 1 ∧ nul ∈ line

instance (size : Nat) (line : List Char) : Decidable (Swallows size line) :=
  inferInstanceAs (Decidable (_ ∧ _))

/-- The lines that a program sees: one with a `'\0'` that fits into the buffer takes the next
one with it. -/
def kept (size : Nat) : List (List Char) → List (List Char)
  | [] => []
  | [line] => [cut size line]
  | line :: next :: rest =>
    cut size line :: if Swallows size line then kept size rest else kept size (next :: rest)

variable {size : Nat} {line stdin : List Char}

/-- A buffer with room for a character reads some, -/
theorem fgets_of_isSize (hSize : IsSize size) (hSome : stdin ≠ []) :
    fgets size stdin = some (readUpTo (size - 1) stdin) := by
  obtain ⟨n, rfl⟩ : ∃ n, size = n + 2 := ⟨size - 2, by have hLe := hSize.1; omega⟩
  rw [fgets, if_neg (by simpa using hSome)]
  rfl

/-- and nothing at the end of the file. -/
theorem fgets_end (hSize : IsSize size) : fgets size [] = none := by
  obtain ⟨n, rfl⟩ : ∃ n, size = n + 2 := ⟨size - 2, by have hLe := hSize.1; omega⟩
  rfl

/-- A line is read to its end if there is room for it, -/
theorem readUpTo_line (n : Nat) (stdin : List Char) (hLine : '\n' ∉ line) :
    readUpTo n (line ++ '\n' :: stdin) =
      if line.length < n then (line ++ ['\n'], stdin)
      else (line.take n, line.drop n ++ '\n' :: stdin) := by
  induction line generalizing n with
  | nil => cases n <;> rfl
  | cons c line ih =>
    rw [List.mem_cons, not_or] at hLine
    cases n with
    | zero => rfl
    | succ n =>
      rw [List.cons_append, readUpTo, if_neg (Ne.symm hLine.1), ih n hLine.2, List.length_cons]
      by_cases hFits : line.length < n
      · rw [if_pos hFits, if_pos (by omega)]
        rfl
      · rw [if_neg hFits, if_neg (by omega)]
        rfl

/-- and so is the rest of a file that does not end with a line. -/
theorem readUpTo_last (n : Nat) (hLine : '\n' ∉ line) :
    readUpTo n line = (line.take n, line.drop n) := by
  induction line generalizing n with
  | nil => cases n <;> rfl
  | cons c line ih =>
    rw [List.mem_cons, not_or] at hLine
    cases n with
    | zero => rfl
    | succ n => rw [readUpTo, if_neg (Ne.symm hLine.1), ih n hLine.2, List.take, List.drop]

/-- A string has the characters of its buffer, -/
theorem cString_subset (buffer : List Char) : cString buffer ⊆ buffer :=
  (List.takeWhile_sublist _).subset

/-- all of them if there is no `'\0'`, -/
theorem cString_of_not_mem {buffer : List Char} (h : nul ∉ buffer) : cString buffer = buffer := by
  refine List.takeWhile_eq_self_iff.mpr ?_
  intro c hc
  rw [decide_eq_true_eq]
  rintro rfl
  exact h hc

/-- and none behind the first. -/
theorem cString_append {buffer : List Char} (rest : List Char) (h : nul ∈ buffer) :
    cString (buffer ++ rest) = cString buffer := by
  induction buffer with
  | nil => cases h
  | cons c buffer ih =>
    by_cases hc : c = nul
    · simp [cString, hc]
    · have hMem := (List.mem_cons.mp h).resolve_left (Ne.symm hc)
      have hTail := ih hMem
      unfold cString at hTail ⊢
      rw [List.cons_append, List.takeWhile_cons_of_pos (by simpa using hc),
        List.takeWhile_cons_of_pos (by simpa using hc), hTail]

/-- A string without an end of line in it. -/
theorem getLast_ne {s : List Char} (h : '\n' ∉ s) : s.getLast? ≠ some '\n' :=
  fun hLast => h (List.mem_of_getLast? hLast)

/-- **One line of input.** -/
theorem getUserInput_line (hSize : IsSize size) (stdin : List Char) (hLine : '\n' ∉ line) :
    getUserInput size (line ++ '\n' :: stdin) =
      some (cut size line, if Swallows size line then clearStdin stdin else stdin) := by
  have hNot : '\n' ∉ cString (line.take (size - 1)) :=
    fun hMem => hLine (List.mem_of_mem_take (cString_subset _ hMem))
  have hGets : fgets size (line ++ '\n' :: stdin) =
      some (readUpTo (size - 1) (line ++ '\n' :: stdin)) := fgets_of_isSize hSize (by simp)
  rw [getUserInput, hGets, readUpTo_line _ _ hLine, Option.map_some]
  unfold cut cutEnd
  by_cases hFits : line.length < size - 1
  · have hTake : line.take (size - 1) = line := List.take_of_length_le (by omega)
    rw [hTake] at hNot ⊢
    simp only [if_pos hFits]
    by_cases hNul : nul ∈ line
    · rw [cString_append _ hNul, if_neg (getLast_ne hNot),
        if_pos (show Swallows size line from ⟨hFits, hNul⟩)]
    · have hNulNot : nul ∉ line ++ ['\n'] := by
        simp only [List.mem_append, List.mem_singleton, not_or]
        exact ⟨hNul, by decide⟩
      rw [cString_of_not_mem hNulNot, cString_of_not_mem hNul, List.getLast?_concat, if_pos rfl,
        List.dropLast_concat, if_neg fun h : Swallows size line => hNul h.2]
  · simp only [if_neg hFits]
    have hRest : clearStdin (line.drop (size - 1) ++ '\n' :: stdin) = stdin :=
      dropLine_line _ fun hMem => hLine (List.mem_of_mem_drop hMem)
    rw [if_neg (getLast_ne hNot), hRest, if_neg fun h : Swallows size line => hFits h.1]

/-- A last line that has no end. -/
theorem getUserInput_last (hSize : IsSize size) (hne : line ≠ []) (hLine : '\n' ∉ line) :
    getUserInput size line = some (cut size line, []) := by
  have hNot : '\n' ∉ cString (line.take (size - 1)) :=
    fun hMem => hLine (List.mem_of_mem_take (cString_subset _ hMem))
  have hRest : clearStdin (line.drop (size - 1)) = [] :=
    dropLine_last fun hMem => hLine (List.mem_of_mem_drop hMem)
  rw [getUserInput, fgets_of_isSize hSize hne, readUpTo_last _ hLine, Option.map_some,
    cutEnd, if_neg (getLast_ne hNot), hRest]
  rfl

/-- One line is kept, and perhaps the next one swallowed. -/
theorem kept_line (line : List Char) (rest : List (List Char)) :
    kept size (line :: rest) =
      cut size line :: kept size (if Swallows size line then rest.drop 1 else rest) := by
  cases rest with
  | nil =>
    rw [kept]
    split <;> rfl
  | cons next rest =>
    rw [kept]
    split <;> rfl

/-- Nothing is read at the end, and nothing was to be kept. -/
theorem kept_of_end (hSize : IsSize size) (hEnd : getUserInput size stdin = none) :
    kept size (lines '\n' stdin) = [] := by
  rcases lines_cases '\n' stdin with rfl | ⟨hne, hLine⟩ | ⟨line, rest, rfl, hLine⟩
  · rfl
  · rw [getUserInput_last hSize hne hLine] at hEnd
    cases hEnd
  · rw [getUserInput_line hSize _ hLine] at hEnd
    cases hEnd

/-- What is read, and what is read of what is left. -/
theorem kept_of_input (hSize : IsSize size) {input rest : List Char}
    (hInput : getUserInput size stdin = some (input, rest)) :
    kept size (lines '\n' stdin) = input :: kept size (lines '\n' rest) := by
  rcases lines_cases '\n' stdin with rfl | ⟨hne, hLine⟩ | ⟨line, after, rfl, hLine⟩
  · rw [getUserInput, fgets_end hSize] at hInput
    cases hInput
  · rw [getUserInput_last hSize hne hLine] at hInput
    cases hInput
    rw [lines_last hne hLine]
    rfl
  · rw [getUserInput_line hSize _ hLine] at hInput
    cases hInput
    rw [lines_line _ hLine, kept_line]
    congr 2
    split
    · rw [clearStdin, lines_dropLine]
    · rfl

/-- Each input uses up some of the text. -/
theorem getUserInput_shorter (hSize : IsSize size) {input rest : List Char}
    (hInput : getUserInput size stdin = some (input, rest)) : rest.length < stdin.length := by
  rcases lines_cases '\n' stdin with rfl | ⟨hne, hLine⟩ | ⟨line, after, rfl, hLine⟩
  · rw [getUserInput, fgets_end hSize] at hInput
    cases hInput
  · rw [getUserInput_last hSize hne hLine] at hInput
    cases hInput
    exact List.length_pos_iff.mpr hne
  · rw [getUserInput_line hSize _ hLine] at hInput
    cases hInput
    have hLe : (if Swallows size line then clearStdin after else after).length ≤ after.length := by
      split
      · exact (dropLine_suffix '\n' after).length_le
      · exact Nat.le_refl _
    rw [List.length_append, List.length_cons]
    omega

/-- **What is read of a text**: its lines, each cut to the size of the buffer and at its first
`'\0'`, without the lines that such a line swallows. The text is any, with or without an end of
line at its end; `IsSize` excludes the buffers that have no room for a character, and reading
errors are excluded. -/
theorem reads_iff (hSize : IsSize size) (stdin : List Char) (inputs : List (List Char)) :
    Reads size stdin inputs ↔ inputs = kept size (lines '\n' stdin) := by
  constructor
  · intro h
    induction h with
    | done hEnd => exact (kept_of_end hSize hEnd).symm
    | next hInput _ ih => rw [kept_of_input hSize hInput, ih]
  · rintro rfl
    induction hLength : stdin.length using Nat.strong_induction_on generalizing stdin with
    | _ n ih =>
      subst hLength
      cases hInput : getUserInput size stdin with
      | none =>
        rw [kept_of_end hSize hInput]
        exact .done hInput
      | some read =>
        rw [kept_of_input hSize hInput]
        exact .next hInput (ih _ (getUserInput_shorter hSize hInput) _ rfl)

/-- A buffer of four characters, a line that does not fit and one with a `'\0'`. -/
theorem reads_iff_four : Reads 4 ['a', '\n', 'b', 'c', 'd', 'e', '\n', 'f', nul, '\n', 'g', '\n']
    [['a'], ['b', 'c', 'd'], ['f']] :=
  (reads_iff (by decide) _ _).mpr (by decide +kernel)

/-- A text without `'\0'` is read line by line. -/
theorem kept_of_text {ls : List (List Char)} (hNul : ∀ line ∈ ls, nul ∉ line) :
    kept size ls = ls.map fun line => line.take (size - 1) := by
  induction ls with
  | nil => rfl
  | cons line rest ih =>
    have hCut : cut size line = line.take (size - 1) :=
      cString_of_not_mem fun hMem => hNul line List.mem_cons_self (List.mem_of_mem_take hMem)
    rw [kept_line, hCut, if_neg fun h : Swallows size line => hNul line List.mem_cons_self h.2,
      ih fun l hl => hNul l (List.mem_cons_of_mem _ hl), List.map_cons]

-- ---------------------------------------------------------------------------
-- `atoi`
-- ---------------------------------------------------------------------------

/-- The characters that `atoi` passes over. -/
def isSpace (c : Char) : Bool :=
  c = ' ' || c = '\t' || c = '\n' || c = Char.ofNat 11 || c = Char.ofNat 12 || c = '\r'

/-- The values of an `int`. -/
def IsInt (v : Int) : Prop := -2 ^ 31 ≤ v ∧ v < 2 ^ 31

instance (v : Int) : Decidable (IsInt v) := inferInstanceAs (Decidable (_ ∧ _))

/-- The digits at the beginning of a string as a number. -/
def digits (s : List Char) : Int :=
  Nat.ofDigitChars 10 (s.takeWhile Char.isDigit) 0

/-- The number at the front of a string. -/
def number (s : List Char) : Int :=
  if s.head? = some '-' then - digits s.tail
  else if s.head? = some '+' then digits s.tail
  else digits s

/-- What `atoi` returns for a number that is no `int` is not defined: `undefined` is any
choice. -/
def atoi (undefined : Int → Int) (s : List Char) : Int :=
  let v := number (s.dropWhile isSpace)
  if IsInt v then v else undefined v

/-- What `%d` prints. -/
def print : Int → List Char
  | .ofNat n => Nat.toDigits 10 n
  | .negSucc n => '-' :: Nat.toDigits 10 (n + 1)

/-- The digits of a number give the number back. -/
theorem digits_toDigits (n : Nat) : digits (Nat.toDigits 10 n) = n := by
  have hAll : (Nat.toDigits 10 n).takeWhile Char.isDigit = Nat.toDigits 10 n :=
    List.takeWhile_eq_self_iff.mpr fun c hc =>
      Nat.isDigit_of_mem_toDigits (by decide) (by decide) hc
  rw [digits, hAll, Nat.ofDigitChars_toDigits (by decide) (by decide)]

/-- A digit is no white space, -/
theorem isSpace_of_digit {c : Char} (h : c.isDigit = true) : isSpace c = false := by
  by_contra hSpace
  simp only [isSpace, Bool.or_eq_true, decide_eq_true_eq, Bool.not_eq_false] at hSpace
  rcases hSpace with ((((rfl | rfl) | rfl) | rfl) | rfl) | rfl <;> simp at h

/-- and a number begins with one. -/
theorem toDigits_cons (n : Nat) :
    ∃ c rest, Nat.toDigits 10 n = c :: rest ∧ c.isDigit = true := by
  have hDigits : ∀ c ∈ Nat.toDigits 10 n, c.isDigit = true :=
    fun c hc => Nat.isDigit_of_mem_toDigits (by decide) (by decide) hc
  cases hs : Nat.toDigits 10 n with
  | nil => exact absurd hs (List.ne_nil_of_length_pos Nat.length_toDigits_pos)
  | cons c rest => exact ⟨c, rest, rfl, hDigits c (by rw [hs]; exact List.mem_cons_self)⟩

/-- **`atoi` reads what `%d` prints**, for every `int`. -/
theorem atoi_print (undefined : Int → Int) {v : Int} (hInt : IsInt v) :
    atoi undefined (print v) = v := by
  have hNumber : number ((print v).dropWhile isSpace) = v := by
    cases v with
    | ofNat n =>
      obtain ⟨c, rest, hs, hc⟩ := toDigits_cons n
      have hMinus : c ≠ '-' := by
        rintro rfl
        simp at hc
      have hPlus : c ≠ '+' := by
        rintro rfl
        simp at hc
      rw [print, hs, List.dropWhile_cons_of_neg (by simp [isSpace_of_digit hc]), number,
        if_neg (by simpa using hMinus), if_neg (by simpa using hPlus), ← hs, digits_toDigits]
      rfl
    | negSucc n =>
      rw [print, List.dropWhile_cons_of_neg (by decide), number, List.head?_cons, if_pos rfl,
        List.tail_cons, digits_toDigits]
      rfl
  rw [atoi, hNumber, if_pos hInt]

end EmbLinux.Session09
