import EmbLinux.Lib.ForkJoin
import Mathlib.Data.Fintype.Basic

/-!
# EmbLinux — `parallel_for_each` with `std::async`

The recursive `parallel_for_each` on the positions of a range. The function gets the element
by reference: it gives the element as it leaves it, and an exception or none. `launch` gives
the exception of `std::async` when it cannot start a thread for a part. An empty range is a
loop that ends at once. `called` lists the positions for which the function was called; no
step reads it.

What is excluded: a function whose calls for different elements depend on each other, since
every thread has its own copy of `f` and the elements are handed out one at a time.

* `visits` — the call on one thread, a half after the other: the positions that its loops
  come to before they end or an exception stops them, and the exception of the call;
* `parallel_for_each_async_contract` — in every interleaving no element is handled twice, the
  call ends as `visits` says and the elements handled are those of `visits`.
-/

namespace EmbLinux.DesignConcurrentCode.ParallelForEachAsync

-- ---------------------------------------------------------------------------
-- The algorithm
-- ---------------------------------------------------------------------------

/-- The positions from `first` up to `last`. -/
structure Part where
  first : Nat
  last : Nat
  le : first ≤ last
  deriving DecidableEq

/-- The elements, and the ones that `f` was called with so far, in the order of the calls. -/
structure Elements (α : Type*) where
  range : Nat → α
  called : List Nat

/-- `min_per_thread` -/
def minPerThread : Nat := 25

variable {α ε : Type*}

/-- One call of `f` in `std::for_each`. -/
def forEach (f : α → α × Option ε) (s : Elements α) (p : Part) :
    Elements α × (Part ⊕ Except ε Unit) :=
  if hEnd : p.first = p.last then (s, .inr (.ok ()))
  else
    let (element, thrown) := f (s.range p.first)
    let s' := ⟨Function.update s.range p.first element, p.first :: s.called⟩
    match thrown with
    | none => (s', .inl ⟨p.first + 1, p.last, Nat.lt_of_le_of_ne p.le hEnd⟩)
    | some e => (s', .inr (.error e))

/-- The halves of a part. -/
def Part.lower (p : Part) : Part :=
  have hLe := p.le
  ⟨p.first, p.first + (p.last - p.first) / 2, by omega⟩

/-- The upper half, which the calling thread takes. -/
def Part.upper (p : Part) : Part :=
  have hLe := p.le
  ⟨p.first + (p.last - p.first) / 2, p.last, by omega⟩

/-- `parallel_for_each` as a fork and join. -/
def parallelForEach (f : α → α × Option ε) (launch : Part → Option ε) :
    ForkJoin Part Part Unit ε (Elements α) where
  fork p :=
    let length := p.last - p.first
    if length < 2 * minPerThread then none
    else some (p.lower, p.upper)
  launch := launch
  start p := p
  next := forEach f
  join _ _ := ()

variable {f : α → α × Option ε} {launch : Part → Option ε}

/-- A call forks into its two halves, -/
theorem fork_some {p async direct : Part}
    (h : (parallelForEach f launch).fork p = some (async, direct)) :
    ¬ p.last - p.first < 2 * minPerThread ∧ async = p.lower ∧ direct = p.upper := by
  unfold parallelForEach at h
  by_cases hShort : p.last - p.first < 2 * minPerThread
  · simp [hShort] at h
  · simp only [hShort, if_false, Option.some.injEq, Prod.mk.injEq] at h
    exact ⟨hShort, h.1.symm, h.2.symm⟩

/-- unless it has fewer than 50 elements. -/
theorem fork_none {p : Part} (h : (parallelForEach f launch).fork p = none) :
    p.last - p.first < 2 * minPerThread := by
  unfold parallelForEach at h
  by_cases hShort : p.last - p.first < 2 * minPerThread
  · exact hShort
  · simp [hShort] at h

-- ---------------------------------------------------------------------------
-- The call on one thread
-- ---------------------------------------------------------------------------

/-- `std::for_each` on `length` elements from `first`: the positions it comes to, the last of
them that of the exception, and how it ends. -/
def loopVisits (f : α → α × Option ε) (range : Nat → α) :
    Nat → Nat → List Nat × Except ε Unit
  | _, 0 => ([], .ok ())
  | first, length + 1 =>
    match (f (range first)).2 with
    | some e => ([first], .error e)
    | none =>
      let (rest, result) := loopVisits f range (first + 1) length
      (first :: rest, result)

/-- The call on one thread. When no thread can be started for the lower half, neither half is
visited; otherwise both are, and the exception of the upper half comes first. -/
def visits (f : α → α × Option ε) (launch : Part → Option ε) (range : Nat → α) (p : Part) :
    List Nat × Except ε Unit :=
  if _hShort : p.last - p.first < 2 * minPerThread then
    loopVisits f range p.first (p.last - p.first)
  else
    match launch p with
    | some e => ([], .error e)
    | none =>
      let async := visits f launch range p.lower
      let direct := visits f launch range p.upper
      (async.1 ++ direct.1, (parallelForEach f launch).joined async.2 direct.2)
termination_by p.last - p.first
decreasing_by
  all_goals
    have hLe := p.le
    simp only [Part.lower, Part.upper]
    unfold minPerThread at _hShort
    omega

variable {range : Nat → α}

/-- A short range is visited by one loop. -/
theorem visits_short {p : Part} (h : p.last - p.first < 2 * minPerThread) :
    visits f launch range p = loopVisits f range p.first (p.last - p.first) := by
  rw [visits, dif_pos h]

/-- A long range whose thread cannot be started is not visited at all, -/
theorem visits_of_not_launched {p : Part} {e : ε} (h : ¬ p.last - p.first < 2 * minPerThread)
    (hLaunch : launch p = some e) : visits f launch range p = ([], .error e) := by
  rw [visits, dif_neg h, hLaunch]

/-- and any other long range half by half. -/
theorem visits_split {p : Part} (h : ¬ p.last - p.first < 2 * minPerThread)
    (hLaunch : launch p = none) :
    visits f launch range p =
      ((visits f launch range p.lower).1 ++ (visits f launch range p.upper).1,
        (parallelForEach f launch).joined (visits f launch range p.lower).2
          (visits f launch range p.upper).2) := by
  rw [visits, dif_neg h, hLaunch]

/-- A loop comes to positions of its part only. -/
theorem mem_loopVisits {first length i : Nat} (h : i ∈ (loopVisits f range first length).1) :
    first ≤ i ∧ i < first + length := by
  induction length generalizing first with
  | zero => simp [loopVisits] at h
  | succ length ih =>
    unfold loopVisits at h
    split at h
    · obtain rfl := List.mem_singleton.mp h
      omega
    · rcases List.mem_cons.mp h with rfl | hRest
      · omega
      · have hIn := ih hRest
        omega

/-- A loop that returns has come to every position, and none of them threw. -/
theorem loopVisits_ok {first length : Nat} (h : (loopVisits f range first length).2 = .ok ())
    {i : Nat} (hLow : first ≤ i) (hHigh : i < first + length) :
    i ∈ (loopVisits f range first length).1 ∧ (f (range i)).2 = none := by
  induction length generalizing first with
  | zero => omega
  | succ length ih =>
    unfold loopVisits at h ⊢
    split at h
    · simp at h
    · next hQuiet =>
      rcases Nat.lt_or_eq_of_le hLow with hLess | rfl
      · obtain ⟨hMem, hNone⟩ := ih h hLess (by omega)
        exact ⟨List.mem_cons_of_mem _ hMem, hNone⟩
      · exact ⟨List.mem_cons_self, hQuiet⟩

/-- A loop without exceptions ends well. -/
theorem loopVisits_quiet {first length : Nat}
    (h : ∀ i, first ≤ i → i < first + length → (f (range i)).2 = none) :
    (loopVisits f range first length).2 = .ok () := by
  induction length generalizing first with
  | zero => rfl
  | succ length ih =>
    unfold loopVisits
    rw [h first (Nat.le_refl _) (by omega)]
    exact ih fun i hi hi' => h i (by omega) (by omega)

/-- Two results without an exception. -/
theorem joined_ok {async direct : Except ε Unit}
    (h : (parallelForEach f launch).joined async direct = .ok ()) :
    async = .ok () ∧ direct = .ok () := by
  cases async <;> cases direct <;> simp_all [ForkJoin.joined]

/-- A call that returns has come to every position, and none of them threw. -/
theorem visits_ok {p : Part} (h : (visits f launch range p).2 = .ok ()) {i : Nat}
    (hLow : p.first ≤ i) (hHigh : i < p.last) :
    i ∈ (visits f launch range p).1 ∧ (f (range i)).2 = none := by
  induction p using visits.induct f launch range with
  | case1 p hShort =>
    rw [visits_short hShort] at h ⊢
    exact loopVisits_ok h hLow (by omega)
  | case2 p hLong e hLaunch =>
    rw [visits_of_not_launched hLong hLaunch] at h
    simp at h
  | case3 p hLong hLaunch ihLower ihUpper =>
    rw [visits_split hLong hLaunch] at h ⊢
    obtain ⟨hLower, hUpper⟩ := joined_ok h
    rcases Nat.lt_or_ge i p.lower.last with hLess | hGreater
    · obtain ⟨hMem, hNone⟩ := ihLower hLower hLow hLess
      exact ⟨List.mem_append_left _ hMem, hNone⟩
    · obtain ⟨hMem, hNone⟩ := ihUpper hUpper hGreater hHigh
      exact ⟨List.mem_append_right _ hMem, hNone⟩

/-- A call comes to positions of its part only. -/
theorem mem_visits {p : Part} {i : Nat} (h : i ∈ (visits f launch range p).1) :
    p.first ≤ i ∧ i < p.last := by
  have hLe := p.le
  induction p using visits.induct f launch range with
  | case1 p hShort =>
    rw [visits_short hShort] at h
    have hIn := mem_loopVisits h
    omega
  | case2 p hLong e hLaunch =>
    rw [visits_of_not_launched hLong hLaunch] at h
    simp at h
  | case3 p hLong hLaunch ihLower ihUpper =>
    rw [visits_split hLong hLaunch, List.mem_append] at h
    rcases h with hLower | hUpper
    · obtain ⟨hLow, hHigh⟩ := ihLower hLower p.lower.le
      simp only [Part.lower] at hLow hHigh
      omega
    · obtain ⟨hLow, hHigh⟩ := ihUpper hUpper p.upper.le
      simp only [Part.upper] at hLow hHigh
      omega

/-- Without an exception, of `f` or of `std::async`, the call returns. -/
theorem visits_quiet {p : Part}
    (h : ∀ i, p.first ≤ i → i < p.last → (f (range i)).2 = none)
    (hLaunch : ∀ q, (parallelForEach f launch).Below p q → launch q = none) :
    (visits f launch range p).2 = .ok () := by
  induction p using visits.induct f launch range with
  | case1 p hShort =>
    rw [visits_short hShort]
    exact loopVisits_quiet fun i hi hi' => h i hi (by omega)
  | case2 p hLong e hThrew => simp [hLaunch p .refl] at hThrew
  | case3 p hLong hNone ihLower ihUpper =>
    have hFork : (parallelForEach f launch).fork p = some (p.lower, p.upper) := if_neg hLong
    have hLe := p.le
    rw [visits_split hLong hNone, ihLower, ihUpper]
    · rfl
    · intro i (hi : p.first + (p.last - p.first) / 2 ≤ i) hi'
      exact h i (by omega) hi'
    · exact fun q hBelow => hLaunch q (.of_direct hFork hNone hBelow)
    · intro i hi (hi' : i < p.first + (p.last - p.first) / 2)
      exact h i hi (by omega)
    · exact fun q hBelow => hLaunch q (.of_async hFork hNone hBelow)

-- ---------------------------------------------------------------------------
-- The assertions
-- ---------------------------------------------------------------------------

variable {s : Elements α} {p : Part}

/-- A call for a part has ended as on one thread, and has come to the same positions. -/
structure Ended (f : α → α × Option ε) (launch : Part → Option ε) (range : Nat → α) (p : Part)
    (s : Elements α) (r : Except ε Unit) : Prop where
  result : r = (visits f launch range p).2
  visited : ∀ i, p.first ≤ i → i < p.last →
    (i ∈ s.called ↔ i ∈ (visits f launch range p).1)

/-- Before a call for a part. -/
structure Untouched (first last : Nat) (p : Part) (s : Elements α) : Prop where
  order : first ≤ p.first ∧ p.last ≤ last
  fresh : ∀ i, p.first ≤ i → i < p.last → i ∉ s.called

/-- In the loop, at the first position of `b`. -/
structure Looping (f : α → α × Option ε) (range : Nat → α) (first last : Nat) (p : Part)
    (s : Elements α) (b : Part) : Prop where
  order : first ≤ p.first ∧ p.first ≤ b.first ∧ b.last = p.last ∧ p.last ≤ last
  short : p.last - p.first < 2 * minPerThread
  /-- What the loop has come to, and what it will. -/
  rest : ∀ i, (i ∈ (loopVisits f range p.first (p.last - p.first)).1 ↔
    p.first ≤ i ∧ i < b.first ∨ i ∈ (loopVisits f range b.first (b.last - b.first)).1)
  result : (loopVisits f range p.first (p.last - p.first)).2 =
    (loopVisits f range b.first (b.last - b.first)).2
  handled : ∀ i, p.first ≤ i → i < b.first → i ∈ s.called
  fresh : ∀ i, b.first ≤ i → i < p.last → i ∉ s.called

/-- What holds of the elements at all times. -/
structure Inv (f : α → α × Option ε) (range : Nat → α) (first last : Nat) (s : Elements α) :
    Prop where
  /-- No element is handled twice. -/
  once : s.called.Nodup
  inside : ∀ i ∈ s.called, first ≤ i ∧ i < last
  handled : ∀ i ∈ s.called, s.range i = (f (range i)).1
  others : ∀ i, i ∉ s.called → s.range i = range i

/-- The parts have no position in common. -/
def Part.Apart (p q : Part) : Prop :=
  p.last ≤ q.first ∨ q.last ≤ p.first

-- ---------------------------------------------------------------------------
-- One call of `f`
-- ---------------------------------------------------------------------------

variable {first last : Nat} {b : Part}

/-- The loop is over, or `f` is called for its first element. -/
theorem forEach_cases (f : α → α × Option ε) (s : Elements α) (b : Part) :
    b.first = b.last ∧ forEach f s b = (s, .inr (.ok ())) ∨
      b.first ≠ b.last ∧
        (forEach f s b).1 = ⟨Function.update s.range b.first (f (s.range b.first)).1,
          b.first :: s.called⟩ ∧
        ((f (s.range b.first)).2 = none ∧
            (∃ b', (forEach f s b).2 = .inl b' ∧ b'.first = b.first + 1 ∧ b'.last = b.last) ∨
          ∃ e, (f (s.range b.first)).2 = some e ∧ (forEach f s b).2 = .inr (.error e)) := by
  unfold forEach
  by_cases hEnd : b.first = b.last
  · exact Or.inl ⟨hEnd, by rw [dif_pos hEnd]⟩
  · rw [dif_neg hEnd]
    refine Or.inr ⟨hEnd, ?_⟩
    cases hThrown : (f (s.range b.first)).2 with
    | none =>
      exact ⟨by simp [hThrown], Or.inl ⟨rfl, ⟨b.first + 1, b.last, Nat.lt_of_le_of_ne b.le hEnd⟩,
        by simp only [hThrown], rfl, rfl⟩⟩
    | some e => exact ⟨by simp [hThrown], Or.inr ⟨e, rfl, by simp [hThrown]⟩⟩

/-- What was called stays called, and a step of a loop calls `f` for an element of its part
at most. -/
theorem called_forEach (f : α → α × Option ε) (s : Elements α) (b : Part) (i : Nat) :
    i ∈ (forEach f s b).1.called ↔ i ∈ s.called ∨ b.first ≠ b.last ∧ i = b.first := by
  rcases forEach_cases f s b with ⟨hEnd, hEq⟩ | ⟨hMore, hElements, -⟩
  · simp [hEq, hEnd]
  · simp [hElements, hMore, or_comm]

/-- An iteration calls `f` with the next element, which was not visited before. -/
theorem Looping.inv (h : Looping f range first last p s b) (hInv : Inv f range first last s) :
    Inv f range first last (forEach f s b).1 := by
  rcases forEach_cases f s b with ⟨-, hEq⟩ | ⟨hMore, hElements, -⟩
  · rw [hEq]
    exact hInv
  · obtain ⟨hFirst, hLow, hLast, hIn⟩ := h.order
    have hHigh := b.le
    have hFresh := h.fresh b.first (Nat.le_refl _) (by omega)
    rw [hElements, hInv.others b.first hFresh]
    refine ⟨List.nodup_cons.mpr ⟨hFresh, hInv.once⟩, ?_, ?_, ?_⟩
    · intro i hi
      rcases List.mem_cons.mp hi with rfl | hOld
      · omega
      · exact hInv.inside i hOld
    · intro i hi
      rcases List.mem_cons.mp hi with rfl | hOld
      · exact Function.update_self ..
      · rw [← hInv.handled i hOld]
        refine Function.update_of_ne ?_ ..
        rintro rfl
        exact hFresh hOld
    · intro i hi
      rw [List.mem_cons, not_or] at hi
      rw [← hInv.others i hi.2]
      exact Function.update_of_ne hi.1 ..

/-- The loop goes on. -/
theorem Looping.again (h : Looping f range first last p s b) (hInv : Inv f range first last s)
    {b' : Part} (hTurn : (forEach f s b).2 = .inl b') :
    Looping f range first last p (forEach f s b).1 b' := by
  obtain ⟨hFirst, hLow, hLast, hIn⟩ := h.order
  have hHigh := b.le
  have hCalled := called_forEach f s b
  rcases forEach_cases f s b with
    ⟨-, hEq⟩ | ⟨hMore, -, ⟨hQuiet, b₁, hNext, hBegin, hEnd⟩ | ⟨e, -, hNext⟩⟩
  · simp [hEq] at hTurn
  · rw [hNext] at hTurn
    obtain rfl := Sum.inl.inj hTurn
    rw [hInv.others b.first (h.fresh b.first (Nat.le_refl _) (by omega))] at hQuiet
    have hRest : loopVisits f range b.first (b.last - b.first) =
        (b.first :: (loopVisits f range b₁.first (b₁.last - b₁.first)).1,
          (loopVisits f range b₁.first (b₁.last - b₁.first)).2) := by
      obtain ⟨length, hLength⟩ : ∃ length, b.last - b.first = length + 1 :=
        ⟨b.last - b.first - 1, by omega⟩
      have hLeft : b₁.last - b₁.first = length := by omega
      rw [hLength, hLeft, hBegin, loopVisits, hQuiet]
    refine ⟨⟨hFirst, by omega, by omega, hIn⟩, h.short, ?_, ?_, ?_, ?_⟩
    · intro i
      rw [h.rest i, hRest, List.mem_cons, hBegin]
      constructor
      · rintro (hBefore | rfl | hMem)
        · exact Or.inl ⟨hBefore.1, by omega⟩
        · exact Or.inl ⟨hLow, Nat.lt_succ_self _⟩
        · exact Or.inr hMem
      · rintro (⟨hBefore, hLess⟩ | hMem)
        · rcases Nat.lt_or_eq_of_le (Nat.le_of_lt_succ hLess) with hLess' | rfl
          · exact Or.inl ⟨hBefore, hLess'⟩
          · exact Or.inr (Or.inl rfl)
        · exact Or.inr (Or.inr hMem)
    · rw [h.result, hRest]
    · intro i hi hi'
      rw [hBegin] at hi'
      rw [hCalled i]
      rcases Nat.lt_or_eq_of_le (Nat.le_of_lt_succ hi') with hLess | rfl
      · exact Or.inl (h.handled i hi hLess)
      · exact Or.inr ⟨hMore, rfl⟩
    · intro i hi hi'
      rw [hBegin] at hi
      rw [hCalled i, not_or, not_and]
      exact ⟨h.fresh i (by omega) hi', fun _ => by omega⟩
  · simp [hNext] at hTurn

/-- The loop ends. -/
theorem Looping.ends (h : Looping f range first last p s b) (hInv : Inv f range first last s)
    {r : Except ε Unit} (hTurn : (forEach f s b).2 = .inr r) :
    Ended f launch range p (forEach f s b).1 r := by
  obtain ⟨hFirst, hLow, hLast, hIn⟩ := h.order
  have hHigh := b.le
  have hCalled := called_forEach f s b
  have hVisits : visits f launch range p = _ := visits_short h.short
  rcases forEach_cases f s b with
    ⟨hEnd, hEq⟩ | ⟨hMore, -, ⟨-, b₁, hNext, -, -⟩ | ⟨e, hThrown, hNext⟩⟩
  · have hRest : loopVisits f range b.first (b.last - b.first) = ([], .ok ()) := by
      rw [hEnd, Nat.sub_self, loopVisits]
    rw [hEq] at hTurn ⊢
    obtain rfl := Sum.inr.inj hTurn
    refine ⟨by rw [hVisits, h.result, hRest], ?_⟩
    intro i hi hi'
    rw [hVisits, h.rest i, hRest]
    have hMem := h.handled i hi (by omega)
    simp only [hMem, true_iff]
    exact Or.inl ⟨hi, by omega⟩
  · simp [hNext] at hTurn
  · rw [hNext] at hTurn
    obtain rfl := Sum.inr.inj hTurn
    rw [hInv.others b.first (h.fresh b.first (Nat.le_refl _) (by omega))] at hThrown
    have hRest : loopVisits f range b.first (b.last - b.first) = ([b.first], .error e) := by
      obtain ⟨length, hLength⟩ : ∃ length, b.last - b.first = length + 1 :=
        ⟨b.last - b.first - 1, by omega⟩
      rw [hLength, loopVisits, hThrown]
    refine ⟨by rw [hVisits, h.result, hRest], ?_⟩
    intro i hi hi'
    rw [hVisits, h.rest i, hRest, hCalled i, List.mem_singleton]
    constructor
    · rintro (hOld | ⟨-, rfl⟩)
      · refine Or.inl ⟨hi, ?_⟩
        by_contra hNot
        exact h.fresh i (Nat.le_of_not_lt hNot) hi' hOld
      · exact Or.inr rfl
    · rintro (⟨-, hBefore⟩ | rfl)
      · exact Or.inl (h.handled i hi hBefore)
      · exact Or.inr ⟨hMore, rfl⟩

-- ---------------------------------------------------------------------------
-- Calls beside it
-- ---------------------------------------------------------------------------

/-- A step of a loop for a part that is apart calls `f` for no element of this one. -/
theorem Looping.called_iff {q : Part} (h : Looping f range first last q s b) (hApart : p.Apart q)
    {i : Nat} (hLow : p.first ≤ i) (hHigh : i < p.last) :
    i ∈ (forEach f s b).1.called ↔ i ∈ s.called := by
  obtain ⟨-, hFirst, hLast, -⟩ := h.order
  have hLe := b.le
  unfold Part.Apart at hApart
  rw [called_forEach]
  constructor
  · rintro (hOld | ⟨hMore, rfl⟩)
    · exact hOld
    · omega
  · exact Or.inl

variable {s' : Elements α}

/-- A range that nobody has begun is left alone by calls for other ranges, -/
theorem Untouched.frame (h : Untouched first last p s)
    (hSame : ∀ i, p.first ≤ i → i < p.last → (i ∈ s'.called ↔ i ∈ s.called)) :
    Untouched first last p s' := by
  refine ⟨h.order, ?_⟩
  intro i hi hi'
  rw [hSame i hi hi']
  exact h.fresh i hi hi'

/-- so is one in its loop, -/
theorem Looping.frame (h : Looping f range first last p s b)
    (hSame : ∀ i, p.first ≤ i → i < p.last → (i ∈ s'.called ↔ i ∈ s.called)) :
    Looping f range first last p s' b := by
  obtain ⟨hFirst, hLow, hLast, hIn⟩ := h.order
  have hHigh := b.le
  refine ⟨h.order, h.short, h.rest, h.result, ?_, ?_⟩
  · intro i hi hi'
    rw [hSame i hi (by omega)]
    exact h.handled i hi hi'
  · intro i hi hi'
    rw [hSame i (by omega) hi']
    exact h.fresh i hi hi'

/-- and one that has ended. -/
theorem Ended.frame {r : Except ε Unit} (h : Ended f launch range p s r)
    (hSame : ∀ i, p.first ≤ i → i < p.last → (i ∈ s'.called ↔ i ∈ s.called)) :
    Ended f launch range p s' r := by
  refine ⟨h.result, ?_⟩
  intro i hi hi'
  rw [hSame i hi hi']
  exact h.visited i hi hi'

/-- The ends of the two calls for the halves of a part. -/
theorem Ended.joined {async direct : Except ε Unit} (hLong : ¬ p.last - p.first < 2 * minPerThread)
    (hLaunch : launch p = none) (hAsync : Ended f launch range p.lower s async)
    (hDirect : Ended f launch range p.upper s direct) :
    Ended f launch range p s ((parallelForEach f launch).joined async direct) := by
  refine ⟨by rw [visits_split hLong hLaunch, hAsync.result, hDirect.result], ?_⟩
  intro i hi hi'
  rw [visits_split hLong hLaunch, List.mem_append]
  rcases Nat.lt_or_ge i p.lower.last with hLess | hGreater
  · rw [hAsync.visited i hi hLess]
    constructor
    · exact Or.inl
    · rintro (hLower | hUpper)
      · exact hLower
      · exact absurd (mem_visits hUpper).1 (Nat.not_le_of_lt hLess)
  · rw [hDirect.visited i hGreater hi']
    constructor
    · exact Or.inr
    · rintro (hLower | hUpper)
      · exact absurd (mem_visits hLower).2 (Nat.not_lt_of_le hGreater)
      · exact hUpper

/-- `std::async` throws: the call ends before it has touched an element. -/
theorem ended_of_not_launched {e : ε} (hLong : ¬ p.last - p.first < 2 * minPerThread)
    (hLaunch : launch p = some e) (hPre : Untouched first last p s) :
    Ended f launch range p s (.error e) := by
  refine ⟨by rw [visits_of_not_launched hLong hLaunch], ?_⟩
  intro i hi hi'
  rw [visits_of_not_launched hLong hLaunch]
  simp [hPre.fresh i hi hi']

/-- The assertions are an outline of the algorithm. -/
theorem outline (f : α → α × Option ε) (launch : Part → Option ε) (range : Nat → α)
    (first last : Nat) :
    ForkJoin.Outline (parallelForEach f launch) Part.Apart (Inv f range first last)
      (Untouched first last) (Looping f range first last) (Ended f launch range) where
  fork p async direct s hFork hPre := by
    obtain ⟨-, rfl, rfl⟩ := fork_some hFork
    obtain ⟨hFirst, hLast⟩ := hPre.order
    have hLe := p.le
    refine ⟨⟨⟨hFirst, ?_⟩, ?_⟩, ⟨?_, hLast⟩, ?_⟩
    · show p.first + (p.last - p.first) / 2 ≤ last
      omega
    · intro i hi (hi' : i < p.first + (p.last - p.first) / 2)
      exact hPre.fresh i hi (by omega)
    · show first ≤ p.first + (p.last - p.first) / 2
      omega
    · intro i (hi : p.first + (p.last - p.first) / 2 ≤ i) hi'
      exact hPre.fresh i (by omega) hi'
  launch p async direct s e hFork hLaunch hPre :=
    ended_of_not_launched (fork_some hFork).1 hLaunch hPre
  start p s hFork hPre := by
    obtain ⟨hFirst, hLast⟩ := hPre.order
    refine ⟨⟨hFirst, Nat.le_refl _, rfl, hLast⟩, fork_none hFork, ?_, rfl, ?_, hPre.fresh⟩
    · intro i
      have hNot : ¬ (p.first ≤ i ∧ i < p.first) := by omega
      exact ⟨Or.inr, fun h => h.resolve_left hNot⟩
    · intro i hi (hi' : i < p.first)
      omega
  again p s b b' hInv hLoop hTurn := hLoop.again hInv hTurn
  ends p s b r hInv hLoop hTurn := hLoop.ends hInv hTurn
  keeps p s b hInv hLoop := hLoop.inv hInv
  join p async direct s r r' hFork hLaunch hAsync hDirect := by
    obtain ⟨hLong, rfl, rfl⟩ := fork_some hFork
    exact Ended.joined hLong hLaunch hAsync hDirect
  apart_symm p q hApart := Or.symm hApart
  apart_fork p async direct hFork := by
    obtain ⟨-, rfl, rfl⟩ := fork_some hFork
    exact Or.inl (Nat.le_refl _)
  apart_below p q async direct hFork hApart := by
    obtain ⟨-, rfl, rfl⟩ := fork_some hFork
    have hLe := p.le
    simp only [Part.Apart, Part.lower, Part.upper] at hApart ⊢
    omega
  frame q p s b hApart hInv hLoop := by
    have hSame := fun i => hLoop.called_iff (i := i) hApart
    exact ⟨fun hPre => hPre.frame hSame, fun b' hOther => hOther.frame hSame,
      fun r hEnded => hEnded.frame hSame⟩

/-- A bound for the steps of a call for `length` elements. -/
def stepBound (length : Nat) : Nat := max 2 (5 * length - 2)

/-- The number of steps of a call is bounded by the length of its range. -/
theorem descent (f : α → α × Option ε) (launch : Part → Option ε) :
    ForkJoin.Descent (parallelForEach f launch) (fun p => stepBound (p.last - p.first))
      fun b => b.last - b.first where
  fork p async direct hFork := by
    obtain ⟨hLong, rfl, rfl⟩ := fork_some hFork
    have hLe := p.le
    simp only [stepBound, Part.lower, Part.upper, minPerThread] at *
    omega
  start p hFork := by
    simp only [parallelForEach, stepBound]
    omega
  next s b b' hTurn := by
    have hLe := b.le
    have hTurn' : (forEach f s b).2 = .inl b' := hTurn
    rcases forEach_cases f s b with
      ⟨-, hEq⟩ | ⟨hMore, -, ⟨-, b₁, hNext, hBegin, hEnd⟩ | ⟨e, -, hNext⟩⟩
    · simp [hEq] at hTurn'
    · rw [hNext] at hTurn'
      obtain rfl := Sum.inl.inj hTurn'
      omega
    · simp [hNext] at hTurn'

-- ---------------------------------------------------------------------------
-- The contract
-- ---------------------------------------------------------------------------

/-- `parallel_for_each(first, last, f)` on the elements `range`. -/
abbrev call (f : α → α × Option ε) (launch : Part → Option ε) (range : Nat → α) (p : Part) :
    System (Elements α × ForkJoin.Call Part Part Unit ε) (List ForkJoin.Branch) :=
  (parallelForEach f launch).system ⟨range, []⟩ p

/-- What the call promises in every state `x`. -/
structure Contract (f : α → α × Option ε) (launch : Part → Option ε) (range : Nat → α) (p : Part)
    (x : Elements α × ForkJoin.Call Part Part Unit ε) : Prop where
  /-- An element is as it was, or `f` has been called for it once. -/
  elements : Inv f range p.first p.last x.1
  /-- The call ends as on one thread: the same exception or none, and `f` was called for the
  same elements. -/
  result : ∀ r, x.2 = .finished r → r = (visits f launch range p).2 ∧
    ∀ i, i ∈ x.1.called ↔ i ∈ (visits f launch range p).1
  /-- A call that returns leaves the elements as `std::for_each` does. -/
  returned : x.2 = .finished (.ok ()) →
    ∀ i, x.1.range i = if p.first ≤ i ∧ i < p.last then (f (range i)).1 else range i
  /-- It returns when `f` throws for no element and every thread can be started. -/
  quiet : (∀ i, p.first ≤ i → i < p.last → (f (range i)).2 = none) →
    (∀ q, (parallelForEach f launch).Below p q → launch q = none) →
    ∀ r, x.2 = .finished r → r = .ok ()
  /-- The call can go on until it ends, and it cannot go on for long. -/
  ends : (∃ schedule s r, (call f launch range p).exec x schedule = some (s, .finished r)) ∧
    ∀ schedule y, (call f launch range p).exec x schedule = some y →
      schedule.length ≤ stepBound (p.last - p.first)

/-- **Every interleaving of `parallel_for_each` keeps the contract**, whichever calls of `f`
throw and whichever threads cannot be started. What the elements are compared with is `visits`,
the call on one thread; nothing is assumed of how far one thread is when another one throws. -/
theorem parallel_for_each_async_contract {x : Elements α × ForkJoin.Call Part Part Unit ε}
    (hx : (call f launch range p).Reachable x) : Contract f launch range p x := by
  have hInit : Inv f range p.first p.last ⟨range, []⟩ := by
    refine ⟨List.nodup_nil, ?_, ?_, fun i _ => rfl⟩ <;> simp
  obtain ⟨hInv, hOk⟩ := (outline f launch range p.first p.last).reachable hInit
    ⟨⟨Nat.le_refl _, Nat.le_refl _⟩, fun i _ _ => List.not_mem_nil⟩ hx
  have hEnded : ∀ r, x.2 = .finished r → Ended f launch range p x.1 r := by
    intro r hr
    rw [hr] at hOk
    exact hOk
  refine ⟨hInv, ?_, ?_, ?_, (descent f launch).exists_finished hx,
    fun _ _ => (descent f launch).length_le hx⟩
  · intro r hr
    refine ⟨(hEnded r hr).result, ?_⟩
    intro i
    constructor
    · intro hMem
      obtain ⟨hLow, hHigh⟩ := hInv.inside i hMem
      exact ((hEnded r hr).visited i hLow hHigh).mp hMem
    · intro hMem
      obtain ⟨hLow, hHigh⟩ := mem_visits hMem
      exact ((hEnded r hr).visited i hLow hHigh).mpr hMem
  · intro hr i
    have hVisits := (hEnded _ hr).result.symm
    split
    · next hIn =>
      have hMem := ((hEnded _ hr).visited i hIn.1 hIn.2).mpr (visits_ok hVisits hIn.1 hIn.2).1
      exact hInv.handled i hMem
    · next hOut => exact hInv.others i fun hMem => hOut (hInv.inside i hMem)
  · intro hQuiet hLaunch r hr
    rw [(hEnded r hr).result]
    exact visits_quiet hQuiet hLaunch

/-- Sixty elements in two parts; `f` throws for the elements 40 and 5. The exception of the
second part comes first, and the elements after it are skipped. -/
theorem parallel_for_each_async_contract_sixty :
    ∃ x : Elements Nat × ForkJoin.Call Part Part Unit Nat,
      x.2 = .finished (.error 40) ∧ x.1.called.length = 17 ∧
      Contract (fun n => (n + 100, if n = 5 ∨ n = 40 then some n else none)) (fun _ => none)
        (fun i => i) ⟨0, 60, by omega⟩ x := by
  obtain ⟨x, hx, hEnd, hCalled⟩ := System.exists_reachable_of_exec
    (S := call (fun n : Nat => (n + 100, if n = 5 ∨ n = 40 then some n else none))
      (fun _ => none) (fun i => i) ⟨0, 60, by omega⟩)
    (p := fun x => x.2 = .finished (.error 40) ∧ x.1.called.length = 17)
    (List.flatten [[[], [.async], [.direct]], List.replicate 6 [.async],
      List.replicate 11 [.direct], [[]]])
    (by decide +kernel)
  exact ⟨x, hEnd, hCalled, parallel_for_each_async_contract hx⟩

end EmbLinux.DesignConcurrentCode.ParallelForEachAsync
