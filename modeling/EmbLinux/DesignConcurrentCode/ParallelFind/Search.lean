import EmbLinux.DesignConcurrentCode.ParallelFind.Model
import Mathlib.Algebra.Group.Nat.Defs
import Mathlib.Data.Nat.Basic

/-!
# EmbLinux — what `parallel_find` finds

A leaf that is stopped by `done` comes back with its own end, as one that has found nothing
does. That is sound as whoever sets `done` has a match or an exception: `Sure` says that
a call will not come back with its end, and it goes from a call to those above it.

* `Call.Ok` — what a call has found out about its part of the range;
* `Moves.ok`, `Moves.sure` and `Moves.told` — what a step keeps, by induction on the way
  down to it;
* `parallel_find_contract` — the results of the whole call, and that it ends.

A comparison may throw, at any element, and it gives the same answer whenever it is asked;
nobody writes to the range during the call.
-/

namespace EmbLinux.DesignConcurrentCode.ParallelFind

variable {α ε : Type*} {equals : α → Except ε Bool} {range : Nat → α}

-- ---------------------------------------------------------------------------
-- The steps
-- ---------------------------------------------------------------------------

/-- What a step does to the call that is on top and to what the calls share. -/
inductive Moves (equals : α → Except ε Bool) (range : Nat → α) (shared : Shared) :
    Call ε → Shared → Call ε → Prop
  | loop {first last : Nat} (hShort : last - first < 2 * minPerThread) :
      Moves equals range shared (.enter first last) shared (.test first last)
  | split {first last : Nat} (hLong : 2 * minPerThread ≤ last - first) :
      Moves equals range shared (.enter first last) shared
        (.split (first + (last - first) / 2) (.enter first (first + (last - first) / 2))
          (.enter (first + (last - first) / 2) last))
  | goOn {first last : Nat} (hMore : first ≠ last) :
      Moves equals range shared (.test first last) shared (.compare first last)
  | stop {first last : Nat} (hStop : first = last ∨ shared.done = true) :
      Moves equals range shared (.test first last) shared (.finished (.returned last))
  | found {first last : Nat} (hMatch : equals (range first) = .ok true) :
      Moves equals range shared (.compare first last) shared (.signal first)
  | next {first last : Nat} (hOther : equals (range first) = .ok false) :
      Moves equals range shared (.compare first last) shared (.test (first + 1) last)
  | throws {first last : Nat} {e : ε} (hError : equals (range first) = .error e) :
      Moves equals range shared (.compare first last)
        { shared with thrown := first :: shared.thrown } (.caught e)
  | signal {first : Nat} :
      Moves equals range shared (.signal first) { shared with done := true }
        (.finished (.returned first))
  | direct {midPoint : Nat} {direct direct' async : Call ε} {shared' : Shared}
      (h : Moves equals range shared direct shared' direct') :
      Moves equals range shared (.split midPoint direct async) shared'
        (.split midPoint direct' async)
  | async {midPoint : Nat} {direct async async' : Call ε} {shared' : Shared}
      (h : Moves equals range shared async shared' async') :
      Moves equals range shared (.split midPoint direct async) shared'
        (.split midPoint direct async')
  | join {midPoint : Nat} {directResult asyncResult : Result ε} :
      Moves equals range shared
        (.split midPoint (.finished directResult) (.finished asyncResult)) shared
        (.join midPoint directResult asyncResult)
  | rethrow {e : ε} :
      Moves equals range shared (.caught e) { shared with done := true } (.finished (.threw e))

variable {shared shared' : Shared} {c c' : Call ε} {path : List Branch} {first last : Nat}

/-- What a step anywhere in the tree does. -/
theorem step_moves (hst : c.step equals range shared path = some (shared', c')) :
    Moves equals range shared c shared' c' := by
  induction c generalizing path c' with
  | enter first last =>
    cases path with
    | cons => cases hst
    | nil =>
      simp only [Call.step] at hst
      split at hst <;> cases hst
      · next hShort => exact .loop hShort
      · next hLong => exact .split (Nat.le_of_not_lt hLong)
  | test first last =>
    cases path with
    | cons => cases hst
    | nil =>
      simp only [Call.step] at hst
      split at hst <;> cases hst
      · next hMore => exact .goOn hMore.1
      · next hStop =>
        refine .stop ?_
        by_cases hEnd : first = last
        · exact Or.inl hEnd
        · exact Or.inr (by simpa using fun hDone => hStop ⟨hEnd, hDone⟩)
  | compare first last =>
    cases path with
    | cons => cases hst
    | nil =>
      simp only [Call.step] at hst
      split at hst <;> cases hst
      · next hMatch => exact .found hMatch
      · next hOther => exact .next hOther
      · next hError => exact .throws hError
  | signal first =>
    cases path with
    | cons => cases hst
    | nil =>
      cases hst
      exact .signal
  | split midPoint direct async ihDirect ihAsync =>
    cases path with
    | nil =>
      cases direct with
      | finished directResult =>
        cases async with
        | finished asyncResult =>
          cases hst
          exact .join
        | _ => cases hst
      | _ => cases hst
    | cons branch path =>
      cases branch with
      | direct =>
        simp only [Call.step, Option.map_eq_some_iff] at hst
        obtain ⟨x, hx, hEq⟩ := hst
        cases hEq
        exact .direct (ihDirect hx)
      | async =>
        simp only [Call.step, Option.map_eq_some_iff] at hst
        obtain ⟨x, hx, hEq⟩ := hst
        cases hEq
        exact .async (ihAsync hx)
  | caught e =>
    cases path with
    | cons => cases hst
    | nil =>
      cases hst
      exact .rethrow
  | finished result => cases path <;> cases hst

-- ---------------------------------------------------------------------------
-- What a call knows
-- ---------------------------------------------------------------------------

/-- Position `i` is an element of the part and equals `match`. -/
def Matches (equals : α → Except ε Bool) (range : Nat → α) (first last i : Nat) : Prop :=
  first ≤ i ∧ i < last ∧ equals (range i) = .ok true

/-- No element of the part equals `match`, and no comparison of one throws. -/
def Clear (equals : α → Except ε Bool) (range : Nat → α) (first last : Nat) : Prop :=
  ∀ i, first ≤ i → i < last → equals (range i) = .ok false

/-- The exception of a comparison that was made. -/
def Raised (equals : α → Except ε Bool) (range : Nat → α) (shared : Shared) (first last : Nat)
    (e : ε) : Prop :=
  ∃ i ∈ shared.thrown, first ≤ i ∧ i < last ∧ equals (range i) = .error e

/-- What a call that works on the positions from `first` up to `last` has found out. -/
def Call.Ok (equals : α → Except ε Bool) (range : Nat → α) (shared : Shared) :
    Nat → Nat → Call ε → Prop
  | first, last, .enter first' last' => first' = first ∧ last' = last ∧ first ≤ last
  | first, last, .test first' last' =>
    last' = last ∧ first ≤ first' ∧ first' ≤ last ∧ Clear equals range first first'
  | first, last, .compare first' last' =>
    last' = last ∧ first ≤ first' ∧ first' < last ∧ Clear equals range first first'
  | first, last, .signal position => Matches equals range first last position
  | first, last, .split midPoint direct async =>
    first ≤ midPoint ∧ midPoint < last ∧ direct.Ok equals range shared first midPoint ∧
      async.Ok equals range shared midPoint last
  | first, last, .caught e | first, last, .finished (.threw e) =>
    Raised equals range shared first last e
  | first, last, .finished (.returned position) =>
    position = last ∧ (shared.done = true ∨ Clear equals range first last) ∨
      Matches equals range first last position

/-- The call will not come back with its end. -/
def Call.Sure : Nat → Call ε → Prop
  | _, .signal _ | _, .caught _ | _, .finished (.threw _) => True
  | last, .finished (.returned position) => position ≠ last
  | last, .split midPoint direct async => direct.Sure midPoint ∨ async.Sure last
  | _, _ => False

/-- `done` stays set, and what was thrown stays thrown. -/
structure Later (shared shared' : Shared) : Prop where
  done : shared.done = true → shared'.done = true
  thrown : ∀ i ∈ shared.thrown, i ∈ shared'.thrown

/-- Two ranges without a match, one behind the other, -/
theorem Clear.append {mid : Nat} (h : Clear equals range first mid)
    (h' : Clear equals range mid last) : Clear equals range first last := by
  intro i hFirst hLast
  rcases Nat.lt_or_ge i mid with hLow | hHigh
  · exact h i hFirst hLow
  · exact h' i hHigh hLast

/-- and one more element that does not match. -/
theorem Clear.succ {i : Nat} (h : Clear equals range first i)
    (hOther : equals (range i) = .ok false) : Clear equals range first (i + 1) := by
  refine h.append fun j hLow hHigh => ?_
  rwa [show j = i by omega]

/-- An exception from a range is one from every larger range, and remains one. -/
theorem Raised.mono {first' last' : Nat} {e : ε} (h : Raised equals range shared first last e)
    (hLater : Later shared shared') (hFirst : first' ≤ first) (hLast : last ≤ last') :
    Raised equals range shared' first' last' e := by
  obtain ⟨i, hi, hLow, hHigh, hError⟩ := h
  exact ⟨i, hLater.thrown i hi, Nat.le_trans hFirst hLow, Nat.lt_of_lt_of_le hHigh hLast, hError⟩

/-- A step elsewhere. -/
theorem Call.Ok.mono (h : c.Ok equals range shared first last) (hLater : Later shared shared') :
    c.Ok equals range shared' first last := by
  induction c generalizing first last with
  | enter | test | compare | signal => exact h
  | split midPoint direct async ihDirect ihAsync =>
    exact ⟨h.1, h.2.1, ihDirect h.2.2.1, ihAsync h.2.2.2⟩
  | caught e => exact Raised.mono h hLater (Nat.le_refl _) (Nat.le_refl _)
  | finished result =>
    cases result with
    | threw e => exact Raised.mono h hLater (Nat.le_refl _) (Nat.le_refl _)
    | returned position =>
      rcases h with ⟨hEnd, hWhy⟩ | hMatch
      · exact Or.inl ⟨hEnd, hWhy.imp_left hLater.done⟩
      · exact Or.inr hMatch

-- ---------------------------------------------------------------------------
-- One step
-- ---------------------------------------------------------------------------

/-- The flag and the exceptions are where they were. -/
theorem Later.refl (shared : Shared) : Later shared shared :=
  ⟨id, fun _ => id⟩

/-- They only ever grow. -/
theorem Moves.later (h : Moves equals range shared c shared' c') : Later shared shared' := by
  induction h with
  | loop | split | goOn | stop | found | next | join => exact .refl shared
  | throws => exact ⟨id, fun _ => List.mem_cons_of_mem _⟩
  | signal | rethrow => exact ⟨fun _ => rfl, fun _ => id⟩
  | direct _ ih | async _ ih => exact ih

/-- The end of a call with two calls. -/
theorem join_ok {midPoint : Nat} {directResult asyncResult : Result ε}
    (h : (Call.split midPoint (.finished directResult) (.finished asyncResult)).Ok equals range
      shared first last) :
    (Call.join midPoint directResult asyncResult).Ok equals range shared first last := by
  obtain ⟨hFirst, hLast, hDirect, hAsync⟩ := h
  have hLe : midPoint ≤ last := Nat.le_of_lt hLast
  cases directResult with
  | threw e => exact Raised.mono hDirect (.refl shared) (Nat.le_refl _) hLe
  | returned position =>
    simp only [Call.join]
    split
    · next hMid =>
      cases asyncResult with
      | threw e => exact Raised.mono hAsync (.refl shared) hFirst (Nat.le_refl _)
      | returned position' =>
        rcases hAsync with ⟨rfl, hWhy'⟩ | ⟨hLow, hHigh, hMatch⟩
        · refine Or.inl ⟨rfl, ?_⟩
          -- the direct call has found nothing, or was stopped
          rcases hDirect with ⟨-, hWhy⟩ | ⟨-, hHigh, -⟩
          · rcases hWhy with hDone | hClear
            · exact Or.inl hDone
            · exact hWhy'.imp_right hClear.append
          · omega
        · exact Or.inr ⟨Nat.le_trans hFirst hLow, hHigh, hMatch⟩
    · next hNot =>
      rcases hDirect with ⟨hEnd, -⟩ | ⟨hLow, hHigh, hMatch⟩
      · exact absurd hEnd hNot
      · exact Or.inr ⟨hLow, Nat.lt_of_lt_of_le hHigh hLe, hMatch⟩

/-- The join of two results that are sure is sure. -/
theorem join_sure {midPoint : Nat} {directResult asyncResult : Result ε}
    (h : (Call.split midPoint (.finished directResult) (.finished asyncResult)).Ok equals range
      shared first last)
    (hSure : (Call.split midPoint (.finished directResult) (.finished asyncResult)).Sure last) :
    (Call.join midPoint directResult asyncResult).Sure last := by
  obtain ⟨hFirst, hLast, hDirect, hAsync⟩ := h
  cases directResult with
  | threw e => trivial
  | returned position =>
    simp only [Call.join]
    split
    · next hMid =>
      cases asyncResult with
      | threw e => trivial
      | returned position' =>
        rcases hSure with hNot | hSure
        · exact absurd hMid hNot
        · exact hSure
    · next hNot =>
      rcases hDirect with ⟨hEnd, -⟩ | ⟨-, hHigh, -⟩
      · exact absurd hEnd hNot
      · exact Nat.ne_of_lt (Nat.lt_trans hHigh hLast)

/-- A step keeps what each call knows; at the join the direct result is looked at first. -/
theorem Moves.ok (h : Moves equals range shared c shared' c')
    (hOk : c.Ok equals range shared first last) : c'.Ok equals range shared' first last := by
  induction h generalizing first last with
  | loop =>
    obtain ⟨rfl, rfl, hLe⟩ := hOk
    exact ⟨rfl, Nat.le_refl _, hLe, fun i hLow hHigh => absurd hHigh (Nat.not_lt.mpr hLow)⟩
  | split hLong =>
    obtain ⟨rfl, rfl, hLe⟩ := hOk
    unfold minPerThread at hLong
    exact ⟨by omega, by omega, ⟨rfl, rfl, by omega⟩, rfl, rfl, by omega⟩
  | goOn hMore =>
    obtain ⟨rfl, hLow, hHigh, hClear⟩ := hOk
    exact ⟨rfl, hLow, Nat.lt_of_le_of_ne hHigh hMore, hClear⟩
  | stop hStop =>
    obtain ⟨rfl, hLow, hHigh, hClear⟩ := hOk
    refine Or.inl ⟨rfl, ?_⟩
    rcases hStop with rfl | hDone
    · exact Or.inr hClear
    · exact Or.inl hDone
  | found hMatch =>
    obtain ⟨rfl, hLow, hHigh, -⟩ := hOk
    exact ⟨hLow, hHigh, hMatch⟩
  | next hOther =>
    obtain ⟨rfl, hLow, hHigh, hClear⟩ := hOk
    exact ⟨rfl, Nat.le_succ_of_le hLow, hHigh, hClear.succ hOther⟩
  | throws hError =>
    obtain ⟨rfl, hLow, hHigh, -⟩ := hOk
    exact ⟨_, List.mem_cons_self, hLow, hHigh, hError⟩
  | signal => exact Or.inr hOk
  | direct h ih => exact ⟨hOk.1, hOk.2.1, ih hOk.2.2.1, hOk.2.2.2.mono h.later⟩
  | async h ih => exact ⟨hOk.1, hOk.2.1, hOk.2.2.1.mono h.later, ih hOk.2.2.2⟩
  | join => exact join_ok hOk
  | rethrow => exact hOk

/-- A call that will not come back with its end stays so. -/
theorem Moves.sure (h : Moves equals range shared c shared' c')
    (hOk : c.Ok equals range shared first last) (hSure : c.Sure last) : c'.Sure last := by
  induction h generalizing first last with
  | loop | split | goOn | stop | found | next | throws => exact hSure.elim
  | signal => exact Nat.ne_of_lt hOk.2.1
  | direct _ ih => exact hSure.imp_left (ih hOk.2.2.1)
  | async _ ih => exact hSure.imp_right (ih hOk.2.2.2)
  | join => exact join_sure hOk hSure
  | rethrow => trivial

/-- Whoever sets `done`, or throws, will not come back with its end. -/
theorem Moves.told (h : Moves equals range shared c shared' c')
    (hOk : c.Ok equals range shared first last) : shared' = shared ∨ c'.Sure last := by
  induction h generalizing first last with
  | loop | split | goOn | stop | found | next | join => exact Or.inl rfl
  | throws | rethrow => exact Or.inr trivial
  | signal => exact Or.inr (Nat.ne_of_lt hOk.2.1)
  | direct _ ih => exact (ih hOk.2.2.1).imp_right Or.inl
  | async _ ih => exact (ih hOk.2.2.2).imp_right Or.inr

-- ---------------------------------------------------------------------------
-- The end of the call
-- ---------------------------------------------------------------------------

/-- A bound on the steps that the call and those below it have before them. -/
def Call.cost : Call ε → Nat
  | .enter first last =>
    if last - first < 2 * minPerThread then 4 * (last - first) + 8 else 8 * (last - first) - 8
  | .test first last => 4 * (last - first) + 6
  | .compare first last => 4 * (last - first) + 5
  | .signal _ | .caught _ => 2
  | .split _ direct async => direct.cost + async.cost + 4
  | .finished _ => 0

/-- A join costs two steps at most. -/
theorem join_cost_le (midPoint : Nat) (directResult asyncResult : Result ε) :
    (Call.join midPoint directResult asyncResult).cost ≤ 2 := by
  cases directResult with
  | threw e => exact Nat.le_refl _
  | returned position =>
    simp only [Call.join]
    split
    · cases asyncResult <;> simp [Call.cost]
    · exact Nat.zero_le _

/-- Every step makes the cost less. -/
theorem Moves.cost_lt (h : Moves equals range shared c shared' c')
    (hOk : c.Ok equals range shared first last) : c'.cost < c.cost := by
  induction h generalizing first last with
  | loop hShort =>
    simp only [Call.cost, if_pos hShort]
    omega
  | split hLong =>
    simp only [Call.cost, if_neg (Nat.not_lt.mpr hLong)]
    unfold minPerThread at *
    split <;> split <;> omega
  | goOn => exact Nat.lt_succ_self _
  | stop | found | throws =>
    simp only [Call.cost]
    omega
  | next =>
    have hMore := hOk.2.2.1
    have hEnd := hOk.1
    simp only [Call.cost]
    omega
  | signal | rethrow => exact Nat.zero_lt_two
  | direct _ ih =>
    have hLess := ih hOk.2.2.1
    simp only [Call.cost]
    omega
  | async _ ih =>
    have hLess := ih hOk.2.2.2
    simp only [Call.cost]
    omega
  | join =>
    refine Nat.lt_of_le_of_lt (join_cost_le _ _ _) ?_
    simp only [Call.cost]
    omega

/-- A call that has not ended can make a step, or one below it. -/
theorem exists_step (shared : Shared) (h : ∀ result, c ≠ .finished result) :
    ∃ path x, c.step equals range shared path = some x := by
  induction c with
  | enter first last =>
    refine ⟨[], ?_⟩
    simp only [Call.step]
    split <;> exact ⟨_, rfl⟩
  | test first last =>
    refine ⟨[], ?_⟩
    simp only [Call.step]
    split <;> exact ⟨_, rfl⟩
  | compare first last =>
    refine ⟨[], ?_⟩
    simp only [Call.step]
    split <;> exact ⟨_, rfl⟩
  | signal | caught => exact ⟨[], _, rfl⟩
  | split midPoint direct async ihDirect ihAsync =>
    by_cases hDirect : ∃ result, direct = .finished result
    · obtain ⟨directResult, rfl⟩ := hDirect
      by_cases hAsync : ∃ result, async = .finished result
      · obtain ⟨asyncResult, rfl⟩ := hAsync
        exact ⟨[], _, rfl⟩
      · obtain ⟨path, x, hx⟩ := ihAsync fun result hEq => hAsync ⟨result, hEq⟩
        exact ⟨.async :: path, _, by rw [Call.step, hx]; rfl⟩
    · obtain ⟨path, x, hx⟩ := ihDirect fun result hEq => hDirect ⟨result, hEq⟩
      exact ⟨.direct :: path, _, by rw [Call.step, hx]; rfl⟩
  | finished result => exact absurd rfl (h result)

-- ---------------------------------------------------------------------------
-- The whole call
-- ---------------------------------------------------------------------------

/-- Each call knows what it has looked at; once the flag is set or something was thrown, the
outermost call cannot come back with `last`. -/
structure Inv (equals : α → Except ε Bool) (range : Nat → α) (first last : Nat) (s : State ε) :
    Prop where
  ok : s.call.Ok equals range s.shared first last
  done : s.shared.done = true → s.call.Sure last
  thrown : s.shared.thrown ≠ [] → s.call.Sure last

variable {s s' : State ε}

/-- A step of the system is one in the tree. -/
theorem system_step (hst : (system equals range first last).step s path = some s') :
    Moves equals range s.shared s.call s'.shared s'.call := by
  obtain ⟨x, hx, hEq⟩ := Option.map_eq_some_iff.mp hst
  cases hEq
  exact step_moves hx

/-- Every step keeps it. -/
theorem Inv.step (h : Inv equals range first last s)
    (hst : (system equals range first last).step s path = some s') :
    Inv equals range first last s' := by
  have hMoves := system_step hst
  refine ⟨hMoves.ok h.ok, fun hDone => ?_, fun hThrown => ?_⟩
  · rcases hMoves.told h.ok with hSame | hSure
    · exact hMoves.sure h.ok (h.done (hSame ▸ hDone))
    · exact hSure
  · rcases hMoves.told h.ok with hSame | hSure
    · exact hMoves.sure h.ok (h.thrown (hSame ▸ hThrown))
    · exact hSure

/-- In every state. -/
theorem inv_reachable (hLe : first ≤ last) (hs : (system equals range first last).Reachable s) :
    Inv equals range first last s := by
  have hInit : Inv equals range first last (system equals range first last).init :=
    ⟨⟨rfl, rfl, hLe⟩, fun hDone => (Bool.false_ne_true hDone).elim,
      fun hThrown => absurd rfl hThrown⟩
  exact hs.invariant hInit fun _ _ _ _ h _ hst => h.step hst

/-- What holds of `parallel_find` in a state of the call. -/
structure Contract (equals : α → Except ε Bool) (range : Nat → α) (first last : Nat)
    (s : State ε) : Prop where
  /-- If no comparison threw, the call returns, with `last` exactly if there is no match. -/
  quiet : s.shared.thrown = [] → ∀ result, s.call = .finished result →
    ∃ position, result = .returned position ∧
      (position = last ↔ ∀ i, first ≤ i → i < last → equals (range i) ≠ .ok true) ∧
      (position ≠ last → Matches equals range first last position)
  /-- If a comparison threw, the call returns a match, or throws what a comparison threw. -/
  thrown : s.shared.thrown ≠ [] → ∀ result, s.call = .finished result →
    (∃ position, result = .returned position ∧ Matches equals range first last position) ∨
      ∃ e, result = .threw e ∧ Raised equals range s.shared first last e
  progress : (∀ result, s.call ≠ .finished result) →
    ∃ path s', (system equals range first last).step s path = some s'
  bounded : ∀ paths s', (system equals range first last).exec s paths = some s' →
    paths.length + s'.call.cost ≤ s.call.cost

/-- Without exceptions the result is a match, or there is none, -/
theorem Inv.quiet (h : Inv equals range first last s) (hThrown : s.shared.thrown = [])
    {result : Result ε} (hEnd : s.call = .finished result) :
    ∃ position, result = .returned position ∧
      (position = last ↔ ∀ i, first ≤ i → i < last → equals (range i) ≠ .ok true) ∧
      (position ≠ last → Matches equals range first last position) := by
  have hOk := h.ok
  have hDone := h.done
  rw [hEnd] at hOk hDone
  cases result with
  | threw e =>
    obtain ⟨i, hi, -⟩ := hOk
    rw [hThrown] at hi
    cases hi
  | returned position =>
    refine ⟨position, rfl, ⟨?_, ?_⟩, ?_⟩
    · intro hLast i hLow hHigh
      rcases hOk with ⟨-, hSet | hClear⟩ | ⟨-, hInside, -⟩
      · exact absurd hLast (hDone hSet)
      · rw [hClear i hLow hHigh]
        exact fun hEq => nomatch hEq
      · omega
    · intro hNone
      rcases hOk with ⟨hLast, -⟩ | ⟨hLow, hHigh, hMatch⟩
      · exact hLast
      · exact absurd hMatch (hNone position hLow hHigh)
    · intro hNot
      rcases hOk with ⟨hLast, -⟩ | hMatch
      · exact absurd hLast hNot
      · exact hMatch

/-- and with one it is a match or one of the exceptions. -/
theorem Inv.result_of_thrown (h : Inv equals range first last s)
    (hThrown : s.shared.thrown ≠ []) {result : Result ε} (hEnd : s.call = .finished result) :
    (∃ position, result = .returned position ∧ Matches equals range first last position) ∨
      ∃ e, result = .threw e ∧ Raised equals range s.shared first last e := by
  have hOk := h.ok
  have hSure := h.thrown hThrown
  rw [hEnd] at hOk hSure
  cases result with
  | threw e => exact Or.inr ⟨e, rfl, hOk⟩
  | returned position =>
    rcases hOk with ⟨hLast, -⟩ | hMatch
    · exact absurd hLast hSure
    · exact Or.inl ⟨position, rfl, hMatch⟩

/-- **The contract of `parallel_find`**: for every call, on every range and with every
interleaving of its tasks, no run breaks it. Comparisons may throw, and the flag `done` may be
seen at any test; `hLe` says that the two iterators are a range. -/
theorem parallel_find_contract (hLe : first ≤ last)
    (hs : (system equals range first last).Reachable s) : Contract equals range first last s := by
  have h := inv_reachable hLe hs
  refine ⟨fun hThrown result => h.quiet hThrown, fun hThrown result => h.result_of_thrown hThrown,
    ?_, ?_⟩
  · intro hRunning
    obtain ⟨path, x, hx⟩ := exists_step s.shared hRunning
    exact ⟨path, ⟨x.1, x.2⟩, Option.map_eq_some_iff.mpr ⟨x, hx, rfl⟩⟩
  · intro paths s' hExec
    refine System.Reachable.length_le (m := fun s => s.call.cost) ?_ hs hExec
    intro s path s' hs hst
    exact (system_step hst).cost_lt (inv_reachable hLe hs).ok

/-- Elements 10 and 40 of 60 match. The second half finds 40 while the first one is at 0,
where it is stopped; the call returns 40. -/
theorem parallel_find_stopped : ∃ s,
    (system (fun i => (.ok (i = 10 || i = 40) : Except Unit Bool)) id 0 60).Reachable s ∧
      s.call = .finished (.returned 40) ∧
      Contract (fun i => (.ok (i = 10 || i = 40) : Except Unit Bool)) id 0 60 s := by
  obtain ⟨s, hs, hEnd⟩ := System.exists_reachable_of_exec
    (S := system (fun i => (.ok (i = 10 || i = 40) : Except Unit Bool)) id 0 60)
    (p := fun s => s.call = .finished (.returned 40))
    ([[], [.direct]] ++ List.replicate 24 [.async] ++ [[.direct], []])
    (by decide +kernel)
  exact ⟨s, hs, hEnd, parallel_find_contract (by decide) hs⟩

end EmbLinux.DesignConcurrentCode.ParallelFind
