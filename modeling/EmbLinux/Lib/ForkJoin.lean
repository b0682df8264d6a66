import EmbLinux.Lib.Measure

/-!
# EmbLinux — fork and join

A recursive algorithm that splits its input in two, gives one part to another thread and
works on the other part itself, and then joins the results. What is split, what a call that
does not split does and how results are joined is a `ForkJoin`; nothing else in this module
depends on it.

* `ForkJoin.system` — the calls as a tree. A step is a step of any call of the tree: it is
  entered, makes one step of its loop, or joins its two calls when both have ended. An
  exception of the calling thread comes before one of the other, which is waited for.
* `Outline` — the proof rule: assertions for the inputs, the loops and the results, each
  about a part of the state that the calls beside it leave alone. `Outline.reachable`
  derives what holds of every state of every interleaving.
* `Descent` — a cost for the inputs that bounds the length of every run, and
  `exists_finished`, that no call is stuck.
-/

namespace EmbLinux

/-- `ι` are the inputs, `β` the states of a loop, `γ` the results, `ε` the exceptions and `σ`
what the calls share. -/
structure ForkJoin (ι β γ ε σ : Type*) where
  /-- The part for another thread and the own part, or `none` for a loop. -/
  fork : ι → Option (ι × ι)
  /-- The exception when no thread can be started. -/
  launch : ι → Option ε
  start : ι → β
  next : σ → β → σ × (β ⊕ Except ε γ)
  join : γ → γ → γ

namespace ForkJoin

variable {ι β γ ε σ : Type*}

/-- The inputs of the calls below a call for `i`, and `i` itself. A call makes its two calls
only when the thread for the first of them can be started. -/
inductive Below (A : ForkJoin ι β γ ε σ) (i : ι) : ι → Prop
  | refl : Below A i i
  | async {j async direct : ι} (hFork : A.fork j = some (async, direct))
      (hLaunch : A.launch j = none) (h : Below A i j) : Below A i async
  | direct {j async direct : ι} (hFork : A.fork j = some (async, direct))
      (hLaunch : A.launch j = none) (h : Below A i j) : Below A i direct

/-- The calls below the one on the other thread are below the call, -/
theorem Below.of_async {A : ForkJoin ι β γ ε σ} {i j async direct : ι}
    (hFork : A.fork i = some (async, direct)) (hLaunch : A.launch i = none)
    (h : A.Below async j) : A.Below i j := by
  induction h with
  | refl => exact .async hFork hLaunch .refl
  | async hFork' hLaunch' _ ih => exact .async hFork' hLaunch' ih
  | direct hFork' hLaunch' _ ih => exact .direct hFork' hLaunch' ih

/-- and so are those below the direct one. -/
theorem Below.of_direct {A : ForkJoin ι β γ ε σ} {i j async direct : ι}
    (hFork : A.fork i = some (async, direct)) (hLaunch : A.launch i = none)
    (h : A.Below direct j) : A.Below i j := by
  induction h with
  | refl => exact .direct hFork hLaunch .refl
  | async hFork' hLaunch' _ ih => exact .async hFork' hLaunch' ih
  | direct hFork' hLaunch' _ ih => exact .direct hFork' hLaunch' ih

/-- Where a call stands: before it looks at its input, in its loop, with its two calls, or
at its end. -/
inductive Call (ι β γ ε : Type*)
  | enter (i : ι)
  | loop (b : β)
  | split (async direct : Call ι β γ ε)
  | finished (result : Except ε γ)
  deriving DecidableEq

/-- The way down from a call to the one that makes a step. -/
inductive Branch
  | async
  | direct
  deriving DecidableEq

/-- The result of a call from those of its two calls. -/
def joined (A : ForkJoin ι β γ ε σ) : Except ε γ → Except ε γ → Except ε γ
  | _, .error e => .error e
  | .error e, .ok _ => .error e
  | .ok async, .ok direct => .ok (A.join async direct)

/-- A call looks at its input. -/
def enter (A : ForkJoin ι β γ ε σ) (i : ι) : Call ι β γ ε :=
  match A.fork i with
  | none => .loop (A.start i)
  | some (async, direct) =>
    match A.launch i with
    | some e => .finished (.error e)
    | none => .split (.enter async) (.enter direct)

/-- A loop after one step. -/
def Call.ofTurn : β ⊕ Except ε γ → Call ι β γ ε
  | .inl b => .loop b
  | .inr result => .finished result

/-- A step of the call, or of one below it. -/
def Call.step (A : ForkJoin ι β γ ε σ) (s : σ) :
    Call ι β γ ε → List Branch → Option (σ × Call ι β γ ε)
  | .enter i, [] => some (s, A.enter i)
  | .loop b, [] => some ((A.next s b).1, .ofTurn (A.next s b).2)
  | .split async direct, .async :: path =>
    (async.step A s path).map fun x => (x.1, .split x.2 direct)
  | .split async direct, .direct :: path =>
    (direct.step A s path).map fun x => (x.1, .split async x.2)
  | .split (.finished async) (.finished direct), [] =>
    some (s, .finished (A.joined async direct))
  | _, _ => none

/-- A call for `i` in a start state. -/
def system (A : ForkJoin ι β γ ε σ) (s : σ) (i : ι) : System (σ × Call ι β γ ε) (List Branch) where
  init := (s, .enter i)
  step x path := x.2.step A x.1 path

-- ---------------------------------------------------------------------------
-- The steps
-- ---------------------------------------------------------------------------

/-- What a step does to the call on top. -/
inductive Moves (A : ForkJoin ι β γ ε σ) (s : σ) : Call ι β γ ε → σ → Call ι β γ ε → Prop
  | enter (i : ι) : Moves A s (.enter i) s (A.enter i)
  | loop (b : β) : Moves A s (.loop b) (A.next s b).1 (.ofTurn (A.next s b).2)
  | async {async async' direct : Call ι β γ ε} {s' : σ} (h : Moves A s async s' async') :
      Moves A s (.split async direct) s' (.split async' direct)
  | direct {async direct direct' : Call ι β γ ε} {s' : σ} (h : Moves A s direct s' direct') :
      Moves A s (.split async direct) s' (.split async direct')
  | join (async direct : Except ε γ) :
      Moves A s (.split (.finished async) (.finished direct)) s
        (.finished (A.joined async direct))

variable {A : ForkJoin ι β γ ε σ} {s s' : σ} {c c' : Call ι β γ ε} {i : ι} {path : List Branch}

/-- What a step anywhere in the tree does. -/
theorem step_moves (hst : c.step A s path = some (s', c')) : Moves A s c s' c' := by
  induction c generalizing path c' with
  | enter i =>
    cases path with
    | cons => simp [Call.step] at hst
    | nil =>
      obtain ⟨rfl, rfl⟩ := Prod.mk.inj (Option.some.inj hst)
      exact .enter i
  | loop b =>
    cases path with
    | cons => simp [Call.step] at hst
    | nil =>
      obtain ⟨rfl, rfl⟩ := Prod.mk.inj (Option.some.inj hst)
      exact .loop b
  | finished result => cases path <;> simp [Call.step] at hst
  | split async direct ihAsync ihDirect =>
    cases path with
    | nil =>
      cases async with
      | finished a =>
        cases direct with
        | finished d =>
          obtain ⟨rfl, rfl⟩ := Prod.mk.inj (Option.some.inj hst)
          exact .join a d
        | enter | loop | split => simp [Call.step] at hst
      | enter | loop | split => simp [Call.step] at hst
    | cons branch path =>
      cases branch with
      | async =>
        simp only [Call.step, Option.map_eq_some_iff] at hst
        obtain ⟨x, hx, hEq⟩ := hst
        obtain ⟨rfl, rfl⟩ := Prod.mk.inj hEq
        exact .async (ihAsync hx)
      | direct =>
        simp only [Call.step, Option.map_eq_some_iff] at hst
        obtain ⟨x, hx, hEq⟩ := hst
        obtain ⟨rfl, rfl⟩ := Prod.mk.inj hEq
        exact .direct (ihDirect hx)

-- ---------------------------------------------------------------------------
-- The proof rule
-- ---------------------------------------------------------------------------

/-- Assertions for the calls: `pre` before a call, `loop` in its loop and `post` at its end,
with `inv` about the whole state. `apart` says that two inputs have nothing in common. -/
structure Outline (A : ForkJoin ι β γ ε σ) (apart : ι → ι → Prop) (inv : σ → Prop)
    (pre : ι → σ → Prop) (loop : ι → σ → β → Prop) (post : ι → σ → Except ε γ → Prop) : Prop where
  /-- What a call may rely on its two calls may rely on, -/
  fork : ∀ i async direct s, A.fork i = some (async, direct) → pre i s →
    pre async s ∧ pre direct s
  /-- a call whose thread is not started has ended with the exception, -/
  launch : ∀ i async direct s e, A.fork i = some (async, direct) → A.launch i = some e →
    pre i s → post i s (.error e)
  /-- and a call that does not fork begins its loop. -/
  start : ∀ i s, A.fork i = none → pre i s → loop i s (A.start i)
  /-- The loop keeps its assertion -/
  again : ∀ i s b b', inv s → loop i s b → (A.next s b).2 = .inl b' → loop i (A.next s b).1 b'
  /-- and ends with the one of the call. -/
  ends : ∀ i s b r, inv s → loop i s b → (A.next s b).2 = .inr r → post i (A.next s b).1 r
  /-- What is shared is kept by every turn. -/
  keeps : ∀ i s b, inv s → loop i s b → inv (A.next s b).1
  /-- Two ended calls make an ended one. -/
  join : ∀ i async direct s r r', A.fork i = some (async, direct) → A.launch i = none →
    post async s r → post direct s r' → post i s (A.joined r r')
  apart_symm : ∀ i j, apart i j → apart j i
  /-- The two calls are about inputs that are apart, -/
  apart_fork : ∀ i async direct, A.fork i = some (async, direct) → apart async direct
  /-- also from everything that the whole is apart from. -/
  apart_below : ∀ i j async direct, A.fork i = some (async, direct) → apart j i →
    apart j async ∧ apart j direct
  /-- A step of a loop leaves the assertions of the inputs that are apart from its own. -/
  frame : ∀ i j s b, apart j i → inv s → loop i s b →
    (pre j s → pre j (A.next s b).1) ∧
      (∀ b', loop j s b' → loop j (A.next s b).1 b') ∧ ∀ r, post j s r → post j (A.next s b).1 r

section

variable {apart : ι → ι → Prop} {inv : σ → Prop} {pre : ι → σ → Prop} {loop : ι → σ → β → Prop}
  {post : ι → σ → Except ε γ → Prop}

/-- The assertions of a call and of those below it. -/
def Call.Ok (A : ForkJoin ι β γ ε σ) (pre : ι → σ → Prop) (loop : ι → σ → β → Prop)
    (post : ι → σ → Except ε γ → Prop) (s : σ) : ι → Call ι β γ ε → Prop
  | i, .enter i' => i' = i ∧ pre i s
  | i, .loop b => loop i s b
  | i, .split async direct => ∃ i₁ i₂, A.fork i = some (i₁, i₂) ∧ A.launch i = none ∧
      async.Ok A pre loop post s i₁ ∧ direct.Ok A pre loop post s i₂
  | i, .finished r => post i s r

/-- What a loop of some input apart from `i` does. -/
theorem Outline.ok_frame (h : Outline A apart inv pre loop post) {j : ι} {b : β}
    (hInv : inv s) (hLoop : loop j s b) (hApart : apart i j)
    (hOk : c.Ok A pre loop post s i) : c.Ok A pre loop post (A.next s b).1 i := by
  induction c generalizing i with
  | enter i' => exact ⟨hOk.1, (h.frame j i s b hApart hInv hLoop).1 hOk.2⟩
  | loop b' => exact (h.frame j i s b hApart hInv hLoop).2.1 b' hOk
  | finished r => exact (h.frame j i s b hApart hInv hLoop).2.2 r hOk
  | split async direct ihAsync ihDirect =>
    obtain ⟨i₁, i₂, hFork, hLaunch, hAsync, hDirect⟩ := hOk
    obtain ⟨hApart₁, hApart₂⟩ := h.apart_below i j i₁ i₂ hFork (h.apart_symm i j hApart)
    exact ⟨i₁, i₂, hFork, hLaunch, ihAsync (h.apart_symm j i₁ hApart₁) hAsync,
      ihDirect (h.apart_symm j i₂ hApart₂) hDirect⟩

/-- A step of a call leaves those of the inputs apart from its own. -/
theorem Outline.moves_frame (h : Outline A apart inv pre loop post) (hMoves : Moves A s c s' c')
    (hInv : inv s) (hOk : c.Ok A pre loop post s i) {j : ι} {d : Call ι β γ ε}
    (hApart : apart j i) (hOther : d.Ok A pre loop post s j) : d.Ok A pre loop post s' j := by
  induction hMoves generalizing i with
  | enter | join => exact hOther
  | loop b => exact h.ok_frame hInv hOk hApart hOther
  | async hBelow ih =>
    obtain ⟨i₁, i₂, hFork, -, hAsync, -⟩ := hOk
    exact ih hAsync (h.apart_below i j i₁ i₂ hFork hApart).1
  | direct hBelow ih =>
    obtain ⟨i₁, i₂, hFork, -, -, hDirect⟩ := hOk
    exact ih hDirect (h.apart_below i j i₁ i₂ hFork hApart).2

/-- A call that is entered meets its assertion. -/
theorem Outline.enter_ok (h : Outline A apart inv pre loop post) (hPre : pre i s) :
    (A.enter i).Ok A pre loop post s i := by
  unfold ForkJoin.enter
  split
  · next hFork => exact h.start i s hFork hPre
  · next async direct hFork =>
    split
    · next e hLaunch => exact h.launch i async direct s e hFork hLaunch hPre
    · next hLaunch =>
      obtain ⟨hAsync, hDirect⟩ := h.fork i async direct s hFork hPre
      exact ⟨async, direct, hFork, hLaunch, ⟨rfl, hAsync⟩, rfl, hDirect⟩

/-- One step keeps the invariant and the assertions of the call it is a step of. -/
theorem Outline.moves_ok (h : Outline A apart inv pre loop post) (hMoves : Moves A s c s' c')
    (hInv : inv s) (hOk : c.Ok A pre loop post s i) : inv s' ∧ c'.Ok A pre loop post s' i := by
  induction hMoves generalizing i with
  | enter i' =>
    obtain ⟨rfl, hPre⟩ := hOk
    exact ⟨hInv, h.enter_ok hPre⟩
  | loop b =>
    refine ⟨h.keeps i s b hInv hOk, ?_⟩
    cases hTurn : (A.next s b).2 with
    | inl b' => exact h.again i s b b' hInv hOk hTurn
    | inr r => exact h.ends i s b r hInv hOk hTurn
  | async hBelow ih =>
    obtain ⟨i₁, i₂, hFork, hLaunch, hAsync, hDirect⟩ := hOk
    obtain ⟨hInv', hAsync'⟩ := ih hAsync
    have hApart := h.apart_symm i₁ i₂ (h.apart_fork i i₁ i₂ hFork)
    exact ⟨hInv', i₁, i₂, hFork, hLaunch, hAsync', h.moves_frame hBelow hInv hAsync hApart hDirect⟩
  | direct hBelow ih =>
    obtain ⟨i₁, i₂, hFork, hLaunch, hAsync, hDirect⟩ := hOk
    obtain ⟨hInv', hDirect'⟩ := ih hDirect
    have hApart := h.apart_fork i i₁ i₂ hFork
    exact ⟨hInv', i₁, i₂, hFork, hLaunch, h.moves_frame hBelow hInv hDirect hApart hAsync, hDirect'⟩
  | join r r' =>
    obtain ⟨i₁, i₂, hFork, hLaunch, hAsync, hDirect⟩ := hOk
    exact ⟨hInv, h.join i i₁ i₂ s r r' hFork hLaunch hAsync hDirect⟩

/-- **The rule**: the assertions hold in every state of every interleaving. -/
theorem Outline.reachable (h : Outline A apart inv pre loop post) {s₀ : σ} (hInv : inv s₀)
    (hPre : pre i s₀) {x : σ × Call ι β γ ε} (hx : (A.system s₀ i).Reachable x) :
    inv x.1 ∧ x.2.Ok A pre loop post x.1 i := by
  refine hx.invariant (I := fun x => inv x.1 ∧ x.2.Ok A pre loop post x.1 i)
    ⟨hInv, rfl, hPre⟩ ?_
  rintro ⟨s, c⟩ path ⟨s', c'⟩ - ⟨hInv, hOk⟩ - hst
  exact h.moves_ok (step_moves hst) hInv hOk

end

-- ---------------------------------------------------------------------------
-- The length of a run
-- ---------------------------------------------------------------------------

/-- What the calls for an input cost, and what is left to do of a loop. -/
structure Descent (A : ForkJoin ι β γ ε σ) (cost : ι → Nat) (left : β → Nat) : Prop where
  fork : ∀ i async direct, A.fork i = some (async, direct) →
    cost async + cost direct + 2 ≤ cost i
  start : ∀ i, A.fork i = none → left (A.start i) + 2 ≤ cost i
  next : ∀ s b b', (A.next s b).2 = .inl b' → left b' < left b

variable {cost : ι → Nat} {left : β → Nat}

/-- What is left to do of a call and of those below it. -/
def Call.rest (cost : ι → Nat) (left : β → Nat) : Call ι β γ ε → Nat
  | .enter i => cost i
  | .loop b => left b + 1
  | .split async direct => async.rest cost left + direct.rest cost left + 1
  | .finished _ => 0

/-- Entering a call costs a step, -/
theorem Descent.enter_lt (h : Descent A cost left) (i : ι) :
    (A.enter i).rest cost left < cost i := by
  unfold ForkJoin.enter
  split
  · next hFork =>
    have hStart := h.start i hFork
    simp only [Call.rest]
    omega
  · next async direct hFork =>
    have hCost := h.fork i async direct hFork
    split <;> simp only [Call.rest] <;> omega

/-- and so does everything else. -/
theorem Descent.moves_lt (h : Descent A cost left) (hMoves : Moves A s c s' c') :
    c'.rest cost left < c.rest cost left := by
  induction hMoves with
  | enter i => exact h.enter_lt i
  | loop b =>
    cases hTurn : (A.next s b).2 with
    | inl b' =>
      have hNext := h.next s b b' hTurn
      simp only [Call.ofTurn, Call.rest]
      omega
    | inr r =>
      simp only [Call.ofTurn, Call.rest]
      omega
  | async _ ih | direct _ ih =>
    simp only [Call.rest]
    omega
  | join r r' =>
    simp only [Call.rest]
    omega

/-- A call that has not ended can make a step. -/
theorem exists_step (A : ForkJoin ι β γ ε σ) (s : σ) (c : Call ι β γ ε)
    (hNot : ∀ r, c ≠ .finished r) : ∃ path x, c.step A s path = some x := by
  induction c with
  | enter i => exact ⟨[], _, rfl⟩
  | loop b => exact ⟨[], _, rfl⟩
  | finished r => exact absurd rfl (hNot r)
  | split async direct ihAsync ihDirect =>
    by_cases hAsync : ∃ r, async = .finished r
    · by_cases hDirect : ∃ r, direct = .finished r
      · obtain ⟨r, rfl⟩ := hAsync
        obtain ⟨r', rfl⟩ := hDirect
        exact ⟨[], _, rfl⟩
      · obtain ⟨path, x, hx⟩ := ihDirect fun r hr => hDirect ⟨r, hr⟩
        exact ⟨.direct :: path, (x.1, .split async x.2), by simp [Call.step, hx]⟩
    · obtain ⟨path, x, hx⟩ := ihAsync fun r hr => hAsync ⟨r, hr⟩
      exact ⟨.async :: path, (x.1, .split x.2 direct), by simp [Call.step, hx]⟩

/-- No run is longer than the cost of the input. -/
theorem Descent.length_le (h : Descent A cost left) {s₀ : σ} {x y : σ × Call ι β γ ε}
    (hx : (A.system s₀ i).Reachable x) {schedule : List (List Branch)}
    (hRun : (A.system s₀ i).exec x schedule = some y) : schedule.length ≤ cost i := by
  have hLess : ∀ x path x', (A.system s₀ i).step x path = some x' →
      x'.2.rest cost left < x.2.rest cost left := fun x path x' hst => h.moves_lt (step_moves hst)
  have hRest : x.2.rest cost left ≤ cost i := by
    refine hx.invariant (I := fun x => x.2.rest cost left ≤ cost i) (Nat.le_refl _) ?_
    intro x path x' _ hI _ hst
    have hStep := hLess x path x' hst
    omega
  have hLength : schedule.length + y.2.rest cost left ≤ x.2.rest cost left :=
    hx.length_le (m := fun x => x.2.rest cost left) (fun x path x' _ hst => hLess x path x' hst)
      hRun
  omega

/-- **No call is stuck**: every run that is not over can go on until the call ends. -/
theorem Descent.exists_finished (h : Descent A cost left) {s₀ : σ} {x : σ × Call ι β γ ε}
    (hx : (A.system s₀ i).Reachable x) :
    ∃ schedule s r, (A.system s₀ i).exec x schedule = some (s, .finished r) := by
  have hStep : ∀ x, (A.system s₀ i).Reachable x → ¬ (∃ r, x.2 = .finished r) →
      ∃ path x', (A.system s₀ i).step x path = some x' ∧
        x'.2.rest cost left < x.2.rest cost left := by
    rintro x - hNot
    obtain ⟨path, x', hst⟩ := exists_step A x.1 x.2 fun r hr => hNot ⟨r, hr⟩
    exact ⟨path, x', hst, h.moves_lt (step_moves hst)⟩
  obtain ⟨schedule, ⟨s, c⟩, hRun, r, rfl⟩ := hx.exists_of_descent hStep
  exact ⟨schedule, s, r, hRun⟩

end ForkJoin

end EmbLinux
