import EmbLinux.Lib.Count
import EmbLinux.Lib.Fifo
import EmbLinux.ThreadSafeQueue.Model

/-!
# EmbLinux — the removal paths of `ThreadSafeQueue`

`try_pop` takes an element without taking a permit, so after it the semaphore
counts an element that is gone, and a later `wait_and_pop` passes `m_sem.acquire`
and runs `front()` on an empty queue (`waitAndPop_on_empty_queue`).

The order of the values does not depend on that: `refines_fifo` holds in every
run. What the safety of `wait_and_pop` needs is that every call between its
`acquire` and its locked region has an element left. `Backed` is this condition
on the two steps that can break it, and `removals_safe` is the whole contract
in the runs that meet it.

`fault_of_not_backed` is the other direction: a step that breaks the condition leaves the calls
that wait with too few elements, and they can run into the empty queue.
-/

namespace EmbLinux.ThreadSafeQueue

variable {τ α : Type*} [DecidableEq τ] {s s' : State τ α} {a : Action τ α}

-- ---------------------------------------------------------------------------
-- Order
-- ---------------------------------------------------------------------------

/-- The abstract unbounded queue that a state stands for. -/
def State.toFifo (s : State τ α) : Fifo α :=
  ⟨s.queue, s.pushed, s.removed⟩

/-- What a step does to the values is what a queue of them can do. -/
theorem refines_step (hst : step s a = some s') :
    ∃ ops, (Fifo.system α fun _ => true).exec s.toFifo ops = some s'.toFifo := by
  unfold step at hst
  split at hst
  · cases hst
  · cases a with
    | call t op =>
      simp only at hst
      split at hst
      · cases hst
        exact ⟨[], rfl⟩
      · cases hst
    | run t =>
      simp only [run] at hst
      split at hst
      · cases hst
      · next value hpc =>
        -- the locked region of `push`
        cases hst
        exact ⟨[.push value], Fifo.exec_push rfl⟩
      · cases hst
        exact ⟨[], rfl⟩
      · split at hst <;> cases hst
        · exact ⟨[], rfl⟩
        · next value rest hq => exact ⟨[.pop], Fifo.exec_pop hq⟩
      · split at hst <;> cases hst
        exact ⟨[], rfl⟩
      · split at hst <;> cases hst
        · exact ⟨[], rfl⟩
        · next value rest hq => exact ⟨[.pop], Fifo.exec_pop hq⟩
      · cases hst
        exact ⟨[], rfl⟩

/-- **Refinement.** In every run the removals of both paths together take the
values in the order of the pushes, each once. -/
theorem refines_fifo (h : (system τ α).Reachable s) :
    (Fifo.system α fun _ => true).Reachable s.toFifo := by
  obtain ⟨q, hq, hEq⟩ := h.simulate (R := fun s q => q = s.toFifo)
    (T := Fifo.system α fun _ => true) rfl
    (by
      rintro s a s' q - rfl - hst
      obtain ⟨ops, hops⟩ := refines_step hst
      exact ⟨ops, _, hops, rfl⟩)
  exact hEq ▸ hq

-- ---------------------------------------------------------------------------
-- Safety of `front()`
-- ---------------------------------------------------------------------------

/-- The number of `wait_and_pop` calls between `m_sem.acquire` and their locked
region. -/
noncomputable def waiting (s : State τ α) : Nat :=
  count (· = Pc.waitLock) s.pc

/-- The step condition: an `acquire`, and a `try_pop` that finds an element, run
only while the queue holds more elements than there are calls waiting for one. -/
def Backed (s : State τ α) : Action τ α → Prop
  | .call _ _ => True
  | .run t =>
    match s.pc t with
    | .waitAcquire => waiting s < s.queue.length
    | .tryPopLock => s.queue ≠ [] → waiting s < s.queue.length
    | _ => True

/-- Every call past its `acquire` still has an element in the queue. -/
structure BackedInv (s : State τ α) : Prop where
  finite : {t | s.pc t = Pc.waitLock}.Finite
  le : waiting s ≤ s.queue.length
  noFault : s.fault = false

omit [DecidableEq τ] in
/-- No permit is out yet. -/
theorem backedInv_init : BackedInv (init τ α) where
  finite := by simp [init]
  le := by simp [waiting, init, count_eq_zero]
  noFault := rfl

/-- A thread that moves between two points outside `wait_and_pop`'s region
leaves the invariant to the queue's length. -/
theorem BackedInv.move (h : BackedInv s) {t : τ} {pc : Pc α} {queue : List α} {permits : Nat}
    {pushed removed : List α} (hpc : s.pc t ≠ .waitLock) (hpc' : pc ≠ .waitLock)
    (hLen : waiting s ≤ queue.length) :
    BackedInv { s.setPc t pc with
      queue := queue, permits := permits, pushed := pushed, removed := removed } where
  finite := finite_update (p := (· = Pc.waitLock)) h.finite
  le := by
    have hCount := count_update_of_iff (p := (· = Pc.waitLock)) (f := s.pc) (i := t) (b := pc)
      (by simp [hpc, hpc'])
    simpa [waiting, State.setPc, hCount] using hLen
  noFault := h.noFault

/-- Every permit stays backed by a value as long as no step overtakes one. -/
theorem backedInv_step (h : BackedInv s) (hok : Backed s a) (hst : step s a = some s') :
    BackedInv s' := by
  have hLe := h.le
  simp only [step, h.noFault, Bool.false_eq_true, if_false] at hst
  cases a with
  | call t op =>
    simp only at hst
    split at hst
    · next r hpc =>
      cases hst
      exact h.move (by simp [hpc]) (by cases op <;> simp [Operation.start]) hLe
    · cases hst
  | run t =>
    simp only [run] at hst
    simp only [Backed] at hok
    split at hst
    · cases hst
    · next value hpc =>
      cases hst
      exact h.move (by simp [hpc]) (by simp) (by simp; omega)
    · next hpc =>
      cases hst
      exact h.move (by simp [hpc]) (by simp) hLe
    · next hpc =>
      split at hst <;> cases hst
      · exact h.move (by simp [hpc]) (by simp) hLe
      · next value rest hq =>
        -- the element taken is not one that a waiting call counts on
        simp only [hpc] at hok
        have hlt := hok (by simp [hq])
        exact h.move (by simp [hpc]) (by simp) (by simp only [hq, List.length_cons] at hlt; omega)
    · next hpc =>
      -- `acquire`: one call more waits, and by the condition there is an element for it
      split at hst <;> cases hst
      simp only [hpc] at hok
      refine ⟨finite_update (p := (· = Pc.waitLock)) h.finite, ?_, h.noFault⟩
      have hEnter := count_update_enter (p := (· = Pc.waitLock)) (f := s.pc) (i := t)
        (b := .waitLock) h.finite (by simp [hpc]) rfl
      simp only [waiting, State.setPc, hEnter] at hok ⊢
      omega
    · next hpc =>
      -- the locked region of `wait_and_pop`: this call is one of those that wait
      have hPos : 0 < waiting s := count_pos (p := (· = Pc.waitLock)) h.finite hpc
      split at hst
      · next hq =>
        simp only [hq, List.length_nil] at hLe
        omega
      · next value rest hq =>
        cases hst
        refine ⟨finite_update (p := (· = Pc.waitLock)) h.finite, ?_, h.noFault⟩
        have hLeave := count_update_leave (p := (· = Pc.waitLock)) (f := s.pc) (i := t)
          (b := .idle (some (.popped value))) h.finite hpc (by simp)
        simp only [waiting, State.setPc, hq, List.length_cons] at hLe hLeave ⊢
        omega
    · next hpc =>
      cases hst
      exact h.move (by simp [hpc]) (by simp) hLe

/-- The value that a removal returns. -/
def Result.removed? : Result α → Option α
  | .tryPopped value => value
  | .popped value => some value
  | .pushed | .isEmpty _ => none

/-- The value that the call of a thread returns with, if it removes one. -/
def Pc.removed? : Pc α → Option α
  | .idle (some result) => result.removed?
  | _ => none

/-- The contract of the removal paths in a state: no `front()` on an empty queue
so far, and the removed values are the first pushed ones, in order, each once. -/
structure RemovalsSafe (s : State τ α) : Prop where
  noFault : s.fault = false
  order : s.pushed = s.removed ++ s.queue
  /-- What is removed is what `try_pop` or `wait_and_pop` returns at that step. -/
  returns : ∀ t s', step s (.run t) = some s' → s'.removed = s.removed ++ (s'.pc t).removed?.toList
  /-- A call that begins removes nothing. -/
  calls : ∀ t op s', step s (.call t op) = some s' → s'.removed = s.removed
  /-- `try_pop` returns `std::nullopt` at an empty queue only. -/
  empty : ∀ t s', step s (.run t) = some s' →
    s'.pc t = .idle (some (.tryPopped none)) → s.queue = []

/-- A step of a call removes what the call returns with, and `std::nullopt` is returned
at an empty queue. -/
theorem returns_removed {t : τ} (hst : step s (.run t) = some s') :
    s'.removed = s.removed ++ (s'.pc t).removed?.toList ∧
      (s'.pc t = .idle (some (.tryPopped none)) → s.queue = []) := by
  unfold step at hst
  split at hst
  · cases hst
  simp only [run] at hst
  split at hst
  · cases hst
  · cases hst
    simp [State.setPc, Pc.removed?]
  · cases hst
    simp [State.setPc, Pc.removed?, Result.removed?]
  · split at hst <;> cases hst
    · next hq => simp [State.setPc, Pc.removed?, Result.removed?, hq]
    · simp [State.setPc, Pc.removed?, Result.removed?]
  · split at hst <;> cases hst
    simp [State.setPc, Pc.removed?]
  · next hpc =>
    split at hst <;> cases hst
    · -- the fault leaves the call where it is
      simp [hpc, Pc.removed?]
    · simp [State.setPc, Pc.removed?, Result.removed?]
  · cases hst
    simp [State.setPc, Pc.removed?, Result.removed?]

/-- The beginning of a call removes nothing. -/
theorem removed_call {t : τ} {op : Operation α} (hst : step s (.call t op) = some s') :
    s'.removed = s.removed := by
  unfold step at hst
  split at hst
  · cases hst
  simp only at hst
  split at hst <;> cases hst
  rfl

/-- `push(5)`, `try_pop()`, `wait_and_pop()` by one thread: the permit of the
element that `try_pop` took lets `wait_and_pop` run `front()` on an empty queue. -/
theorem waitAndPop_on_empty_queue :
    ¬ ∀ s : State Unit Nat, (system Unit Nat).Reachable s → RemovalsSafe s := by
  intro hAll
  obtain ⟨s, hs, hFault⟩ := System.exists_reachable_of_exec (S := system Unit Nat)
    (p := fun s => s.fault = true)
    [.call () (.push 5), .run (), .run (), .call () .tryPop, .run (),
      .call () .waitAndPop, .run (), .run ()] (by decide)
  rw [(hAll s hs).noFault] at hFault
  cases hFault

/-- **The removal paths are safe while every waiting call is backed.** In the runs that meet
`Backed`, `wait_and_pop` never reaches `front()` on an empty queue, and the two removal paths
take the pushed values in order, each once. What is excluded is a `try_pop` that takes an
element and leaves its permit: a later `wait_and_pop` gets the permit and finds no element. -/
theorem removals_safe (h : (system τ α).ReachableWhere Backed s) : RemovalsSafe s := by
  have hInv := h.invariant backedInv_init fun _ _ _ _ hI hok hst => backedInv_step hI hok hst
  exact ⟨hInv.noFault, Fifo.pushed_eq (refines_fifo h.reachable),
    fun t s' hst => (returns_removed hst).1, fun t op s' hst => removed_call hst,
    fun t s' hst => (returns_removed hst).2⟩

/-- A `wait_and_pop` and a `try_pop` that share two pushed elements. -/
theorem removals_safe_mixed :
    ∃ s : State Bool Nat, (system Bool Nat).ReachableWhere Backed s ∧ s.removed = [5, 6] ∧
      RemovalsSafe s := by
  have hIdle : ∀ s : State Bool Nat, s.pc true ≠ .waitLock → s.pc false ≠ .waitLock →
      waiting s = 0 := fun s h1 h2 => count_eq_zero fun t => by cases t <;> assumption
  have h0 : (system Bool Nat).ReachableWhere Backed (init Bool Nat) := .init
  have h1 := h0.act (.call true (.push 5)) trivial rfl
  have h2 := h1.act (.run true) trivial rfl
  have h3 := h2.act (.run true) trivial rfl
  have h4 := h3.act (.call true (.push 6)) trivial rfl
  have h5 := h4.act (.run true) trivial rfl
  have h6 := h5.act (.call false .waitAndPop) trivial rfl
  have h7 := h6.act (.run false)
    (by show waiting _ < 2; rw [hIdle _ (by decide) (by decide)]; decide) rfl
  have h8 := h7.act (.run false) trivial rfl
  have h9 := h8.act (.run true) trivial rfl
  have h10 := h9.act (.call true .tryPop) trivial rfl
  have h11 := h10.act (.run true)
    (fun _ => by show waiting _ < 1; rw [hIdle _ (by decide) (by decide)]; decide) rfl
  exact ⟨_, h11, rfl, removals_safe h11⟩

-- ---------------------------------------------------------------------------
-- The condition is exact
-- ---------------------------------------------------------------------------

/-- Once more calls wait than elements are left, the waiting calls alone run into
`front()` on an empty queue. -/
theorem fault_of_waiting_gt (hFin : {t | s.pc t = Pc.waitLock}.Finite) (hOk : s.fault = false)
    (hGt : s.queue.length < waiting s) :
    ∃ (ts : List τ) (s' : State τ α),
      (system τ α).exec s (ts.map Action.run) = some s' ∧ s'.fault = true := by
  induction hq : s.queue generalizing s with
  | nil =>
    obtain ⟨t, hpc⟩ : ∃ t, s.pc t = .waitLock := exists_of_count_pos (Nat.zero_lt_of_lt hGt)
    refine ⟨[t], { s with fault := true }, ?_, rfl⟩
    simp [System.exec_cons, system, step, run, hOk, hpc, hq]
  | cons value rest ih =>
    obtain ⟨t, hpc⟩ : ∃ t, s.pc t = .waitLock := exists_of_count_pos (Nat.zero_lt_of_lt hGt)
    -- thread `t` takes one element, and one call fewer waits for the others
    let s₁ : State τ α := { s.setPc t (.idle (some (.popped value))) with
      queue := rest, removed := s.removed ++ [value] }
    have hStep : (system τ α).step s (.run t) = some s₁ := by
      simp [system, step, run, hOk, hpc, hq, s₁]
    have hLeave := count_update_leave (p := (· = Pc.waitLock)) (f := s.pc) (i := t)
      (b := .idle (some (.popped value))) hFin hpc (by simp)
    have hGt₁ : rest.length < waiting s₁ := by
      simp only [hq, List.length_cons, waiting] at hGt
      simp only [waiting, State.setPc, s₁]
      omega
    obtain ⟨ts, s', hExec, hFault⟩ :=
      ih (s := s₁) (finite_update (p := (· = Pc.waitLock)) hFin) hOk hGt₁ rfl
    exact ⟨t :: ts, s', by rw [List.map_cons, System.exec_cons_of_step hStep, hExec], hFault⟩

/-- **`Backed` leaves out only defective steps.** After a step that breaks it, the
calls that are already waiting can run into `front()` on an empty queue. -/
theorem fault_of_not_backed (h : (system τ α).ReachableWhere Backed s) (hNot : ¬ Backed s a)
    (hst : step s a = some s') :
    ∃ (ts : List τ) (s'' : State τ α),
      (system τ α).exec s' (ts.map Action.run) = some s'' ∧ s''.fault = true := by
  have hInv := h.invariant backedInv_init fun _ _ _ _ hI hok hst => backedInv_step hI hok hst
  have hLe := hInv.le
  simp only [step, hInv.noFault, Bool.false_eq_true, if_false] at hst
  cases a with
  | call t op => exact absurd trivial hNot
  | run t =>
    simp only [run] at hst
    simp only [Backed] at hNot
    split at hst
    case h_4 hpc =>
      -- a `try_pop` takes the last element that a waiting call counted on
      simp only [hpc] at hNot
      split at hst
      · next hq => exact absurd (fun hNe => absurd hq hNe) hNot
      · next value rest hq =>
        cases hst
        refine fault_of_waiting_gt (finite_update (p := (· = Pc.waitLock)) hInv.finite)
          hInv.noFault ?_
        have hSame := count_update_of_iff (p := (· = Pc.waitLock)) (f := s.pc) (i := t)
          (b := .idle (some (.tryPopped (some value)))) (by simp [hpc])
        have hLen : s.queue.length ≤ waiting s := by
          by_contra hlt
          exact hNot fun _ => by omega
        simp only [waiting, State.setPc, hSame] at hLen ⊢
        simp only [hq, List.length_cons] at hLen
        omega
    case h_5 hpc =>
      -- a permit without an element
      simp only [hpc] at hNot
      split at hst <;> cases hst
      refine fault_of_waiting_gt (finite_update (p := (· = Pc.waitLock)) hInv.finite)
        hInv.noFault ?_
      have hEnter := count_update_enter (p := (· = Pc.waitLock)) (f := s.pc) (i := t)
        (b := .waitLock) hInv.finite (by simp [hpc]) rfl
      simp only [waiting, State.setPc, hEnter] at hNot ⊢
      omega
    all_goals (next hpc => exact absurd trivial (by simp [hpc] at hNot))

end EmbLinux.ThreadSafeQueue
