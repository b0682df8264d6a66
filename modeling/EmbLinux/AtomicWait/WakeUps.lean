import EmbLinux.AtomicWait.Model

/-!
# EmbLinux — the wake-ups of `atomic_wait_until`

A waiter blocks while the value equals `old_val`, so it sleeps through nothing if the
predicate is false for `old_val`. The predicate was evaluated on a later load, and the
variable may have changed in between and may change back.

* `woken_in_time` — nobody is left blocked beside a value that the predicate accepts, in
  every run in which the predicate, whenever it is false, is false for `old_val` too;
* `left_blocked_of_accepted` — from any other evaluation one writer that stores `old_val`
  leads to a waiter that is left blocked;
* `left_blocked` — such a run.

A writer stores and then notifies all; `wait` compares and blocks in one step, as the standard
says of it, and may return spuriously.
-/

namespace EmbLinux.AtomicWait

variable {τ α : Type*} [DecidableEq τ] [DecidableEq α] {pred : α → Bool} {value : α}
  {s s' : State τ α} {a : Action τ α} {t : τ}

/-- A waiter that is blocked while no notification is on its way waits for another value. -/
def NoLostWakeUp (pred : α → Bool) (s : State τ α) : Prop :=
  ∀ oldVal, s.pc = .blocked oldVal → (∀ t, s.stored t = false) → pred s.value = false

/-- The step condition: when the predicate is evaluated and is false, it is false for
`old_val`. -/
def RejectsOld (pred : α → Bool) (s : State τ α) : Action τ α → Prop
  | .run => ∀ oldVal, s.pc = .test oldVal → pred s.value = false → pred oldVal = false
  | _ => True

-- ---------------------------------------------------------------------------
-- The invariant
-- ---------------------------------------------------------------------------

/-- The value that the call of `wait` was given. -/
def Pc.waitsFor : Pc α → Option α
  | .check oldVal | .blocked oldVal => some oldVal
  | _ => none

/-- `wait` is called with a value that the predicate rejects, and a blocked waiter has
that value in front of it, or a writer that will notify it. -/
structure Inv (pred : α → Bool) (s : State τ α) : Prop where
  rejected : ∀ oldVal, s.pc.waitsFor = some oldVal → pred oldVal = false
  current : ∀ oldVal, s.pc = .blocked oldVal → s.value = oldVal ∨ ∃ t, s.stored t = true

omit [DecidableEq α] in
/-- Waking up does not change the value that `wait` was given. -/
theorem waitsFor_unblock (pc : Pc α) : pc.unblock.waitsFor = pc.waitsFor := by
  cases pc <;> rfl

omit [DecidableEq α] in
/-- A woken waiter is not blocked. -/
theorem unblock_ne_blocked (pc : Pc α) (oldVal : α) : pc.unblock ≠ .blocked oldVal := by
  cases pc <;> simp [Pc.unblock]

omit [DecidableEq τ] [DecidableEq α] in
/-- A waiter that was woken is not blocked. -/
theorem Inv.unblock (h : Inv pred s) (stored : τ → Bool) :
    Inv pred { s with pc := s.pc.unblock, stored := stored } := by
  refine ⟨?_, ?_⟩
  · intro oldVal hWaits
    exact h.rejected oldVal (by rwa [waitsFor_unblock] at hWaits)
  · intro oldVal hBlocked
    exact absurd hBlocked (unblock_ne_blocked s.pc oldVal)

omit [DecidableEq τ] in
/-- The waiter's own accesses. -/
theorem inv_run (h : Inv pred s) (hok : RejectsOld pred s (Action.run : Action τ α))
    (hst : run pred s = some s') : Inv pred s' := by
  unfold run at hst
  split at hst
  · obtain rfl := Option.some.inj hst
    exact ⟨by simp [Pc.waitsFor], by simp⟩
  · next oldVal hpc =>
    obtain rfl := Option.some.inj hst
    by_cases hPred : pred s.value = true
    · rw [if_pos hPred]
      exact ⟨by simp [Pc.waitsFor], by simp⟩
    · have hRejected : pred oldVal = false := hok oldVal hpc (by simpa using hPred)
      rw [if_neg hPred]
      refine ⟨?_, by simp⟩
      intro old hWaits
      simp only [Pc.waitsFor, Option.some.injEq] at hWaits
      rw [← hWaits]
      exact hRejected
  · next oldVal hpc =>
    obtain rfl := Option.some.inj hst
    have hRejected := h.rejected oldVal (by rw [hpc]; rfl)
    by_cases hSame : s.value = oldVal
    · rw [if_pos hSame]
      refine ⟨?_, ?_⟩
      · intro old hWaits
        simp only [Pc.waitsFor, Option.some.injEq] at hWaits
        rw [← hWaits]
        exact hRejected
      · intro old hBlocked
        rw [Pc.blocked.injEq] at hBlocked
        exact Or.inl (hSame.trans hBlocked)
    · rw [if_neg hSame]
      exact ⟨by simp [Pc.waitsFor], by simp⟩
  · exact absurd hst (by simp)
  · exact absurd hst (by simp)

/-- Each step keeps the invariant; the condition is used at the test that leads to `wait`. -/
theorem inv_step (h : Inv pred s) (hok : RejectsOld pred s a) (hst : step pred s a = some s') :
    Inv pred s' := by
  cases a with
  | run => exact inv_run h hok hst
  | wake =>
    obtain rfl := Option.some.inj hst
    exact h.unblock s.stored
  | store t v =>
    simp only [step] at hst
    split at hst
    · exact absurd hst (by simp)
    · obtain rfl := Option.some.inj hst
      -- the writer will notify
      refine ⟨h.rejected, ?_⟩
      intro oldVal _
      exact Or.inr ⟨t, by simp⟩
  | notifyAll t =>
    simp only [step] at hst
    split at hst
    · obtain rfl := Option.some.inj hst
      exact h.unblock _
    · exact absurd hst (by simp)

omit [DecidableEq τ] [DecidableEq α] in
/-- The contract follows from the invariant alone. -/
theorem Inv.noLostWakeUp (h : Inv pred s) : NoLostWakeUp pred s := by
  intro oldVal hBlocked hNotified
  rcases h.current oldVal hBlocked with hSame | ⟨t, ht⟩
  · rw [hSame]
    exact h.rejected oldVal (by rw [hBlocked]; rfl)
  · rw [hNotified t] at ht
    simp at ht

/-- **No wake-up of `atomic_wait_until` is lost**, for every predicate and any number of
writers, in every run in which the predicate is never false while it is true for `old_val`.
Spurious returns of `wait` are steps of the model. What the condition excludes is the call of
`wait` with a value that `pred` accepts: it sleeps on although the condition holds. -/
theorem woken_in_time (h : (system τ pred value).ReachableWhere (RejectsOld pred) s) :
    NoLostWakeUp pred s := by
  have hInv : Inv pred s := by
    refine h.invariant ⟨by simp [system, Pc.waitsFor], by simp [system]⟩ ?_
    intro s a s' _ hInv hok hst
    exact inv_step hInv hok hst
  exact hInv.noLostWakeUp

-- ---------------------------------------------------------------------------
-- Outside the condition
-- ---------------------------------------------------------------------------

/-- The predicate is false, but true for `old_val`: the waiter goes to `wait`, a writer
stores `old_val` and notifies nobody, and the waiter blocks. -/
theorem left_blocked_of_accepted {oldVal : α} (hpc : s.pc = .test oldVal)
    (hFalse : pred s.value = false) (hAccepted : pred oldVal = true) (t : τ)
    (hNotified : ∀ u, s.stored u = false) :
    ∃ s', (system τ pred value).exec s [.run, .store t oldVal, .notifyAll t, .run] = some s' ∧
      ¬ NoLostWakeUp pred s' := by
  have hIdle := hNotified t
  refine ⟨⟨oldVal, .blocked oldVal, Function.update (Function.update s.stored t true) t false⟩,
    ?_, ?_⟩
  · simp [System.exec_cons, system, step, run, hpc, hFalse, hIdle, Pc.unblock]
  · intro hNone
    have hRejected := hNone oldVal rfl (by
      intro u
      by_cases hut : u = t
      · simp [hut]
      · simp [hut, hNotified u])
    rw [show pred oldVal = false from hRejected] at hAccepted
    simp at hAccepted

/-- A flag that is set, a writer that clears it and sets it again. The waiter loads 1,
finds 0 when it evaluates the predicate, and blocks on 1. -/
theorem left_blocked :
    ∃ s : State Unit Nat, (system Unit (fun v => v == 1) 1).Reachable s ∧
      ¬ NoLostWakeUp (fun v => v == 1) s := by
  obtain ⟨s, hs, hpc, hValue, hStored⟩ := System.exists_reachable_of_exec
    (S := system Unit (fun v => v == 1) 1)
    (p := fun s => s.pc = .blocked 1 ∧ s.value = 1 ∧ s.stored () = false)
    [.run, .store () 0, .run, .notifyAll (), .store () 1, .notifyAll (), .run]
    (by decide)
  refine ⟨s, hs, ?_⟩
  intro hNone
  have hRejected := hNone 1 hpc fun _ => hStored
  simp [hValue] at hRejected

/-- A flag that is set while the waiter goes to `wait`, as in the test. -/
theorem woken_in_time_set :
    ∃ s : State Unit Nat,
      (system Unit (fun v => v == 1) 0).ReachableWhere (RejectsOld fun v => v == 1) s ∧
      s.pc = .returned ∧ NoLostWakeUp (fun v => v == 1) s := by
  have h0 : (system Unit (fun v => v == 1) 0).ReachableWhere (RejectsOld fun v => v == 1) _ := .init
  have h1 := h0.act .run (by simp [RejectsOld, system]) rfl
  have h2 := h1.act .run (by simp [RejectsOld, system]) rfl
  have h3 := h2.act .run (by simp [RejectsOld, system]) rfl
  have h4 := h3.act (.store () 1) trivial rfl
  have h5 := h4.act (.notifyAll ()) trivial rfl
  have h6 := h5.act .run (by simp [RejectsOld, Pc.unblock, system]) rfl
  have h7 := h6.act .run (by simp [RejectsOld, system]) rfl
  have h8 := h7.act .run (by simp [RejectsOld]) rfl
  exact ⟨_, h8, rfl, woken_in_time h8⟩

end EmbLinux.AtomicWait
