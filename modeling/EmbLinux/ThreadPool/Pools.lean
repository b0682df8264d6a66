import EmbLinux.ThreadPool.Steps

/-!
# EmbLinux — one `JThreadPool` among others

A step belongs to one pool and leaves the others alone: their workers stay where
they are, no task enters their queues, and no call on them loses its notification.
-/

namespace EmbLinux.ThreadPool

variable {ι τ : Type*} [DecidableEq ι] [DecidableEq τ] {size : ι → Nat} {s s' : State ι τ}
  {a : Action ι τ} {w : Worker ι} {p : ι}

/-- The pool that a step belongs to. -/
def Action.pool : Action ι τ → ι
  | .execute _ p => p
  | .notify _ p _ => p
  | .work w _ => w.1
  | .wake w => w.1
  | .destroy p => p

/-- What a step of another pool leaves unchanged. -/
structure PoolFrame (s s' : State ι τ) (p : ι) : Prop where
  pc : ∀ i, s'.pc (p, i) = s.pc (p, i)
  isShutdown : s'.isShutdown p = s.isShutdown p
  destructor : s'.destructor p = s.destructor p
  notifying : ∀ e ∈ s.notifying, e.2 = p → e ∈ s'.notifying
  taskQueue : s.taskQueue p = [] → s'.taskQueue p = []
  localQueues : ∀ i, s.localQueues (p, i) = [] → s'.localQueues (p, i) = []

omit [DecidableEq ι] [DecidableEq τ] in
/-- A step that changes nothing of a pool. -/
theorem PoolFrame.refl (s : State ι τ) (p : ι) : PoolFrame s s p :=
  ⟨fun _ => rfl, rfl, rfl, fun _ he _ => he, id, fun _ => id⟩

section

omit [DecidableEq τ]

/-- A worker leaves the other pools alone. -/
theorem WorkFrame.other (hFrame : WorkFrame s s' w) (hne : w.1 ≠ p) : PoolFrame s s' p := by
  obtain ⟨pc, hpc⟩ := hFrame.pc
  refine ⟨?_, ?_, ?_, ?_, hFrame.taskQueue p, fun i => hFrame.localQueues (p, i)⟩
  · intro i
    have hOther : (p, i) ≠ w := fun hEq => hne (congrArg Prod.fst hEq).symm
    rw [hpc, Function.update_of_ne hOther]
  · rw [hFrame.isShutdown]
  · rw [hFrame.destructor]
  · intro e he _
    rw [hFrame.notifying]
    exact he

/-- An `execute` of another pool leaves this one alone. -/
theorem execute_other {th : Thread ι τ} {q : ι} (hne : q ≠ p)
    (hst : execute size s th q = some s') : PoolFrame s s' p := by
  unfold execute at hst
  split at hst
  · next idx _ =>
    split at hst <;> cases hst
    · exact .refl s p
    · refine ⟨fun _ => rfl, rfl, rfl, fun e he _ => List.mem_cons_of_mem _ he, id, ?_⟩
      intro i hEmpty
      have hOther : (p, i) ≠ (q, idx) := fun hEq => hne (congrArg Prod.fst hEq).symm
      exact (Function.update_of_ne hOther ..).trans hEmpty
  · split at hst
    · split at hst <;> cases hst
      · exact .refl s p
      · refine ⟨fun _ => rfl, rfl, rfl, fun e he _ => List.mem_cons_of_mem _ he, ?_, fun _ => id⟩
        intro hEmpty
        exact (Function.update_of_ne (Ne.symm hne) ..).trans hEmpty
    · cases hst

/-- What `execute` does not drop has yet to be notified. -/
theorem execute_notifies {th : Thread ι τ} (hst : execute size s th p = some s') :
    s' = s ∨ (s.isShutdown p = false ∧ (th, p) ∈ s'.notifying ∧ s'.pc = s.pc) := by
  unfold execute at hst
  split at hst
  · split at hst <;> cases hst
    · exact Or.inl rfl
    · next hUp => exact Or.inr ⟨Bool.eq_false_iff.mpr hUp, List.mem_cons_self, rfl⟩
  · split at hst
    · split at hst <;> cases hst
      · exact Or.inl rfl
      · next hUp => exact Or.inr ⟨Bool.eq_false_iff.mpr hUp, List.mem_cons_self, rfl⟩
    · cases hst

end

/-- The notification of a call on another pool takes none from this one. -/
theorem mem_erase_of_pool {l : List (Thread ι τ × ι)} {th : Thread ι τ} {q : ι} (hne : q ≠ p) :
    ∀ e ∈ l, e.2 = p → e ∈ l.erase (th, q) := by
  intro e he hp
  refine (List.mem_erase_of_ne ?_).mpr he
  rintro rfl
  exact hne hp

/-- a notification, -/
theorem notify_other {th : Thread ι τ} {q : ι} {woken : Option Nat} (hne : q ≠ p)
    (hst : notify size s th q woken = some s') : PoolFrame s s' p := by
  unfold notify at hst
  split at hst
  · split at hst
    · next i =>
      split at hst <;> cases hst
      refine ⟨?_, rfl, rfl, mem_erase_of_pool hne, id, fun _ => id⟩
      intro j
      have hOther : (p, j) ≠ (q, i) := fun hEq => hne (congrArg Prod.fst hEq).symm
      exact Function.update_of_ne hOther ..
    · split at hst <;> cases hst
      exact ⟨fun _ => rfl, rfl, rfl, mem_erase_of_pool hne, id, fun _ => id⟩
  · cases hst

omit [DecidableEq τ] in
/-- and a destructor. -/
theorem destroy_other {q : ι} (hne : q ≠ p) (hst : destroy size s q = some s') :
    PoolFrame s s' p := by
  have hDestructor : ∀ d, Function.update s.destructor q d p = s.destructor p :=
    fun d => Function.update_of_ne (Ne.symm hne) ..
  unfold destroy at hst
  split at hst
  · split at hst <;> cases hst
    exact ⟨fun _ => rfl, Function.update_of_ne (Ne.symm hne) .., hDestructor _,
      fun _ he _ => he, id, fun _ => id⟩
  · cases hst
    refine ⟨?_, rfl, hDestructor _, fun _ he _ => he, id, fun _ => id⟩
    intro i
    exact if_neg fun hAnd => hne hAnd.1.symm
  · next j _ =>
    cases hst
    refine ⟨?_, rfl, hDestructor _, fun _ he _ => he, id, fun _ => id⟩
    intro i
    have hOther : (p, i) ≠ (q, j) := fun hEq => hne (congrArg Prod.fst hEq).symm
    show (if s.pc (q, j) = .asleep then Function.update s.pc (q, j) .relock else s.pc) (p, i) = _
    split
    · exact Function.update_of_ne hOther ..
    · rfl
  · split at hst <;> cases hst
    exact ⟨fun _ => rfl, rfl, hDestructor _, fun _ he _ => he, id, fun _ => id⟩
  · cases hst

/-- A step of one pool leaves the others alone. -/
theorem step_other (hne : a.pool ≠ p) (hst : step size s a = some s') : PoolFrame s s' p := by
  cases a with
  | execute th q =>
    simp only [step] at hst
    split at hst
    · exact execute_other hne hst
    · cases hst
  | notify th q woken => exact notify_other hne hst
  | work w locked =>
    simp only [step] at hst
    split at hst
    · exact (work_frame hst).other hne
    · cases hst
  | wake w =>
    simp only [step] at hst
    split at hst <;> cases hst
    exact (workFrame_setPc _).other hne
  | destroy q => exact destroy_other hne hst

omit [DecidableEq τ] in
/-- The destructor goes on only after it has set `m_is_shutdown`. -/
theorem destroy_shutdown (h : Sync size s) (hst : destroy size s p = some s') :
    s'.isShutdown p = true := by
  unfold destroy at hst
  split at hst
  · split at hst <;> cases hst
    exact Function.update_self ..
  · next hDtor =>
    cases hst
    exact h.shutdown p (by rw [hDtor]; exact nofun)
  · next hDtor =>
    cases hst
    exact h.shutdown p (by rw [hDtor]; exact nofun)
  · next hDtor =>
    split at hst <;> cases hst
    exact h.shutdown p (by rw [hDtor]; exact nofun)
  · cases hst

/-- A pool has a worker, also where `hardware_concurrency` is unknown. -/
theorem poolSize_pos (thread_count : Nat) : 1 ≤ poolSize thread_count := by
  unfold poolSize
  split
  · exact Nat.le_refl 1
  · next hne => exact Nat.one_le_iff_ne_zero.mpr hne

end EmbLinux.ThreadPool
