import EmbLinux.Lib.Measure
import EmbLinux.ParallelAlgorithms.Tasks
import Mathlib.Data.List.Perm.Basic
import Mathlib.Data.List.Range

/-!
# EmbLinux — every schedule of a parallel call

The workers' steps keep `Inv`, so it holds in every state of a call, whatever tasks the
workers take and however their steps interleave. `parallel_equals_sequential` is what
follows for `parallel_for_each` and `parallel_transform`: the results of the sequential
algorithm, one application to each element, and a caller that goes past the latch after the
last element of the last task only. Some thread can go on until then, and every step brings
the end nearer, so every schedule gets there (`call_ends`).

What a worker does with an element is `Job.op`, of the value that it reads at that moment: that
each element still has its first value then is part of `Inv` and where the ranges must be the
same or apart. `transform_overlap_differs` is a call on other ranges.
-/

namespace EmbLinux.ParallelAlgorithms

variable {τ α : Type*} [DecidableEq τ] {job : Job α} {memory : Nat → α} {s s' : State τ α}
  {t : τ} {i x : Nat}

-- ---------------------------------------------------------------------------
-- The steps of the workers
-- ---------------------------------------------------------------------------

section

omit [DecidableEq τ]

/-- The caller's side is about how many tasks are finished. -/
theorem CallerOk.setTask (h : CallerOk job s) (task : Task τ)
    (hSame : task.isFinished = (s.tasks i).isFinished) (hCaller : s'.caller = s.caller)
    (hLatch : s'.latch = s.latch) (hTasks : s'.tasks = Function.update s.tasks i task) :
    CallerOk job s' := by
  unfold CallerOk at h ⊢
  rw [hCaller, hLatch, hTasks, unfinished_update hSame]
  exact h

/-- The latch counts the task that ends. -/
theorem CallerOk.finish (h : CallerOk job s) (hCaller : s'.caller = s.caller)
    (hCard : (job.unfinished s'.tasks).card + 1 = (job.unfinished s.tasks).card)
    (hLatch : s'.latch = s.latch - 1) : CallerOk job s' := by
  unfold CallerOk at h ⊢
  rw [hCaller, hLatch]
  split
  · trivial
  · next hpc =>
    rw [hpc] at h
    obtain ⟨hNum, hLe, hCount⟩ := h
    exact ⟨hNum, hLe, by omega⟩
  · next hpc =>
    rw [hpc] at h
    obtain ⟨hNum, hCount⟩ := h
    exact ⟨hNum, by omega⟩
  · next hpc =>
    -- the caller has not returned before this task
    rw [hpc] at h
    have hEmpty : job.unfinished s.tasks = ∅ := h
    rw [hEmpty, Finset.card_empty] at hCard
    omega

/-- A task that changes stays one that was submitted. -/
theorem Inv.submitted_setTask (h : Inv job memory s) (task : Task τ) (s' : State τ α)
    (hOld : s.tasks i ≠ .none)
    (hNew : task ≠ .none) (hCaller : s'.caller = s.caller)
    (hTasks : s'.tasks = Function.update s.tasks i task) :
    (∀ j, s'.submitted job ≤ j → s'.tasks j = .none) ∧
      ∀ j < s'.submitted job, s'.tasks j ≠ .none := by
  have hSubmitted : s'.submitted job = s.submitted job := by
    unfold State.submitted
    rw [hCaller]
  rw [hSubmitted, hTasks]
  refine ⟨?_, ?_⟩
  · intro j hj
    rcases update_at s.tasks i task j with ⟨rfl, -⟩ | ⟨-, hOther⟩
    · exact absurd (h.later j hj) hOld
    · rw [hOther]
      exact h.later j hj
  · intro j hj
    rcases update_at s.tasks i task j with ⟨-, hHere⟩ | ⟨-, hOther⟩
    · rw [hHere]
      exact hNew
    · rw [hOther]
      exact h.submitted j hj

/-- A step on one task leaves the others as they were. -/
theorem ok_setTask (h : Inv job memory s) (task : Task τ) (hTask : task.Ok job i)
    (hTasks : s'.tasks = Function.update s.tasks i task) : ∀ j, (s'.tasks j).Ok job j := by
  intro j
  rcases update_cases hTasks j with ⟨rfl, hHere⟩ | ⟨-, hOther⟩
  · rw [hHere]
    exact hTask
  · rw [hOther]
    exact h.ok j

end

/-- A worker takes a task that is submitted and not yet taken. -/
theorem inv_take (hOk : job.Ok) (h : Inv job memory s) (hst : take s t i = some s') :
    Inv job memory s' := by
  unfold take at hst
  split at hst
  · next it hIdle hQueued =>
    obtain rfl := Option.some.inj hst
    have hIt : it = job.iteratorsAt i (job.chunk i).1 := by
      have hTask := h.ok i
      rw [hQueued] at hTask
      exact hTask
    have hi : i < job.chunks := h.lt_chunks (by rw [hQueued]; simp)
    have hSubmitted := h.submitted_setTask (i := i) (.running t it)
      { s.setTask i (.running t it) with busy := Function.update s.busy t (some i) }
      (by rw [hQueued]; simp) (by simp) rfl rfl
    refine ⟨?_, hSubmitted.1, hSubmitted.2, ?_, ?_, ?_⟩
    · exact h.caller.setTask (i := i) (.running t it) (by rw [hQueued]; rfl) rfl rfl rfl
    · refine ok_setTask h (.running t it) ⟨_, Nat.le_refl _, ?_, hIt⟩ rfl
      exact (hOk.chunk_le hi).1
    · -- the worker was idle, and the task with nobody
      intro u j
      show Function.update s.busy t (some i) u = some j ↔ ∃ it', Function.update s.tasks i _ j = _
      rcases update_at s.tasks i (.running t it) j with ⟨rfl, hHere⟩ | ⟨hne, hOther⟩
      · rw [hHere]
        rcases update_at s.busy t (some j) u with ⟨rfl, hBusy⟩ | ⟨hut, hBusy⟩
        · rw [hBusy]
          simp
        · rw [hBusy, h.busy, hQueued]
          simp [Ne.symm hut]
      · rw [hOther]
        rcases update_at s.busy t (some i) u with ⟨rfl, hBusy⟩ | ⟨hut, hBusy⟩
        · rw [hBusy, ← h.busy, hIdle]
          simp [Ne.symm hne]
        · rw [hBusy, h.busy]
    · refine h.written.keep rfl rfl (past_setTask ?_)
      intro y hy hChunk
      have hIn := ((hOk.mem_chunk hi hy).mpr hChunk).1
      rw [hQueued, hIt]
      simp only [Task.Past, Job.iteratorsAt, iff_false, Nat.not_lt]
      omega
  · exact absurd hst (by simp)

omit [DecidableEq τ] in
/-- The element that a task is at, read from memory. -/
theorem Written.read (hOk : job.Ok) (h : Written job memory s) (hx : x < job.distance)
    (hAhead : ¬ job.Past s.tasks x) : s.memory (job.first + x) = memory (job.first + x) := by
  rcases hOk.apart with hSame | hBelow | hAbove | ⟨hBehind, hOne⟩
  · rw [← hSame]
    exact h.ahead x hx hAhead
  · exact h.frame _ fun y hy => by omega
  · exact h.frame _ fun y hy => by omega
  · -- the place was written by a later element of the same task, if at all
    obtain ⟨k, hk⟩ : ∃ k, job.first = job.out + k := Nat.exists_eq_add_of_le hBehind
    rw [show job.first + x = job.out + (x + k) by omega]
    by_cases hIn : x + k < job.distance
    · refine h.ahead (x + k) hIn fun hPast => hAhead (past_of_le (Nat.le_add_right x k) ?_ hPast)
      rw [Nat.div_eq_of_lt (by omega), Nat.div_eq_of_lt (by omega)]
    · exact h.frame _ fun y hy => by omega

omit [DecidableEq τ] in
/-- One more element is past. -/
theorem Written.element (hOk : job.Ok) (h : Written job memory s) (hx : x < job.distance)
    (hAhead : ¬ job.Past s.tasks x)
    (hMemory : s'.memory =
      Function.update s.memory (job.out + x) (job.op (s.memory (job.first + x))))
    (hApplied : s'.applied = s.applied ++ [x])
    (hPast : ∀ y < job.distance, job.Past s'.tasks y ↔ job.Past s.tasks y ∨ y = x) :
    Written job memory s' := by
  rw [h.read hOk hx hAhead] at hMemory
  refine ⟨?_, ?_, ?_, ?_, ?_⟩
  · intro y hy hp
    rw [hMemory]
    by_cases hyx : y = x
    · subst hyx
      rw [Function.update_self]
    · rw [Function.update_of_ne (by omega)]
      exact h.past y hy (((hPast y hy).mp hp).resolve_right hyx)
  · intro y hy hp
    have hNot := fun hOld => hp ((hPast y hy).mpr hOld)
    have hne : y ≠ x := fun hyx => hNot (Or.inr hyx)
    rw [hMemory, Function.update_of_ne (by omega)]
    exact h.ahead y hy fun hOld => hNot (Or.inl hOld)
  · intro a ha
    rw [hMemory, Function.update_of_ne (ha x hx)]
    exact h.frame a ha
  · rw [hApplied]
    refine List.nodup_append.mpr ⟨h.nodup, List.nodup_singleton x, ?_⟩
    intro a ha b hb hab
    rw [List.mem_singleton] at hb
    subst hab hb
    exact hAhead ((h.applied a).mp ha).2
  · intro y
    rw [hApplied, List.mem_append, List.mem_singleton, h.applied]
    constructor
    · rintro (⟨hy, hp⟩ | rfl)
      · exact ⟨hy, (hPast y hy).mpr (Or.inl hp)⟩
      · exact ⟨hx, (hPast y hx).mpr (Or.inr rfl)⟩
    · rintro ⟨hy, hp⟩
      exact ((hPast y hy).mp hp).imp_left fun hOld => ⟨hy, hOld⟩

/-- `count_down`, after the last element of the chunk. -/
theorem inv_finish (hOk : job.Ok) (h : Inv job memory s) (hBusy : s.busy t = some i)
    (hTask : s.tasks i = .running t (job.iteratorsAt i (job.chunk i).2)) :
    Inv job memory { s.setTask i .finished with
      busy := Function.update s.busy t none
      latch := s.latch - 1 } := by
  have hi : i < job.chunks := h.lt_chunks (by rw [hTask]; simp)
  have hRunning : (s.tasks i).isFinished = false := by rw [hTask]; rfl
  have hCard := unfinished_finish hi hRunning
  have hSubmitted := h.submitted_setTask (i := i) .finished
    { s.setTask i .finished with
      busy := Function.update s.busy t none
      latch := s.latch - 1 } (by rw [hTask]; simp) (by simp) rfl rfl
  refine ⟨?_, hSubmitted.1, hSubmitted.2, ok_setTask h (i := i) .finished trivial rfl,
    ?_, ?_⟩
  · exact h.caller.finish rfl hCard rfl
  · intro u j
    show Function.update s.busy t none u = some j ↔ ∃ it, Function.update s.tasks i _ j = _
    rcases update_at s.busy t none u with ⟨rfl, hNone⟩ | ⟨hut, hSame⟩
    · rw [hNone]
      rcases update_at s.tasks i .finished j with ⟨rfl, hHere⟩ | ⟨hne, hOther⟩
      · rw [hHere]
        simp
      · rw [hOther, ← h.busy, hBusy]
        simp [Ne.symm hne]
    · rw [hSame, h.busy]
      rcases update_at s.tasks i .finished j with ⟨rfl, hHere⟩ | ⟨-, hOther⟩
      · rw [hHere, hTask]
        simp [Ne.symm hut]
      · rw [hOther]
  · refine h.written.keep rfl rfl (past_setTask ?_)
    intro y hy hChunk
    have hIn := ((hOk.mem_chunk hi hy).mpr hChunk).2
    rw [hTask]
    simp only [Task.Past, Job.iteratorsAt, true_iff]
    omega

omit [DecidableEq τ] in
/-- One element. -/
theorem inv_element (hOk : job.Ok) (h : Inv job memory s) (hBusy : s.busy t = some i)
    (hTask : s.tasks i = .running t (job.iteratorsAt i x)) (hFrom : (job.chunk i).1 ≤ x)
    (hTo : x < (job.chunk i).2) :
    Inv job memory { s.setTask i (.running t (job.iteratorsAt i (x + 1))) with
      memory := Function.update s.memory (job.out + x) (job.op (s.memory (job.first + x)))
      applied := s.applied ++ [x] } := by
  have hi : i < job.chunks := h.lt_chunks (by rw [hTask]; simp)
  have hx : x < job.distance := Nat.lt_of_lt_of_le hTo (hOk.chunk_le hi).2
  have hChunk : x / job.chunkSize = i := (hOk.mem_chunk hi hx).mp ⟨hFrom, hTo⟩
  have hSubmitted := h.submitted_setTask (i := i)
    (.running t (job.iteratorsAt i (x + 1)))
    { s.setTask i (.running t (job.iteratorsAt i (x + 1))) with
      memory := Function.update s.memory (job.out + x) (job.op (s.memory (job.first + x)))
      applied := s.applied ++ [x] } (by rw [hTask]; simp) (by simp) rfl rfl
  refine ⟨?_, hSubmitted.1, hSubmitted.2, ?_, ?_, ?_⟩
  · exact h.caller.setTask (i := i) (.running t (job.iteratorsAt i (x + 1)))
      (by rw [hTask]; rfl) rfl rfl rfl
  · exact ok_setTask h (.running t _) ⟨x + 1, by omega, hTo, rfl⟩ rfl
  · intro u j
    show s.busy u = some j ↔ ∃ it, Function.update s.tasks i _ j = _
    rw [h.busy]
    rcases update_at s.tasks i (.running t (job.iteratorsAt i (x + 1))) j with
      ⟨rfl, hHere⟩ | ⟨-, hOther⟩
    · rw [hHere, hTask]
      simp
    · rw [hOther]
  · refine h.written.element hOk hx ?_ rfl rfl ?_
    · unfold Job.Past
      rw [hChunk, hTask]
      exact Nat.lt_irrefl _
    · intro y hy
      unfold Job.Past
      show Task.Past job.first y (Function.update s.tasks i _ (y / job.chunkSize)) ↔ _
      rcases update_at s.tasks i (.running t (job.iteratorsAt i (x + 1))) (y / job.chunkSize) with
        ⟨hHere, hNew⟩ | ⟨hne, hOther⟩
      · rw [hNew, hHere, hTask]
        simp only [Task.Past, Job.iteratorsAt]
        omega
      · have hyx : y ≠ x := fun hEq => hne (hEq ▸ hChunk)
        rw [hOther]
        simp [hyx]

/-- A worker works on its task: one element, or the `count_down` at its end. -/
theorem inv_work (hOk : job.Ok) (h : Inv job memory s) (hst : work job s t = some s') :
    Inv job memory s' := by
  unfold work at hst
  split at hst
  · exact absurd hst (by simp)
  · next i hBusy =>
    obtain ⟨it, hTask⟩ := (h.busy t i).mp hBusy
    obtain ⟨x, hFrom, hTo, rfl⟩ : ∃ x, (job.chunk i).1 ≤ x ∧ x ≤ (job.chunk i).2 ∧
        it = job.iteratorsAt i x := by
      have hOkTask := h.ok i
      rw [hTask] at hOkTask
      exact hOkTask
    rw [hTask] at hst
    dsimp only at hst
    split at hst
    · next hEnd =>
      obtain rfl := Option.some.inj hst
      obtain rfl : x = (job.chunk i).2 := Nat.add_left_cancel hEnd
      exact inv_finish hOk h hBusy hTask
    · next hEnd =>
      obtain rfl := Option.some.inj hst
      have hLt : x < (job.chunk i).2 := by
        refine Nat.lt_of_le_of_ne hTo ?_
        rintro rfl
        exact hEnd rfl
      have hNext := inv_element hOk h hBusy hTask hFrom hLt
      rw [show (job.iteratorsAt i x).position - job.first = x from Nat.add_sub_cancel_left ..]
      exact hNext

/-- A case for each action. -/
theorem inv_step {a : Action τ} (hOk : job.Ok) (h : Inv job memory s)
    (hst : step job s a = some s') : Inv job memory s' := by
  cases a with
  | call => exact inv_call hOk h hst
  | take t i => exact inv_take hOk h hst
  | work t => exact inv_work hOk h hst

/-- In every state of a call that is `Ok`. -/
theorem inv_reachable (hOk : job.Ok) (h : (system τ job memory).Reachable s) :
    Inv job memory s := by
  refine h.invariant (inv_init job memory) ?_
  intro s a s' _ hInv _ hst
  exact inv_step hOk hInv hst

-- ---------------------------------------------------------------------------
-- The sequential algorithm
-- ---------------------------------------------------------------------------

variable {first distance d_first chunk_size : Nat} {op : α → α}

/-- The sequential algorithm goes from front to back. -/
theorem transform_succ (first d_first n : Nat) (op : α → α) (memory : Nat → α) :
    transform first (n + 1) d_first op memory =
      Function.update (transform first n d_first op memory) (d_first + n)
        (op (transform first n d_first op memory (first + n))) := by
  unfold transform
  rw [List.range_succ, List.foldl_append]
  rfl

/-- After `n` elements of the sequential loop these have their results, and nothing else has
changed: no element is read that was written before. -/
theorem transform_spec (hApart : Harmless first distance d_first chunk_size) {n : Nat}
    (hn : n ≤ distance) :
    (∀ y < n, transform first n d_first op memory (d_first + y) = op (memory (first + y))) ∧
      ∀ a, (∀ y < n, a ≠ d_first + y) → transform first n d_first op memory a = memory a := by
  induction n with
  | zero =>
    refine ⟨?_, fun a _ => rfl⟩
    intro y hy
    omega
  | succ n ih =>
    obtain ⟨hPast, hFrame⟩ := ih (by omega)
    have hRead : transform first n d_first op memory (first + n) = memory (first + n) := by
      refine hFrame _ ?_
      intro y hy
      unfold Harmless at hApart
      omega
    rw [transform_succ, hRead]
    refine ⟨?_, ?_⟩
    · intro y hy
      by_cases hyn : y = n
      · subst hyn
        rw [Function.update_self]
      · rw [Function.update_of_ne (by omega)]
        exact hPast y (by omega)
    · intro a ha
      rw [Function.update_of_ne (ha n (Nat.lt_succ_self n))]
      exact hFrame a fun y hy => ha y (by omega)

-- ---------------------------------------------------------------------------
-- The end of a call
-- ---------------------------------------------------------------------------

section

omit [DecidableEq τ]

/-- There is one way to be finished. -/
theorem Task.eq_finished {task : Task τ} (h : task.isFinished = true) : task = .finished := by
  cases task <;> simp_all [Task.isFinished]

/-- When the latch has let the caller go, all tasks are finished. -/
theorem Inv.finished (h : Inv job memory s) (hReturned : s.caller = .returned)
    (hi : i < job.chunks) : s.tasks i = .finished := by
  have hCaller := h.caller
  unfold CallerOk at hCaller
  rw [hReturned] at hCaller
  refine Task.eq_finished ?_
  by_contra hNot
  have hMem : i ∈ job.unfinished s.tasks :=
    Finset.mem_filter.mpr ⟨Finset.mem_range.mpr hi, by simpa using hNot⟩
  rw [show job.unfinished s.tasks = ∅ from hCaller] at hMem
  simp at hMem

/-- When the caller has returned, every element was worked on. -/
theorem Inv.all_past (hOk : job.Ok) (h : Inv job memory s) (hReturned : s.caller = .returned)
    (hx : x < job.distance) : job.Past s.tasks x := by
  unfold Job.Past
  rw [h.finished hReturned (hOk.div_lt hx)]
  trivial

end

/-- Before the caller has returned some thread can go on, if the pool has a worker. -/
theorem Inv.not_blocked [Nonempty τ] (hOk : job.Ok) (h : Inv job memory s)
    (hRunning : s.caller ≠ .returned) : ∃ a, (step job s a).isSome = true := by
  have hCaller := h.caller
  unfold CallerOk at hCaller
  cases hpc : s.caller with
  | enter =>
    refine ⟨.call, ?_⟩
    by_cases hEmpty : job.distance = 0
    · simp [step, call, hpc, hEmpty]
    · simp [step, call, hpc, hEmpty, numChunks_of_fits (Nat.pos_of_ne_zero hEmpty)
        ⟨hOk.size, hOk.noWrap⟩]
  | submit num_chunks i =>
    refine ⟨.call, ?_⟩
    by_cases hi : i < num_chunks <;> simp [step, call, hpc, hi]
  | wait num_chunks =>
    rw [hpc] at hCaller
    obtain ⟨rfl, hLatch⟩ := hCaller
    by_cases hZero : s.latch = 0
    · exact ⟨.call, by simp [step, call, hpc, hZero]⟩
    -- a task is not finished: a worker runs it, or any worker that is idle takes it
    obtain ⟨i, hi⟩ := Finset.card_pos.mp (Nat.pos_of_ne_zero (hLatch ▸ hZero))
    obtain ⟨hRange, hNot⟩ := Finset.mem_filter.mp hi
    have hSubmitted := h.submitted i (by simpa [State.submitted, hpc] using hRange)
    have hWork : ∀ t j, s.busy t = some j → ∃ a, (step job s a).isSome = true := by
      intro t j hBusy
      obtain ⟨it, hTask⟩ := (h.busy t j).mp hBusy
      refine ⟨.work t, ?_⟩
      by_cases hEnd : it.position = it.stop <;> simp [step, work, hBusy, hTask, hEnd]
    cases hTask : s.tasks i with
    | none => exact absurd hTask hSubmitted
    | running t it => exact hWork t i ((h.busy t i).mpr ⟨it, hTask⟩)
    | finished => simp [hTask, Task.isFinished] at hNot
    | queued it =>
      obtain ⟨t⟩ := ‹Nonempty τ›
      cases hBusy : s.busy t with
      | some j => exact hWork t j hBusy
      | none => exact ⟨.take t i, by simp [step, take, hBusy, hTask]⟩
  | returned => exact absurd hpc hRunning

-- ---------------------------------------------------------------------------
-- The contract
-- ---------------------------------------------------------------------------

/-- What a call on the `distance` elements from `first` on, with results from `d_first` on,
has done and will do in a state of it, in which the steps of `next` are possible. The
contract speaks of the arguments of the call, not of what the algorithms make of them. -/
structure Contract (first distance d_first : Nat) (op : α → α) (chunk_size : Nat)
    (next : Action τ → Option (State τ α)) (memory : Nat → α) (s : State τ α) : Prop where
  /-- The results, and nothing else. -/
  result : s.caller = .returned →
    ∀ x < distance, s.memory (d_first + x) = op (memory (first + x))
  frame : ∀ a, (∀ x < distance, a ≠ d_first + x) → s.memory a = memory a
  sequential : s.caller = .returned → s.memory = transform first distance d_first op memory
  /-- The function is applied to every element once. -/
  atMostOnce : s.applied.Nodup
  once : s.caller = .returned → s.applied.Perm (List.range distance)
  /-- The caller goes past the latch after the last `count_down` only: the task of every
  chunk is finished, and there are no other tasks. -/
  latch : s.caller = .returned → ∀ i,
    s.tasks i = if i < (distance + chunk_size - 1) / chunk_size then .finished else .none
  goesOn : Nonempty τ → s.caller ≠ .returned → ∃ a, (next a).isSome = true

/-- The contract for a job; the two algorithms are jobs. -/
theorem contract_reachable (hOk : job.Ok) (h : (system τ job memory).Reachable s) :
    Contract job.first job.distance job.out job.op job.chunkSize (step job s) memory s := by
  have hInv := inv_reachable hOk h
  have hResult : s.caller = .returned →
      ∀ x < job.distance, s.memory (job.out + x) = job.op (memory (job.first + x)) := by
    intro hReturned x hx
    exact hInv.written.past x hx (hInv.all_past hOk hReturned hx)
  refine ⟨hResult, hInv.written.frame, ?_, hInv.written.nodup, ?_, ?_, ?_⟩
  · intro hReturned
    have hSpec : (∀ y < job.distance, transform job.first job.distance job.out job.op memory
          (job.out + y) = job.op (memory (job.first + y))) ∧
        ∀ a, (∀ y < job.distance, a ≠ job.out + y) →
          transform job.first job.distance job.out job.op memory a = memory a :=
      transform_spec hOk.apart (Nat.le_refl _)
    obtain ⟨hPast, hFrame⟩ := hSpec
    funext a
    by_cases hOut : ∃ x < job.distance, a = job.out + x
    · obtain ⟨x, hx, rfl⟩ := hOut
      rw [hResult hReturned x hx, hPast x hx]
    · push Not at hOut
      rw [hInv.written.frame a hOut, hFrame a hOut]
  · intro hReturned
    refine (List.perm_ext_iff_of_nodup hInv.written.nodup List.nodup_range).mpr ?_
    intro x
    rw [hInv.written.applied, List.mem_range]
    constructor
    · exact And.left
    · exact fun hx => ⟨hx, hInv.all_past hOk hReturned hx⟩
  · intro hReturned i
    by_cases hi : i < job.chunks
    · rw [hInv.finished hReturned hi]
      exact (if_pos hi).symm
    · rw [hInv.later i (by simp [State.submitted, hReturned]; omega)]
      exact (if_neg hi).symm
  · intro _ hRunning
    exact hInv.not_blocked hOk hRunning

/-- The contract of `parallel_for_each(first, first + distance, f, chunk_size)`. -/
abbrev ForEachContract (first distance : Nat) (f : α → α) (chunk_size : Nat) (memory : Nat → α)
    (s : State τ α) : Prop :=
  Contract first distance first f chunk_size
    (step (parallelForEach first distance f chunk_size) s) memory s

/-- The contract of `parallel_transform(first, first + distance, d_first, op, chunk_size)`. -/
abbrev TransformContract (first distance d_first : Nat) (op : α → α) (chunk_size : Nat)
    (memory : Nat → α) (s : State τ α) : Prop :=
  Contract first distance d_first op chunk_size
    (step (parallelTransform first distance d_first op chunk_size) s) memory s

/-- **The parallel algorithms are the sequential ones**, for every range and every chunk
size whose arithmetic does not wrap, any number of workers and every interleaving: for the
range of `parallel_for_each`, and for an output range of `parallel_transform` that is
`Harmless`. The ranges that this leaves out overlap without being the same, so that a result
takes the place of an element that is still to be read. -/
theorem parallel_equals_sequential {first distance chunk_size : Nat} (hSize : 1 ≤ chunk_size)
    (hNoWrap : distance + chunk_size - 1 < 2 ^ 64) (f : α → α) (memory : Nat → α) :
    (∀ s : State τ α,
      (system τ (parallelForEach first distance f chunk_size) memory).Reachable s →
      ForEachContract first distance f chunk_size memory s) ∧
    ∀ d_first, Harmless first distance d_first chunk_size → ∀ s : State τ α,
      (system τ (parallelTransform first distance d_first f chunk_size) memory).Reachable s →
      TransformContract first distance d_first f chunk_size memory s :=
  ⟨fun _ h => contract_reachable ⟨hSize, hNoWrap, Or.inl rfl⟩ h,
    fun _ hApart _ h => contract_reachable ⟨hSize, hNoWrap, hApart⟩ h⟩

/-- Three elements in chunks of two, in place, and two workers: the second chunk is done
first. -/
theorem parallel_equals_sequential_three :
    ∃ s : State Bool Nat,
      (system Bool (parallelTransform 5 3 5 (· * 10) 2) (fun a => a)).Reachable s ∧
      s.caller = .returned ∧ s.applied = [2, 0, 1] ∧
      TransformContract 5 3 5 (· * 10) 2 (fun a => a) s := by
  obtain ⟨s, hs, hp⟩ := System.exists_reachable_of_exec
    (S := system Bool (parallelTransform 5 3 5 (· * 10) 2) (fun a => a))
    (p := fun s => s.caller = .returned ∧ s.applied = [2, 0, 1])
    [.call, .call, .call, .take true 0, .take false 1, .work false, .call, .work true,
      .work false, .work true, .work true, .call]
    (by decide +kernel)
  exact ⟨s, hs, hp.1, hp.2,
    (parallel_equals_sequential (by decide) (by decide) (· * 10) fun a => a).2 5 (Or.inl rfl) s hs⟩

/-- Two elements at 5 and 6 and results one place on, in one chunk: the second element is
the first result. With results one place back and chunks of one element, the second task
writes the first element before the first task reads it. -/
theorem transform_overlap_differs :
    (¬ ∀ s : State Bool Nat,
      (system Bool (parallelTransform 5 2 6 (· * 10) 2) (fun a => a)).Reachable s →
      TransformContract 5 2 6 (· * 10) 2 (fun a => a) s) ∧
    ¬ ∀ s : State Bool Nat,
      (system Bool (parallelTransform 5 2 4 (· * 10) 1) (fun a => a)).Reachable s →
      TransformContract 5 2 4 (· * 10) 1 (fun a => a) s := by
  constructor
  · intro hAll
    obtain ⟨s, hs, hReturned, hMemory⟩ := System.exists_reachable_of_exec
      (S := system Bool (parallelTransform 5 2 6 (· * 10) 2) (fun a => a))
      (p := fun s => s.caller = .returned ∧ s.memory 7 = 500)
      [.call, .call, .call, .take true 0, .work true, .work true, .work true, .call]
      (by decide +kernel)
    have hResult : s.memory 7 = 60 := (hAll s hs).result hReturned 1 (by decide)
    omega
  · intro hAll
    obtain ⟨s, hs, hReturned, hMemory⟩ := System.exists_reachable_of_exec
      (S := system Bool (parallelTransform 5 2 4 (· * 10) 1) (fun a => a))
      (p := fun s => s.caller = .returned ∧ s.memory 4 = 600)
      [.call, .call, .call, .call, .take true 1, .work true, .work true, .take true 0, .work true,
        .work true, .call]
      (by decide +kernel)
    have hResult : s.memory 4 = 50 := (hAll s hs).result hReturned 0 (by decide)
    omega

-- ---------------------------------------------------------------------------
-- The length of a call
-- ---------------------------------------------------------------------------

/-- The steps that are left to the caller, at its program point. -/
def Caller.rank : Caller → Nat
  | .enter => 3
  | .submit .. => 2
  | .wait _ => 1
  | .returned => 0

/-- The steps that are left of a task of a chunk of `length` elements. -/
def Task.remaining (length : Nat) : Task τ → Nat
  | .none => length + 3
  | .queued _ => length + 2
  | .running _ it => it.stop - it.position + 1
  | .finished => 0

/-- How many steps are left, of the caller and of all tasks. -/
def Job.remaining (job : Job α) (s : State τ α) : Nat :=
  s.caller.rank + ∑ i ∈ Finset.range job.chunks,
    (s.tasks i).remaining ((job.chunk i).2 - (job.chunk i).1)

omit [DecidableEq τ] in
/-- A task goes on, whatever the caller does. -/
theorem remaining_setTask {task : Task τ} (hi : i < job.chunks)
    (hTask : task.remaining ((job.chunk i).2 - (job.chunk i).1) <
      (s.tasks i).remaining ((job.chunk i).2 - (job.chunk i).1))
    (hCaller : s'.caller.rank ≤ s.caller.rank)
    (hTasks : s'.tasks = Function.update s.tasks i task) : job.remaining s' < job.remaining s := by
  have hSum := sum_update_lt (m := fun j (task : Task τ) =>
    task.remaining ((job.chunk j).2 - (job.chunk j).1)) hTasks hi hTask
  exact Nat.add_lt_add_of_le_of_lt hCaller hSum

omit [DecidableEq τ] in
/-- A step of the caller makes it less. -/
theorem remaining_caller (hCaller : s'.caller.rank < s.caller.rank) (hTasks : s'.tasks = s.tasks) :
    job.remaining s' < job.remaining s := by
  unfold Job.remaining
  rw [hTasks]
  omega

/-- Every step of a call brings its end nearer, so no schedule has more than
`job.remaining` steps. -/
theorem remaining_lt {a : Action τ} (h : Inv job memory s)
    (hst : step job s a = some s') : job.remaining s' < job.remaining s := by
  cases a with
  | call =>
    have hCaller := h.caller
    simp only [step, call] at hst
    unfold CallerOk at hCaller
    split at hst
    · next hpc =>
      split at hst
      · obtain rfl := Option.some.inj hst
        exact remaining_caller (by rw [hpc]; simp [Caller.rank]) rfl
      · split at hst
        · exact absurd hst (by simp)
        · obtain rfl := Option.some.inj hst
          exact remaining_caller (by rw [hpc]; simp [Caller.rank]) rfl
    · next num_chunks i hpc =>
      rw [hpc] at hCaller
      obtain ⟨rfl, -, -⟩ := hCaller
      split at hst
      · next hi =>
        obtain rfl := Option.some.inj hst
        have hNone : s.tasks i = .none := h.later i (by simp [State.submitted, hpc])
        exact remaining_setTask (i := i) hi (by rw [hNone]; simp [Task.remaining])
          (by rw [hpc]; exact Nat.le_refl _) rfl
      · obtain rfl := Option.some.inj hst
        exact remaining_caller (by rw [hpc]; simp [Caller.rank]) rfl
    · next hpc =>
      split at hst
      · obtain rfl := Option.some.inj hst
        exact remaining_caller (by rw [hpc]; simp [Caller.rank]) rfl
      · exact absurd hst (by simp)
    · exact absurd hst (by simp)
  | take t i =>
    simp only [step, take] at hst
    split at hst
    · next it _ hQueued =>
      obtain rfl := Option.some.inj hst
      have hi := h.lt_chunks (i := i) (by rw [hQueued]; simp)
      have hTask := h.ok i
      rw [hQueued] at hTask
      obtain rfl : it = job.iteratorsAt i (job.chunk i).1 := hTask
      refine remaining_setTask (i := i) hi ?_ (Nat.le_refl _) rfl
      rw [hQueued]
      simp only [Task.remaining, Job.iteratorsAt]
      omega
    · exact absurd hst (by simp)
  | work t =>
    simp only [step, work] at hst
    split at hst
    · exact absurd hst (by simp)
    · next i hBusy =>
      obtain ⟨it, hTask⟩ := (h.busy t i).mp hBusy
      have hi := h.lt_chunks (i := i) (by rw [hTask]; simp)
      have hOkTask := h.ok i
      rw [hTask] at hst hOkTask
      obtain ⟨x, -, hTo, rfl⟩ := hOkTask
      dsimp only at hst
      split at hst
      · obtain rfl := Option.some.inj hst
        exact remaining_setTask (i := i) hi (by rw [hTask]; simp [Task.remaining]) (Nat.le_refl _)
          rfl
      · next hEnd =>
        obtain rfl := Option.some.inj hst
        have hNe : x ≠ (job.chunk i).2 := by
          rintro rfl
          exact hEnd rfl
        refine remaining_setTask (i := i) hi ?_ (Nat.le_refl _) rfl
        rw [hTask]
        simp only [Task.remaining, Job.iteratorsAt]
        omega

/-- A schedule that cannot be continued is a complete one: the caller has returned. -/
theorem call_ends [Nonempty τ] (hOk : job.Ok) {as : List (Action τ)}
    (he : (system τ job memory).exec (system τ job memory).init as = some s) :
    as.length ≤ job.remaining (init τ memory) ∧
      ((∀ a, step job s a = none) → s.caller = .returned) := by
  have hReached := System.Reachable.exec .init he
  have hInv := inv_reachable hOk hReached
  refine ⟨?_, ?_⟩
  · have hLength := System.Reachable.length_le (m := job.remaining)
      (fun s a s' hs hst => remaining_lt (inv_reachable hOk hs) hst) .init he
    exact Nat.le_trans (Nat.le_add_right _ _) hLength
  · intro hStuck
    by_contra hRunning
    obtain ⟨a, ha⟩ := hInv.not_blocked hOk hRunning
    rw [hStuck a] at ha
    simp at ha

end EmbLinux.ParallelAlgorithms
