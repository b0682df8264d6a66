import EmbLinux.ParallelAlgorithms.Chunks
import EmbLinux.Lib.Update
import Mathlib.Data.Finset.Card
import Mathlib.Data.Finset.Range

/-!
# EmbLinux — the tasks of a parallel call

What holds in every state of a call whose chunk arithmetic does not wrap. An element is
`Past` once the task of its chunk has gone over it. `Inv` says where the tasks are: those
of the chunks that the caller submitted so far, each with one worker at most, with its
iterators inside its chunk; that the latch counts the tasks that are not finished; and
that memory holds the results of the elements that are past, and nothing else has changed.
-/

namespace EmbLinux.ParallelAlgorithms

variable {τ α : Type*} {job : Job α} {memory : Nat → α} {s s' : State τ α} {t : τ}
  {i x : Nat}

-- ---------------------------------------------------------------------------
-- Jobs
-- ---------------------------------------------------------------------------

/-- The number of chunks. -/
def Job.chunks (job : Job α) : Nat :=
  (job.distance + job.chunkSize - 1) / job.chunkSize

/-- No task writes an element that another task, or a later element of its own, still has
to read: the results go to the range itself or apart from it, or one task goes over all of
it and writes behind the element that it reads. -/
def Harmless (first distance d_first chunk_size : Nat) : Prop :=
  d_first = first ∨ d_first + distance ≤ first ∨ first + distance ≤ d_first ∨
    (d_first ≤ first ∧ distance ≤ chunk_size)

instance (first distance d_first chunk_size : Nat) :
    Decidable (Harmless first distance d_first chunk_size) :=
  inferInstanceAs (Decidable (_ ∨ _))

/-- The call is in bounds, and its results do not get in its way. -/
structure Job.Ok (job : Job α) : Prop where
  size : 1 ≤ job.chunkSize
  noWrap : job.distance + job.chunkSize - 1 < 2 ^ 64
  apart : Harmless job.first job.distance job.out job.chunkSize

/-- A call that is `Ok` has chunks within bounds. -/
theorem Job.Ok.bounds (h : job.Ok) (hDistance : 1 ≤ job.distance) :
    Bounds job.distance job.chunkSize job.chunks :=
  bounds_of_fits hDistance ⟨h.size, h.noWrap⟩

/-- An empty range has no chunk. -/
theorem Job.Ok.chunks_eq_zero (h : job.Ok) (hDistance : job.distance = 0) : job.chunks = 0 := by
  have hPos := h.size
  unfold Job.chunks
  rw [hDistance, Nat.div_eq_of_lt]
  omega

/-- A call with a chunk has elements. -/
theorem Job.Ok.boundsOf (h : job.Ok) (hi : i < job.chunks) :
    Bounds job.distance job.chunkSize job.chunks := by
  refine h.bounds ?_
  by_contra hNone
  rw [h.chunks_eq_zero (by omega)] at hi
  omega

/-- Every element has a chunk. -/
theorem Job.Ok.div_lt (h : job.Ok) (hx : x < job.distance) : x / job.chunkSize < job.chunks :=
  (h.bounds (by omega)).div_lt hx

/-- The positions of a chunk. -/
def Job.chunk (job : Job α) (i : Nat) : Nat × Nat :=
  (chunkStart job.chunkSize i, chunkEnd job.distance job.chunkSize job.chunks i)

/-- The chunk of an element is found by division, -/
theorem Job.Ok.mem_chunk (h : job.Ok) (hi : i < job.chunks) (hx : x < job.distance) :
    (job.chunk i).1 ≤ x ∧ x < (job.chunk i).2 ↔ x / job.chunkSize = i :=
  (h.boundsOf hi).mem_iff hi hx

/-- and the chunk is inside the range. -/
theorem Job.Ok.chunk_le (h : job.Ok) (hi : i < job.chunks) :
    (job.chunk i).1 ≤ (job.chunk i).2 ∧ (job.chunk i).2 ≤ job.distance := by
  have hBounds := h.boundsOf hi
  have hLt := hBounds.mul_lt hi
  unfold Job.chunk
  rw [hBounds.chunkStart_eq hi, hBounds.chunkEnd_eq hi, Nat.add_mul]
  omega

-- ---------------------------------------------------------------------------
-- Tasks
-- ---------------------------------------------------------------------------

/-- The task of the element at position `x` has gone over it. -/
def Task.Past (first x : Nat) : Task τ → Prop
  | .none | .queued _ => False
  | .running _ it => first + x < it.position
  | .finished => True

/-- The task of the element has gone past it. -/
def Job.Past (job : Job α) (tasks : Nat → Task τ) (x : Nat) : Prop :=
  (tasks (x / job.chunkSize)).Past job.first x

/-- A task goes over the elements of its chunk in order. -/
theorem past_of_le {tasks : Nat → Task τ} {y : Nat} (hLe : x ≤ y)
    (hChunk : x / job.chunkSize = y / job.chunkSize) (h : job.Past tasks y) :
    job.Past tasks x := by
  unfold Job.Past at h ⊢
  rw [hChunk]
  cases hTask : tasks (y / job.chunkSize) with
  | running t it =>
    rw [hTask] at h
    exact Nat.lt_of_le_of_lt (Nat.add_le_add_left hLe _) h
  | finished => trivial
  | _ =>
    rw [hTask] at h
    exact h.elim

/-- The iterators at position `x` of chunk `i`. -/
def Job.iteratorsAt (job : Job α) (i x : Nat) : Iterators :=
  ⟨job.first + x, job.first + (job.chunk i).2, job.out + x⟩

/-- A task has the iterators of its chunk. -/
def Task.Ok (job : Job α) (i : Nat) : Task τ → Prop
  | .none | .finished => True
  | .queued it => it = job.iteratorsAt i (job.chunk i).1
  | .running _ it => ∃ x, (job.chunk i).1 ≤ x ∧ x ≤ (job.chunk i).2 ∧ it = job.iteratorsAt i x

/-- The chunks that the caller has submitted. -/
def State.submitted (job : Job α) (s : State τ α) : Nat :=
  match s.caller with
  | .enter => 0
  | .submit _ i => i
  | .wait _ | .returned => job.chunks

/-- The task has counted down. -/
def Task.isFinished : Task τ → Bool
  | .finished => true
  | _ => false

/-- The chunks whose tasks are not finished. -/
def Job.unfinished (job : Job α) (tasks : Nat → Task τ) : Finset Nat :=
  (Finset.range job.chunks).filter fun i => (tasks i).isFinished = false

/-- The caller's program point fits the number of chunks. -/
def CallerOk (job : Job α) (s : State τ α) : Prop :=
  match s.caller with
  | .enter => True
  | .submit num_chunks i => num_chunks = job.chunks ∧ i ≤ job.chunks ∧
      s.latch = (job.unfinished s.tasks).card
  | .wait num_chunks => num_chunks = job.chunks ∧ s.latch = (job.unfinished s.tasks).card
  | .returned => job.unfinished s.tasks = ∅

/-- What memory holds. -/
structure Written (job : Job α) (memory : Nat → α) (s : State τ α) : Prop where
  /-- A position that a task is past has its result, -/
  past : ∀ x < job.distance, job.Past s.tasks x →
    s.memory (job.out + x) = job.op (memory (job.first + x))
  /-- any other one of the results what was there before, -/
  ahead : ∀ x < job.distance, ¬ job.Past s.tasks x → s.memory (job.out + x) = memory (job.out + x)
  /-- and nothing else is written. -/
  frame : ∀ a, (∀ x < job.distance, a ≠ job.out + x) → s.memory a = memory a
  nodup : s.applied.Nodup
  /-- The function was applied to the elements that the tasks are past. -/
  applied : ∀ x, x ∈ s.applied ↔ x < job.distance ∧ job.Past s.tasks x

/-- The tasks that were submitted are those below the caller's counter, each is at an element of
its own chunk, and the memory is what the elements that are past make of it. -/
structure Inv (job : Job α) (memory : Nat → α) (s : State τ α) : Prop where
  /-- What the caller has seen of the latch. -/
  caller : CallerOk job s
  /-- Chunks have a task once they are submitted, and not before. -/
  later : ∀ i, s.submitted job ≤ i → s.tasks i = .none
  submitted : ∀ i < s.submitted job, s.tasks i ≠ .none
  /-- A task is inside its chunk. -/
  ok : ∀ i, (s.tasks i).Ok job i
  /-- A worker has one task. -/
  busy : ∀ t i, s.busy t = some i ↔ ∃ it, s.tasks i = .running t it
  written : Written job memory s

/-- No more tasks are submitted than there are chunks. -/
theorem State.submitted_le (h : CallerOk job s) : s.submitted job ≤ job.chunks := by
  unfold CallerOk at h
  unfold State.submitted
  split at h <;> simp_all

/-- A task that was submitted is the task of a chunk. -/
theorem Inv.lt_chunks (h : Inv job memory s) (hTask : s.tasks i ≠ .none) : i < job.chunks := by
  by_contra hOut
  exact hTask (h.later i (Nat.le_trans (State.submitted_le h.caller) (Nat.le_of_not_lt hOut)))

/-- A step that leaves every element where it is. -/
theorem Written.keep (h : Written job memory s) (hMemory : s'.memory = s.memory)
    (hApplied : s'.applied = s.applied)
    (hPast : ∀ x < job.distance, job.Past s'.tasks x ↔ job.Past s.tasks x) :
    Written job memory s' := by
  refine ⟨?_, ?_, ?_, ?_, ?_⟩
  · intro x hx hp
    rw [hMemory]
    exact h.past x hx ((hPast x hx).mp hp)
  · intro x hx hp
    rw [hMemory]
    exact h.ahead x hx fun hOld => hp ((hPast x hx).mpr hOld)
  · rw [hMemory]
    exact h.frame
  · rw [hApplied]
    exact h.nodup
  · intro x
    rw [hApplied, h.applied]
    constructor
    · rintro ⟨hx, hp⟩
      exact ⟨hx, (hPast x hx).mpr hp⟩
    · rintro ⟨hx, hp⟩
      exact ⟨hx, (hPast x hx).mp hp⟩

/-- A task that changes without going over an element of its chunk. -/
theorem past_setTask {task : Task τ} {tasks : Nat → Task τ}
    (hSame : ∀ x < job.distance, x / job.chunkSize = i →
      (task.Past job.first x ↔ (tasks i).Past job.first x)) :
    ∀ x < job.distance, job.Past (Function.update tasks i task) x ↔ job.Past tasks x := by
  intro x hx
  unfold Job.Past
  rcases update_at tasks i task (x / job.chunkSize) with ⟨hHere, hNew⟩ | ⟨-, hOther⟩
  · rw [hNew, hHere]
    exact hSame x hx hHere
  · rw [hOther]

/-- Only the end of a task changes the number of unfinished ones, -/
theorem unfinished_update {task : Task τ} {tasks : Nat → Task τ}
    (hSame : task.isFinished = (tasks i).isFinished) :
    job.unfinished (Function.update tasks i task) = job.unfinished tasks := by
  refine Finset.filter_congr ?_
  intro j _
  rw [observe_update (f := tasks) Task.isFinished rfl hSame]

/-- by one, as the latch does. -/
theorem unfinished_finish {tasks : Nat → Task τ} (hi : i < job.chunks)
    (hRunning : (tasks i).isFinished = false) :
    (job.unfinished (Function.update tasks i .finished)).card + 1 =
      (job.unfinished tasks).card := by
  have hMem : i ∈ job.unfinished tasks :=
    Finset.mem_filter.mpr ⟨Finset.mem_range.mpr hi, hRunning⟩
  have hErase : job.unfinished (Function.update tasks i .finished) =
      (job.unfinished tasks).erase i := by
    ext j
    simp only [Job.unfinished, Finset.mem_filter, Finset.mem_range, Finset.mem_erase]
    rcases update_at tasks i .finished j with ⟨rfl, hNew⟩ | ⟨hne, hOther⟩
    · simp [Task.isFinished]
    · rw [hOther]
      simp [hne]
  rw [hErase, Finset.card_erase_add_one hMem]

-- ---------------------------------------------------------------------------
-- The steps of the caller
-- ---------------------------------------------------------------------------

/-- Nothing has been submitted. -/
theorem inv_init (job : Job α) (memory : Nat → α) : Inv job memory (init τ memory) := by
  refine ⟨trivial, fun i _ => rfl, ?_, fun i => trivial, ?_, ?_⟩
  · intro i hi
    exact absurd hi (Nat.not_lt_zero i)
  · intro t i
    simp [init]
  · refine ⟨?_, fun x _ _ => rfl, fun a _ => rfl, List.nodup_nil, ?_⟩
    · intro x _ hPast
      exact hPast.elim
    · intro x
      simp [init, Job.Past, Task.Past]

/-- Before the first task nothing is finished. -/
theorem card_unfinished_start {tasks : Nat → Task τ} (hNone : ∀ i, tasks i = .none) :
    (job.unfinished tasks).card = job.chunks := by
  unfold Job.unfinished
  rw [Finset.filter_true_of_mem, Finset.card_range]
  intro i _
  rw [hNone i]
  rfl

/-- The caller submits the next task, or waits, or returns. -/
theorem inv_call (hOk : job.Ok) (h : Inv job memory s) (hst : call job s = some s') :
    Inv job memory s' := by
  have hCaller := h.caller
  unfold call at hst
  unfold CallerOk at hCaller
  split at hst
  · next hpc =>
    have hNone : ∀ i, s.tasks i = .none := fun i => h.later i (by simp [State.submitted, hpc])
    split at hst
    · next hEmpty =>
      -- no elements, no chunks
      obtain rfl := Option.some.inj hst
      have hZero := hOk.chunks_eq_zero hEmpty
      refine ⟨?_, fun i _ => hNone i, ?_, h.ok, h.busy, h.written.keep rfl rfl fun _ _ => Iff.rfl⟩
      · simp [CallerOk, Job.unfinished, hZero]
      · intro i hi
        simp [State.submitted, hZero] at hi
    · next hElements =>
      rw [numChunks_of_fits (by omega) ⟨hOk.size, hOk.noWrap⟩] at hst
      obtain rfl := Option.some.inj hst
      refine ⟨⟨rfl, Nat.zero_le _, (card_unfinished_start hNone).symm⟩, fun i _ => hNone i, ?_,
        h.ok, h.busy, h.written.keep rfl rfl fun _ _ => Iff.rfl⟩
      intro i hi
      exact absurd hi (Nat.not_lt_zero i)
  · next num_chunks i hpc =>
    rw [hpc] at hCaller
    obtain ⟨rfl, hLe, hLatch⟩ := hCaller
    have hSubmitted : s.submitted job = i := by simp [State.submitted, hpc]
    split at hst
    · next hi =>
      obtain rfl := Option.some.inj hst
      have hNone : s.tasks i = .none := h.later i (Nat.le_of_eq hSubmitted)
      have hPast : ∀ x < job.distance, job.Past
          (Function.update s.tasks i (.queued (job.iterators job.chunks i))) x ↔
            job.Past s.tasks x := by
        refine past_setTask ?_
        intro x _ _
        rw [hNone]
        exact Iff.rfl
      refine ⟨⟨rfl, hi, ?_⟩, ?_, ?_, ?_, ?_, h.written.keep rfl rfl hPast⟩
      · refine hLatch.trans (congrArg Finset.card (unfinished_update ?_).symm)
        rw [hNone]
        rfl
      · intro j hj
        have hj : i + 1 ≤ j := hj
        show Function.update s.tasks i _ j = _
        rw [Function.update_of_ne (by omega)]
        exact h.later j (by omega)
      · intro j hj
        have hj : j < i + 1 := hj
        show Function.update s.tasks i _ j ≠ _
        rcases update_at s.tasks i (.queued (job.iterators job.chunks i)) j with
          ⟨-, hNew⟩ | ⟨hne, hOther⟩
        · rw [hNew]
          simp
        · rw [hOther]
          exact h.submitted j (by omega)
      · intro j
        show (Function.update s.tasks i _ j).Ok job j
        rcases update_at s.tasks i (.queued (job.iterators job.chunks i)) j with
          ⟨hHere, hNew⟩ | ⟨-, hOther⟩
        · rw [hNew, hHere]
          rfl
        · rw [hOther]
          exact h.ok j
      · intro t j
        show s.busy t = some j ↔ ∃ it, Function.update s.tasks i _ j = _
        rw [h.busy]
        rcases update_at s.tasks i (.queued (job.iterators job.chunks i)) j with
          ⟨hHere, hNew⟩ | ⟨-, hOther⟩
        · rw [hNew, hHere, hNone]
          simp
        · rw [hOther]
    · next hLast =>
      obtain rfl := Option.some.inj hst
      obtain rfl : i = job.chunks := by omega
      refine ⟨⟨rfl, hLatch⟩, ?_, ?_, h.ok, h.busy, h.written.keep rfl rfl fun _ _ => Iff.rfl⟩
      · exact fun j hj => h.later j (hSubmitted ▸ hj)
      · exact fun j hj => h.submitted j (hSubmitted ▸ hj)
  · next num_chunks hpc =>
    rw [hpc] at hCaller
    obtain ⟨rfl, hLatch⟩ := hCaller
    have hSubmitted : s.submitted job = job.chunks := by simp [State.submitted, hpc]
    split at hst
    · next hZero =>
      obtain rfl := Option.some.inj hst
      refine ⟨?_, ?_, ?_, h.ok, h.busy, h.written.keep rfl rfl fun _ _ => Iff.rfl⟩
      · exact Finset.card_eq_zero.mp (hLatch.symm.trans hZero)
      · exact fun j hj => h.later j (hSubmitted ▸ hj)
      · exact fun j hj => h.submitted j (hSubmitted ▸ hj)
    · exact absurd hst (by simp)
  · exact absurd hst (by simp)

end EmbLinux.ParallelAlgorithms
