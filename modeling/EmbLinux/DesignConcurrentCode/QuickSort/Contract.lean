import EmbLinux.DesignConcurrentCode.QuickSort.Schedules

/-!
# EmbLinux — the contract of `parallel_quick_sort`

Any thread that sorts a chunk may start a worker, and then tests the size of the vector
`threads` and puts the worker into it. The vector has no lock, and the new worker runs before
it is in the vector: it may pop a chunk and be at the same test while the `push_back` still
goes on (`quick_sort_races`).

* `Orderly` — the vector has been accessed by one thread at a time. It is proved of the runs
  whose steps are `Alone`; the destructor needs no condition (`Inv.no_append`);
* `quick_sort_sorts` — in these runs the call returns the elements in order, every chunk is
  sorted once, and the threads never all wait for each other;
* `race_of_not_alone` — a step that is not `Alone` is a data race.

A race is an access to `threads` during the `push_back` of another thread; everything else the
threads share is behind the mutex of the stack of chunks or in a future. Accesses are in a
sequentially consistent order, in which a race is two accesses that overlap.
-/

namespace EmbLinux.DesignConcurrentCode.QuickSort

variable {α : Type*} {lt : α → α → Prop} {input : List α} {s s' : State α} {t : Nat}
  {control : Control α} {frames : List (Frame α)}

-- ---------------------------------------------------------------------------
-- The vector of the threads
-- ---------------------------------------------------------------------------

/-- The thread is inside `threads.push_back`. -/
def Control.isAppending : Control α → Bool
  | .spawn (.appending _) _ _ _ => true
  | _ => false

/-- The thread looks at `threads.size()` next, or begins a `push_back`. -/
def Control.usesThreads : Control α → Bool
  | .spawn .test _ _ _ | .spawn (.append _) _ _ _ => true
  | _ => false

/-- The step condition: a thread looks at the vector, or begins a `push_back`, only while no
thread is inside a `push_back`. -/
def Alone (s : State α) (t : Nat) : Prop :=
  (s.thread t).control.usesThreads = true → s.appending = none

instance (s : State α) (t : Nat) : Decidable (Alone s t) :=
  inferInstanceAs (Decidable (_ → _))

/-- Whoever is noted to be inside a `push_back` is, and there was no data race. -/
structure Orderly (s : State α) : Prop where
  inside : ∀ t, s.appending = some t → (s.thread t).control.isAppending = true
  noRace : s.race = false

/-- The vector is empty and nobody has looked at it. -/
theorem orderly_init (input : List α) : Orderly (init input) :=
  ⟨nofun, rfl⟩

/-- A step of another place than the end of a `push_back`. -/
theorem Orderly.move (h : Orderly s) (hAppending : s'.appending = s.appending)
    (hRace : s'.race = s.race)
    (hThread : ∀ u, (s.thread u).control.isAppending = true → s'.thread u = s.thread u) :
    Orderly s' := by
  refine ⟨?_, hRace.trans h.noRace⟩
  intro u hu
  have hIn := h.inside u (hAppending ▸ hu)
  rw [hThread u hIn]
  exact hIn

/-- A step of a thread outside of `push_back` that does not touch the vector. -/
theorem Orderly.setThread (h : Orderly s) (hOut : (s.thread t).control.isAppending = false) :
    Orderly (s.setThread t control frames) := by
  refine h.move rfl rfl fun u hu => Function.update_of_ne ?_ _ _
  rintro rfl
  rw [hOut] at hu
  cases hu

/-- Whoever is inside a `push_back` is sorting a chunk, unless it is thread 0. -/
theorem Inv.no_append {v : List α} (hInv : Inv lt input s) (h : Orderly s)
    (hReturned : Returned s v) : s.appending = none := by
  by_contra hSome
  obtain ⟨u, hu⟩ := Option.ne_none_iff_exists'.mp hSome
  have hIn := h.inside u hu
  have hOk := hInv.threads u
  unfold ThreadOk at hOk
  cases hControl : (s.thread u).control with
  | spawn stage pivot lower higher =>
    rw [hControl] at hOk
    have hne : u ≠ 0 := by
      rintro rfl
      obtain ⟨-, hRet | hJoining | hFinished⟩ := hReturned
      · exact absurd (hControl.symm.trans hRet) (by simp)
      · exact absurd (hControl.symm.trans hJoining) (by simp)
      · exact absurd (hControl.symm.trans hFinished) (by simp)
    obtain ⟨c, hc⟩ := hOk.2.2.2.exists_chunk hne
    obtain ⟨hLess, hUnset, -⟩ := hInv.running u c hc
    exact hInv.all_done hReturned c hLess hUnset
  | _ => simp [hControl, Control.isAppending] at hIn

/-- An access while nobody is inside a `push_back` is no race. -/
theorem access_of_none (hNone : s.appending = none) (otherwise : State α) :
    s.access otherwise = otherwise := by
  simp [State.access, hNone]

/-- Step 4 by a thread that is alone at the vector. -/
theorem Orderly.spawn {maxThreadCount : Nat} (h : Orderly s) (hInv : Inv lt input s)
    (hAlone : Alone s t) {stage : Spawn} {pivot : α} {lower : Nat} {higher : List α}
    (hThread : s.thread t = ⟨.spawn stage pivot lower higher, frames⟩) :
    Orderly (s.spawn maxThreadCount t stage pivot lower higher frames) := by
  unfold Alone at hAlone
  rw [hThread] at hAlone
  unfold State.spawn
  cases stage with
  | test =>
    show Orderly (s.access _)
    rw [access_of_none (hAlone rfl)]
    split <;> exact h.setThread (by rw [hThread]; rfl)
  | launch =>
    refine h.move rfl rfl fun u hu => ?_
    have hne : u ≠ t := by
      rintro rfl
      simp [hThread, Control.isAppending] at hu
    -- the number of the new worker is that of no thread yet
    have hOld : u ≠ s.started + 1 := by
      rintro rfl
      simp [hInv.born _ (Nat.lt_succ_self _), Control.isAppending] at hu
    show Function.update (Function.update s.thread _ _) t _ u = s.thread u
    rw [Function.update_of_ne hne, Function.update_of_ne hOld]
  | append worker =>
    show Orderly (s.access _)
    rw [access_of_none (hAlone rfl)]
    refine ⟨?_, h.noRace⟩
    intro u hu
    cases hu
    show (Function.update s.thread t _ t).control.isAppending = true
    rw [Function.update_self]
    rfl
  | appending worker => exact ⟨nofun, h.noRace⟩

section

variable [DecidableRel lt] {divide : (p : α → Bool) → (l : List α) → Partition p l}
  {maxThreadCount : Nat}

/-- A case for each program point; the condition is needed at the three accesses of the vector
in `do_sort`. -/
theorem orderly_run (hInv : Inv lt input s) (h : Orderly s) (hAlone : Alone s t)
    (hst : run lt divide maxThreadCount s t = some s') : Orderly s' := by
  unfold run at hst
  cases hThread : s.thread t with
  | mk control frames =>
  have hOut : ∀ c : Control α, s.thread t = ⟨c, frames⟩ → c.isAppending = false →
      (s.thread t).control.isAppending = false := by
    intro c hc hNot
    rw [hc]
    exact hNot
  rw [hThread] at hst
  cases control with
  | unborn => cases hst
  | sort data =>
    cases data with
    | nil =>
      cases hst
      exact h.setThread (hOut _ hThread rfl)
    | cons pivot rest =>
      cases hst
      exact (h.setThread (hOut _ hThread rfl)).move rfl rfl fun _ _ => rfl
  | spawn stage pivot lower higher =>
    cases hst
    exact h.spawn hInv hAlone hThread
  | wait result lower =>
    cases hPromise : s.promise lower <;> simp only [hPromise] at hst <;> cases hst <;>
      exact h.setThread (hOut _ hThread rfl)
  | help result lower =>
    cases hst
    unfold State.trySortChunk
    split
    · exact h.setThread (hOut _ hThread rfl)
    · exact (h.setThread (hOut _ hThread rfl)).move rfl rfl fun _ _ => rfl
  | ret result =>
    cases frames with
    | nil =>
      cases hst
      exact (h.setThread (hOut _ hThread rfl)).move rfl rfl fun _ _ => rfl
    | cons f frames =>
      cases f <;> cases hst
      · exact h.setThread (hOut _ hThread rfl)
      · exact (h.setThread (hOut _ hThread rfl)).move rfl rfl fun _ _ => rfl
      · exact (h.setThread (hOut _ hThread rfl)).move rfl rfl fun _ _ => rfl
  | idle =>
    cases hst
    exact h.setThread (hOut _ hThread rfl)
  | fetch =>
    cases hst
    unfold State.trySortChunk
    split
    · exact h.setThread (hOut _ hThread rfl)
    · exact (h.setThread (hOut _ hThread rfl)).move rfl rfl fun _ _ => rfl
  | exited => cases hst
  | joining result =>
    simp only at hst
    split at hst <;> cases hst
    -- the destructor does not meet a worker that starts another one
    have hOk := hInv.threads t
    rw [hThread] at hOk
    obtain ⟨rfl, rfl, -⟩ := hOk
    have hReturned : Returned s result := by
      unfold Returned
      rw [hThread]
      exact ⟨rfl, Or.inr (Or.inl rfl)⟩
    rw [access_of_none (hInv.no_append h hReturned)]
    exact h.setThread (hOut _ hThread rfl)
  | finished result => cases hst

/-- In every run whose threads are alone at the vector. -/
theorem orderly [IsStrictOrder α lt]
    (h : (system lt divide maxThreadCount input).ReachableWhere Alone s) : Orderly s := by
  refine h.invariant (I := Orderly) (orderly_init input) ?_
  intro s t s' hs hI hAlone hst
  exact orderly_run (inv_reachable hs.reachable) hI hAlone (step_eq hst).2

/-- **`Alone` leaves out the data races and nothing else.** A step that breaks it is one. -/
theorem race_of_not_alone (hRace : s.race = false) (hNot : ¬ Alone s t) :
    ∃ s', step lt divide maxThreadCount s t = some s' ∧ s'.race = true := by
  unfold Alone at hNot
  push Not at hNot
  obtain ⟨hUses, hSome⟩ := hNot
  obtain ⟨u, hu⟩ := Option.ne_none_iff_exists'.mp hSome
  refine ⟨{ s with race := true }, ?_, rfl⟩
  simp only [step, hRace, Bool.false_eq_true, if_false]
  cases hThread : s.thread t with
  | mk control frames =>
  rw [hThread] at hUses
  unfold run
  rw [hThread]
  cases control with
  | spawn stage pivot lower higher =>
    cases stage with
    | test | append _ => simp [State.spawn, State.access, hu]
    | launch | appending _ => cases hUses
  | _ => cases hUses

end

-- ---------------------------------------------------------------------------
-- The contract
-- ---------------------------------------------------------------------------

/-- What a caller may rely on in every state: there was no data race; the result is sorted
and has the elements of the input; a chunk is sorted by one thread at most and its promise set
once at most, and by the end exactly once; before the end, not all threads wait. -/
structure Contract (lt : α → α → Prop) (input : List α) (s : State α) : Prop where
  noRace : s.race = false
  sorted : ∀ v, Returned s v → Ascending lt v ∧ v.Perm input
  at_most_once : ∀ id, (s.startedBy id).length ≤ 1 ∧ s.fulfilled id ≤ 1
  exactly_once : ∀ v, Returned s v → ∀ id < s.next,
    (∃ t, s.startedBy id = [t]) ∧ s.fulfilled id = 1
  not_stuck : (∀ v, ¬ Returned s v) → ¬ Stuck s

/-- **`parallel_quick_sort` sorts while its threads are alone at the vector**, for every
strict order, the strict weak ones among them, every way to partition, every number of workers
and every order of the steps. What the condition excludes is the data race alone: nothing is
assumed of which thread pops which chunk, or of how far the others are then. -/
theorem quick_sort_sorts [IsStrictOrder α lt] [DecidableRel lt]
    (divide : (p : α → Bool) → (l : List α) → Partition p l) (maxThreadCount : Nat)
    (input : List α) (h : (system lt divide maxThreadCount input).ReachableWhere Alone s) :
    Contract lt input s := by
  have hInv := inv_reachable h.reachable
  refine ⟨(orderly h).noRace, fun v hv => hInv.sorted hv,
    fun id => ⟨hInv.startedBy_le id, hInv.fulfilled_le id⟩, fun v hv id hid => ?_,
    fun _ => hInv.not_stuck⟩
  obtain ⟨w, hw⟩ := Option.ne_none_iff_exists'.mp (hInv.all_done hv id hid)
  obtain ⟨-, -, -, hStarted⟩ := hInv.done id w hw
  refine ⟨hStarted, ?_⟩
  rw [hInv.fulfilled, hw]
  rfl

/-- Two threads that take turns once thread 0 has put the worker into the vector: the worker
sorts two of the chunks, thread 0 the third. -/
theorem quick_sort_sorts_two_threads :
    ∃ s, (system (α := Nat) (· < ·) Partition.stable 1 [2, 3, 1]).ReachableWhere Alone s ∧
      Returned s [1, 2, 3] ∧ s.startedBy 0 = [1] ∧ s.startedBy 2 = [0] ∧
      Contract (· < ·) [2, 3, 1] s := by
  obtain ⟨s, hs, hReturned, hFirst, hLast⟩ := System.exists_reachableWhere_of_exec
    (S := system (α := Nat) (· < ·) Partition.stable 1 [2, 3, 1])
    (c := fun s t => decide (Alone s t)) (fun s t => of_decide_eq_true)
    (p := fun s => Returned s [1, 2, 3] ∧ s.startedBy 0 = [1] ∧ s.startedBy 2 = [0])
    (List.replicate 5 0 ++ (List.replicate 15 [1, 0]).flatten) (by decide +kernel)
  exact ⟨s, hs, hReturned, hFirst, hLast, quick_sort_sorts Partition.stable 1 [2, 3, 1] hs⟩

/-- Two elements and one worker: thread 0 is inside `threads.push_back` when the worker, which
already sorts the lower half, tests `threads.size()`. -/
theorem quick_sort_races :
    ¬ ∀ s, (system (α := Nat) (· < ·) Partition.stable 1 [2, 1]).Reachable s →
      Contract (· < ·) [2, 1] s := by
  intro hAll
  obtain ⟨s, hs, hRace⟩ := System.exists_reachable_of_exec
    (S := system (α := Nat) (· < ·) Partition.stable 1 [2, 1]) (p := fun s => s.race = true)
    [0, 0, 0, 0, 1, 1, 1, 1] (by decide +kernel)
  rw [(hAll s hs).noRace] at hRace
  cases hRace

end EmbLinux.DesignConcurrentCode.QuickSort
