import EmbLinux.Lib.Placement
import EmbLinux.WorkStealing.Steps

/-!
# EmbLinux — where the tasks of the work-stealing pools are

Each task is in one queue, on the stack of one thread, finished or dropped. `Transfer` is
what a step does to these places, and `Conserved` is the invariant that it keeps.
-/

namespace EmbLinux.WorkStealing

variable {ι τ ω : Type*}

/-- Where a task is: in the shared queue of a pool, in the queue of a worker, on the stack of
the thread that invoked it, or done with. -/
inductive Place (ι τ : Type*)
  | pool (p : ι)
  | queue (w : Worker ι)
  | stack (th : Thread ι τ)
  | finished
  | dropped
  deriving DecidableEq

/-- The task of a frame. -/
def Frame.task? : Frame ι → Option Nat
  | .task n => some n
  | _ => none

/-- The tasks at a place; `tasks` are those in the queue of a pool. -/
def State.at (tasks : ω → List Nat) (s : State ι τ ω) : Place ι τ → List Nat
  | .pool p => tasks (s.poolWorkQueue p)
  | .queue w => s.queues w
  | .stack th => (s.stack th).filterMap Frame.task?
  | .finished => s.finished
  | .dropped => s.dropped

/-- The queue that `submit` uses. -/
def Thread.target : Thread ι τ → ι → Place ι τ
  | .external _, p => .pool p
  | .worker w, _ => .queue w

/-- A place where a task is that was invoked. -/
def Place.isInvoked : Place ι τ → Bool
  | .stack _ | .finished => true
  | _ => false

/-- Where a task can go to from a place. -/
inductive Place.Next : Place ι τ → Place ι τ → Prop
  | takeQueue (w : Worker ι) (th : Thread ι τ) : Next (.queue w) (.stack th)
  | takePool (p : ι) (th : Thread ι τ) : Next (.pool p) (.stack th)
  | finish (th : Thread ι τ) : Next (.stack th) .finished
  | dropQueue (w : Worker ι) : Next (.queue w) .dropped
  | dropPool (p : ι) : Next (.pool p) .dropped

/-- What a step does to the places. -/
inductive Transfer (tasks : ω → List Nat) (s s' : State ι τ ω) : Prop
  | stay (hAt : s'.at tasks = s.at tasks) (hSubmitted : s'.submitted = s.submitted)
      (hInvoked : s'.invoked = s.invoked)
  | submit (th : Thread ι τ) (p : ι)
      (hEnter : (s'.at tasks (th.target p)).Perm (s.submitted.length :: s.at tasks (th.target p)))
      (hOther : ∀ k, k ≠ th.target p → s'.at tasks k = s.at tasks k)
      (hSubmitted : s'.submitted = s.submitted ++ [(th, p)]) (hInvoked : s'.invoked = s.invoked)
  | move (k k' : Place ι τ) (n : Nat) (hNext : k.Next k')
      (hLeave : (s.at tasks k).Perm (n :: s'.at tasks k))
      (hEnter : (s'.at tasks k').Perm (n :: s.at tasks k'))
      (hOther : ∀ j, j ≠ k → j ≠ k' → s'.at tasks j = s.at tasks j)
      (hSubmitted : s'.submitted = s.submitted)
      (hInvoked : s'.invoked = if k'.isInvoked && !k.isInvoked then s.invoked ++ [n] else s.invoked)

variable [DecidableEq ι] [DecidableEq τ] {o : Outside ι ω} {tasks : ω → List Nat}
  {s s' : State ι τ ω} {th : Thread ι τ}

/-- A thread goes on with the tasks that it is in. -/
theorem at_setStack {stack : List (Frame ι)}
    (hTasks : stack.filterMap Frame.task? = (s.stack th).filterMap Frame.task?) :
    (s.setStack th stack).at tasks = s.at tasks := by
  funext k
  cases k with
  | stack u =>
    by_cases hu : u = th
    · simp [State.at, State.setStack, hu, hTasks]
    · simp [State.at, State.setStack, hu]
  | pool | queue | finished | dropped => rfl

/-- A thread takes a task from place `k` and invokes it. -/
theorem transfer_invoke {rest : List (Frame ι)} {n : Nat} {f : Frame ι} {k : Place ι τ}
    (hStack : s.stack th = f :: rest) (hTask : f.task? = none) (hNext : k.Next (.stack th))
    (hLeave : (s.at tasks k).Perm (n :: s'.at tasks k))
    (hFrames : s'.stack = (s.invoke th rest n).stack)
    (hOther : ∀ j, j ≠ k → (∀ u, j ≠ .stack u) → j ≠ .dropped → s'.at tasks j = s.at tasks j)
    (hDropped : s'.dropped = s.dropped)
    (hSubmitted : s'.submitted = s.submitted) (hInvoked : s'.invoked = s.invoked ++ [n]) :
    Transfer tasks s s' := by
  have hPending : k.isInvoked = false := by cases hNext <;> rfl
  have hNew : s'.at tasks (.stack th) = n :: rest.filterMap Frame.task? := by
    simp [State.at, hFrames, State.invoke, State.setStack, Frame.task?]
  have hOld : s.at tasks (.stack th) = rest.filterMap Frame.task? := by
    simp only [State.at, hStack, List.filterMap_cons_none hTask]
  refine .move k (.stack th) n hNext hLeave (by rw [hNew, hOld]) ?_ hSubmitted ?_
  · intro j hj hj'
    cases j with
    | stack u =>
      have hu : u ≠ th := by
        rintro rfl
        exact hj' rfl
      simp [State.at, hFrames, State.invoke, State.setStack, hu]
    | dropped => exact hDropped
    | pool | queue | finished => exact hOther _ hj (by simp) (by simp)
  · rw [hInvoked, hPending]
    rfl

omit [DecidableEq ι] [DecidableEq τ] in
/-- A destructor takes a task from place `k` and destroys it. -/
theorem transfer_drop {n : Nat} {k : Place ι τ} (hNext : k.Next (.dropped : Place ι τ))
    (hLeave : (s.at tasks k).Perm (n :: s'.at tasks k)) (hDropped : s'.dropped = s.dropped ++ [n])
    (hOther : ∀ j, j ≠ k → (∀ u, j ≠ .stack u) → j ≠ .dropped → s'.at tasks j = s.at tasks j)
    (hStack : s'.stack = s.stack) (hSubmitted : s'.submitted = s.submitted)
    (hInvoked : s'.invoked = s.invoked) : Transfer tasks s s' := by
  refine .move k .dropped n hNext hLeave ?_ ?_ hSubmitted (by rw [hInvoked]; rfl)
  · simp only [State.at, hDropped]
    exact List.perm_append_singleton _ _
  · intro j hj hj'
    cases j with
    | stack u => simp only [State.at, hStack]
    | pool | queue | finished | dropped => exact hOther _ hj (by simp) hj'

omit [DecidableEq τ] in
/-- The other queues, when one of a worker changes. -/
theorem at_queues {w : Worker ι} {others : List Nat}
    (hQueues : s'.queues = Function.update s.queues w others)
    (hPool : s'.poolWorkQueue = s.poolWorkQueue) (hFinished : s'.finished = s.finished) :
    ∀ j, j ≠ .queue w → (∀ u, j ≠ .stack u) → j ≠ .dropped → s'.at tasks j = s.at tasks j := by
  intro j hj hStack hDropped
  cases j with
  | queue u =>
    have hu : u ≠ w := by
      rintro rfl
      exact hj rfl
    simp [State.at, hQueues, hu]
  | pool p => simp [State.at, hPool]
  | stack u => exact absurd rfl (hStack u)
  | finished => exact hFinished
  | dropped => exact absurd rfl hDropped

omit [DecidableEq τ] in
/-- A step at the shared queue of a pool leaves every other place alone. -/
theorem at_pools {p : ι} {others : ω}
    (hPool : s'.poolWorkQueue = Function.update s.poolWorkQueue p others)
    (hQueues : s'.queues = s.queues) (hFinished : s'.finished = s.finished) :
    ∀ j, j ≠ .pool p → (∀ u, j ≠ .stack u) → j ≠ .dropped → s'.at tasks j = s.at tasks j := by
  intro j hj hStack hDropped
  cases j with
  | queue u => simp [State.at, hQueues]
  | pool q =>
    have hq : q ≠ p := by
      rintro rfl
      exact hj rfl
    simp [State.at, hPool, hq]
  | stack u => exact absurd rfl (hStack u)
  | finished => exact hFinished
  | dropped => exact absurd rfl hDropped

/-- A step of a thread hands one task from a place to another one, or none. -/
theorem turn_transfer (hDoc : o.Documented tasks) (ht : Turn o s th s') : Transfer tasks s s' := by
  cases ht with
  | enter | exit => exact .stay rfl rfl rfl
  | again hWorker hStack => exact .stay (at_setStack (by rw [hStack]; rfl)) rfl rfl
  | noLocal hStack | noPool hStack | noSteal hStack | giveUp hStack =>
    exact .stay (at_setStack (by rw [hStack]; rfl)) rfl rfl
  | @takeLocal w p rest front others hStack hLocal hQueue =>
    refine transfer_invoke (k := .queue w) hStack rfl (.takeQueue w th) ?_ rfl
      (at_queues rfl rfl rfl) rfl rfl rfl
    simp [State.at, hQueue]
  | @takePool p rest task others hStack hQueue =>
    refine transfer_invoke (k := .pool p) hStack rfl (.takePool p th) ?_ rfl
      (at_pools rfl rfl rfl) rfl rfl rfl
    simpa [State.at] using hDoc.tryPop_some _ _ _ hQueue
  | @steal p i w rest back others hStack hLess hVictim hQueue =>
    refine transfer_invoke (k := .queue w) hStack rfl (.takeQueue w th) ?_ rfl
      (at_queues rfl rfl rfl) rfl rfl rfl
    simp only [State.at, hQueue, Function.update_self]
    exact List.perm_append_singleton _ _
  | @finish n rest hStack =>
    refine .move (.stack th) .finished n (.finish th) ?_ ?_ ?_ rfl rfl
    · simp [State.at, State.setStack, hStack, Frame.task?]
    · exact List.perm_append_singleton _ _
    · intro j hj hj'
      cases j with
      | stack u =>
        have hu : u ≠ th := by
          rintro rfl
          exact hj rfl
        simp [State.at, State.setStack, hu]
      | finished => exact absurd rfl hj'
      | pool | queue | dropped => rfl

/-- So does every step, a `submit` apart. -/
theorem effect_transfer (hDoc : o.Documented tasks) (he : Effect o s s') : Transfer tasks s s' := by
  cases he with
  | build | start | ready | stop | joined | cleared | gone =>
    exact .stay rfl rfl rfl
  | @submitLocal w p n rest hStack =>
    refine .submit (.worker w) p ?_ ?_ rfl rfl
    · simp [Thread.target, State.at]
    · intro k hk
      cases k with
      | queue u =>
        have hu : u ≠ w := by
          rintro rfl
          exact hk rfl
        exact Function.update_of_ne hu ..
      | pool | stack | finished | dropped => rfl
  | @submitPool t p hOpen =>
    refine .submit (.external t) p ?_ ?_ rfl rfl
    · simpa [Thread.target, State.at] using hDoc.push (s.poolWorkQueue p) s.submitted.length
    · intro k hk
      cases k with
      | pool q =>
        have hq : q ≠ p := by
          rintro rfl
          exact hk rfl
        simp [State.at, hq]
      | queue | stack | finished | dropped => rfl
  | call hFree hOpen => exact .stay (at_setStack rfl) rfl rfl
  | run hTurn => exact turn_transfer hDoc hTurn
  | @dropLocal p i task others hLife hQueue =>
    refine transfer_drop (k := .queue (p, i)) (.dropQueue (p, i)) ?_ rfl (at_queues rfl rfl rfl)
      rfl rfl rfl
    simp [State.at, hQueue]
  | @dropPool p i task others hLife hQueue =>
    refine transfer_drop (k := .pool p) (.dropPool p) ?_ rfl (at_pools rfl rfl rfl) rfl rfl rfl
    simpa [State.at] using hDoc.destroyNext_some _ _ _ hQueue

-- ---------------------------------------------------------------------------
-- The invariant
-- ---------------------------------------------------------------------------

/-- Each submitted task is in one place; it is invoked once if it was taken from its queue,
and a queue has the tasks of those that submit to it. -/
structure Conserved (tasks : ω → List Nat) (s : State ι τ ω) (place : Nat → Option (Place ι τ)) :
    Prop where
  placement : Placement (s.at tasks) place
  /-- A task has a place from its submission on. -/
  placed : ∀ n, (place n).isSome = true ↔ n < s.submitted.length
  once : s.invoked.Nodup
  /-- Its place says whether it was invoked, -/
  invoked : ∀ n, n ∈ s.invoked ↔ ∃ k, place n = some k ∧ k.isInvoked = true
  /-- and until then it is in the queue that it was submitted to. -/
  home : ∀ n k, place n = some k → k.isInvoked = false → k ≠ .dropped →
    ∃ th p, s.submitted[n]? = some (th, p) ∧ k = th.target p

variable {place : Nat → Option (Place ι τ)}

/-- There is no task yet. -/
theorem conserved_init (hDoc : o.Documented tasks) :
    Conserved tasks (system (τ := τ) o).init fun _ => none := by
  refine ⟨?_, ?_, List.nodup_nil, ?_, ?_⟩
  · have hEmpty : (system (τ := τ) o).init.at tasks = fun _ => [] := by
      funext k
      cases k with
      | pool p => exact hDoc.empty
      | queue | stack | finished | dropped => rfl
    rw [hEmpty]
    exact .empty
  · intro n
    simp [system]
  · intro n
    simp [system]
  · intro n k hPlace
    simp at hPlace

section

omit [DecidableEq ι] [DecidableEq τ]

/-- The next task has no place yet. -/
theorem Conserved.fresh (h : Conserved tasks s place) : place s.submitted.length = none := by
  cases hPlace : place s.submitted.length with
  | none => rfl
  | some k =>
    have hLess := (h.placed s.submitted.length).mp (by rw [hPlace]; rfl)
    omega

/-- A submitted task gets the next number and its first place. -/
theorem Conserved.submit (h : Conserved tasks s place) {p : ι}
    (hEnter : (s'.at tasks (th.target p)).Perm (s.submitted.length :: s.at tasks (th.target p)))
    (hOther : ∀ k, k ≠ th.target p → s'.at tasks k = s.at tasks k)
    (hSubmitted : s'.submitted = s.submitted ++ [(th, p)]) (hInvoked : s'.invoked = s.invoked) :
    Conserved tasks s' (Function.update place s.submitted.length (some (th.target p))) := by
  have hPending : (th.target p : Place ι τ).isInvoked = false := by cases th <;> rfl
  refine ⟨h.placement.add h.fresh hEnter hOther, ?_, hInvoked ▸ h.once, ?_, ?_⟩
  · intro n
    rw [hSubmitted, List.length_append, List.length_singleton]
    rcases update_at place s.submitted.length (some (th.target p)) n with
      ⟨rfl, hAt⟩ | ⟨hne, hAt⟩ <;>
      rw [hAt]
    · simp
    · rw [h.placed n]
      omega
  · intro n
    rw [hInvoked, h.invoked n]
    rcases update_at place s.submitted.length (some (th.target p)) n with ⟨rfl, hAt⟩ | ⟨-, hAt⟩ <;>
      rw [hAt]
    simp [h.fresh, hPending]
  · intro n k hPlace hNot hKept
    rcases update_at place s.submitted.length (some (th.target p)) n with
      ⟨rfl, hAt⟩ | ⟨hne, hAt⟩ <;>
      rw [hAt] at hPlace
    · exact ⟨th, p, by simp [hSubmitted], (Option.some.inj hPlace).symm⟩
    · obtain ⟨u, q, hMem, hTarget⟩ := h.home n k hPlace hNot hKept
      refine ⟨u, q, ?_, hTarget⟩
      rw [hSubmitted]
      exact List.getElem?_append_left (List.getElem?_eq_some_iff.mp hMem).1 ▸ hMem

/-- A task that leaves one place and enters another is placed there, and the others stay. -/
theorem Conserved.move (h : Conserved tasks s place) {k k' : Place ι τ} {n : Nat}
    (hNext : k.Next k')
    (hLeave : (s.at tasks k).Perm (n :: s'.at tasks k))
    (hEnter : (s'.at tasks k').Perm (n :: s.at tasks k'))
    (hOther : ∀ j, j ≠ k → j ≠ k' → s'.at tasks j = s.at tasks j)
    (hSubmitted : s'.submitted = s.submitted)
    (hInvoked : s'.invoked =
      if k'.isInvoked && !k.isInvoked then s.invoked ++ [n] else s.invoked) :
    Conserved tasks s' (Function.update place n (some k')) := by
  have hne : k ≠ k' := by
    rintro rfl
    cases hNext
  have hPlace : place n = some k :=
    h.placement.place_of_mem (hLeave.mem_iff.mpr List.mem_cons_self)
  have hOld : n ∈ s.invoked ↔ k.isInvoked = true := by
    rw [h.invoked n, hPlace]
    simp
  refine ⟨h.placement.move hne hLeave hEnter hOther, ?_, ?_, ?_, ?_⟩
  · intro m
    rw [hSubmitted, ← h.placed m]
    rcases update_at place n (some k') m with ⟨rfl, hAt⟩ | ⟨-, hAt⟩ <;> rw [hAt]
    simp [hPlace]
  · rw [hInvoked]
    split
    · next hTaken =>
      have hNew : n ∉ s.invoked := by
        rw [hOld]
        simp_all
      exact List.nodup_append'.mpr ⟨h.once, List.nodup_singleton n,
        List.disjoint_singleton.mpr hNew⟩
    · exact h.once
  · intro m
    rw [hInvoked]
    rcases update_at place n (some k') m with ⟨rfl, hAt⟩ | ⟨hm, hAt⟩ <;> rw [hAt]
    · cases hNext <;> simp_all [Place.isInvoked]
    · rw [← h.invoked m]
      split <;> simp [hm]
  · intro m j hj hNot hKept
    rw [hSubmitted]
    rcases update_at place n (some k') m with ⟨rfl, hAt⟩ | ⟨-, hAt⟩ <;> rw [hAt] at hj
    · obtain rfl := Option.some.inj hj
      cases hNext <;> simp_all [Place.isInvoked]
    · exact h.home m j hj hNot hKept

/-- Whatever a step hands on, every task still has one place. -/
theorem Conserved.transfer (h : Conserved tasks s place) (ht : Transfer tasks s s') :
    ∃ place', Conserved tasks s' place' := by
  cases ht with
  | stay hAt hSubmitted hInvoked =>
    refine ⟨place, ?_, ?_, ?_, ?_, ?_⟩
    · rw [hAt]
      exact h.placement
    · rw [hSubmitted]
      exact h.placed
    · rw [hInvoked]
      exact h.once
    · rw [hInvoked]
      exact h.invoked
    · rw [hSubmitted]
      exact h.home
  | submit th p hEnter hOther hSubmitted hInvoked =>
    exact ⟨_, h.submit hEnter hOther hSubmitted hInvoked⟩
  | move k k' n hNext hLeave hEnter hOther hSubmitted hInvoked =>
    exact ⟨_, h.move hNext hLeave hEnter hOther hSubmitted hInvoked⟩

end

/-- Every task has one place in every state. -/
theorem conserved_reachable (hDoc : o.Documented tasks) (h : (system o).Reachable s) :
    ∃ place, Conserved tasks s place := by
  refine h.invariant (I := fun s => ∃ place, Conserved tasks s place)
    ⟨_, conserved_init hDoc⟩ ?_
  rintro s a s' - ⟨place, hI⟩ - hst
  exact hI.transfer (effect_transfer hDoc (step_effect hst))

end EmbLinux.WorkStealing
