import EmbLinux.WorkStealing.Conservation

/-!
# EmbLinux — the workers and the queues of the work-stealing pools

* `Started` — which workers the constructor has started and where they are.
* `Shape` — when they have ended, and which queues can have tasks: after the destructor of a
  pool its queues are empty, as nobody is left who submits to them.
* `Sorted` — a queue of a worker has its newest task at its front, and a worker that looks for
  tasks elsewhere has none in its own queue.
-/

namespace EmbLinux.WorkStealing

variable {ι τ ω : Type*} [DecidableEq ι] [DecidableEq τ] {o : Outside ι ω} {tasks : ω → List Nat}
  {s s' : State ι τ ω}

-- ---------------------------------------------------------------------------
-- The life of a pool
-- ---------------------------------------------------------------------------

/-- The queues of the pool are being destroyed, or are. -/
def Life.isClosed : Life → Bool
  | .clear _ | .gone => true
  | _ => false

/-- The worker is in `worker_thread`. -/
def Loop.isRunning : Loop → Bool
  | .enter | .loop => true
  | _ => false

/-- What holds of the workers, whatever the shared queue and the joiner do. -/
structure Started (o : Outside ι ω) (s : State ι τ ω) : Prop where
  counts : ∀ p, s.started p ≤ s.built p ∧ s.built p ≤ o.size p
  /-- Only started workers have left the beginning. -/
  started : ∀ w, s.loop w ≠ .notStarted → w.2 < s.started w.1
  inLoop : ∀ w, s.stack (.worker w) ≠ [] → s.loop w = .loop
  /-- `done` is not set before the destructor begins. -/
  notDone : ∀ p, s.life p = .constructing ∨ s.life p = .alive → s.done p = false

/-- What holds of the queues of a pool when its destructor comes to them. -/
structure Shape (o : Outside ι ω) (tasks : ω → List Nat) (s : State ι τ ω) : Prop
    extends Started o s where
  /-- Only a started worker has tasks in its queue. -/
  queued : ∀ w, s.queues w ≠ [] → w.2 < s.started w.1
  /-- Nobody runs once the threads are joined, -/
  closed : ∀ w, (s.life w.1).isClosed = true → (s.loop w).isRunning = false
  /-- while the queues are destroyed, from the first one on, -/
  cleared : ∀ w k, s.life w.1 = .clear k → w.2 < k → s.queues w = []
  /-- and nothing is left at the end. -/
  gone : ∀ w, s.life w.1 = .gone → s.queues w = [] ∧ tasks (s.poolWorkQueue w.1) = []

/-- Nothing is built yet. -/
theorem started_init : Started o (system (τ := τ) o).init := by
  refine ⟨?_, ?_, ?_, ?_⟩ <;> simp [system]

theorem shape_init : Shape o tasks (system (τ := τ) o).init := by
  refine ⟨started_init, ?_, ?_, ?_, ?_⟩ <;> simp [system, Life.isClosed]

/-- An empty queue stays empty, unless its worker submits a task. -/
theorem empty_effect (he : Effect o s s') {w : Worker ι} (hEmpty : s.queues w = []) :
    s'.queues w = [] ∨ ∃ n rest, s.stack (.worker w) = .task n :: rest := by
  have hOther : ∀ u others, s.queues u ≠ [] → Function.update s.queues u others w = [] := by
    intro u others hSome
    rw [Function.update_of_ne, hEmpty]
    rintro rfl
    exact hSome hEmpty
  cases he with
  | dropLocal hLife hQueue => exact Or.inl (hOther _ _ (by simp [hQueue]))
  | @submitLocal u p n rest hStack =>
    rcases update_at s.queues u (s.submitted.length :: s.queues u) w with ⟨rfl, -⟩ | ⟨-, hAt⟩
    · exact Or.inr ⟨n, rest, hStack⟩
    · exact Or.inl (hAt.trans hEmpty)
  | run hTurn =>
    cases hTurn with
    | takeLocal hTop hLocal hQueue => exact Or.inl (hOther _ _ (by simp [hQueue]))
    | steal hTop hLess hVictim hQueue => exact Or.inl (hOther _ _ (by simp [hQueue]))
    | _ => exact Or.inl hEmpty
  | _ => exact Or.inl hEmpty

omit [DecidableEq τ] in
/-- A pool whose stage is not the one just set had it before. -/
theorem life_of_update {p q : ι} {l l' : Life} (h : Function.update s.life p l q = l')
    (hne : l ≠ l') : s.life q = l' := by
  rcases update_at s.life p l q with ⟨-, hAt⟩ | ⟨-, hAt⟩ <;> rw [hAt] at h
  · exact absurd h hne
  · exact h

/-- The constructor builds the queue of a worker before it starts the worker, and no more than
`size` of them. -/
theorem counts_effect (h : Started o s) (he : Effect o s s') (p : ι) :
    s'.started p ≤ s'.built p ∧ s'.built p ≤ o.size p := by
  have hOld := h.counts p
  cases he with
  | build hLife hAll hMore => grind [Function.update_apply]
  | start hLife hMore =>
    simp only [State.setLoop]
    grind [Function.update_apply]
  | run hTurn =>
    rw [hTurn.frame.started, hTurn.frame.built]
    exact hOld
  | _ => exact hOld

/-- Only started workers are in their loops. -/
theorem started_effect (h : Started o s) (he : Effect o s s') (w : Worker ι)
    (hLoop : s'.loop w ≠ .notStarted) : w.2 < s'.started w.1 := by
  have hOld := h.started w
  cases he with
  | start hLife hMore =>
    simp only [State.setLoop] at hLoop ⊢
    grind [Function.update_apply]
  | run hTurn =>
    cases hTurn with
    | enter hWorker hStack hAt | exit hWorker hStack hAt =>
      simp only [State.setLoop] at hLoop ⊢
      grind [Function.update_apply]
    | _ => exact hOld hLoop
  | _ => exact hOld hLoop

/-- A worker with a call under way is in its loop. -/
theorem inLoop_effect (h : Started o s) (he : Effect o s s') (w : Worker ι)
    (hStack : s'.stack (.worker w) ≠ []) : s'.loop w = .loop := by
  have hOld := h.inLoop w
  cases he with
  | start hLife hMore =>
    have hStarted := h.started w
    simp only [State.setLoop] at hStack ⊢
    grind [Function.update_apply]
  | call hFree hOpen =>
    simp only [State.setStack, State.Free] at hStack hFree ⊢
    grind [Function.update_apply, Thread.localWorkQueue]
  | run hTurn =>
    cases hTurn with
    | enter hWorker hIdle hLoop | exit hWorker hIdle hLoop =>
      simp only [State.setLoop] at hStack ⊢
      grind [Function.update_apply]
    | again hWorker hIdle hLoop =>
      simp only [State.setStack] at hStack ⊢
      grind [Function.update_apply]
    | noLocal hTop | noPool hTop | noSteal hTop | giveUp hTop | finish hTop =>
      simp only [State.setStack] at hStack ⊢
      grind [Function.update_apply]
    | takeLocal hTop | takePool hTop | steal hTop =>
      simp only [State.invoke, State.setStack] at hStack ⊢
      grind [Function.update_apply]
  | _ => exact hOld hStack

/-- `done` is set by the destructor only. -/
theorem notDone_effect (h : Started o s) (he : Effect o s s') (p : ι)
    (hLife : s'.life p = .constructing ∨ s'.life p = .alive) : s'.done p = false := by
  have hOld := h.notDone p
  cases he with
  | ready hAt | joined hAt hJoined | cleared hAt hEmpty | gone hAt hAll hEmpty =>
    simp only [State.setLife] at hLife ⊢
    grind [Function.update_apply]
  | stop hAt =>
    simp only [State.stop, State.setLife] at hLife ⊢
    grind [Function.update_apply]
  | run hTurn =>
    rw [hTurn.frame.life] at hLife
    rw [hTurn.frame.done]
    exact hOld hLife
  | _ => exact hOld hLife

/-- In every state, with any shared queue. -/
theorem started_reachable (h : (system o).Reachable s) : Started o s := by
  refine h.invariant (I := Started o) started_init ?_
  intro s a s' _ hI _ hst
  have he := step_effect hst
  exact ⟨counts_effect hI he, started_effect hI he, inLoop_effect hI he, notDone_effect hI he⟩

omit [DecidableEq ι] [DecidableEq τ] in
/-- A worker in its loop has been started, and its pool is not closed. -/
theorem Shape.of_stack (h : Shape o tasks s) {w : Worker ι} (hStack : s.stack (.worker w) ≠ []) :
    w.2 < s.started w.1 ∧ (s.life w.1).isClosed = false := by
  have hLoop := h.inLoop w hStack
  refine ⟨h.started w (by simp [hLoop]), ?_⟩
  by_contra hClosed
  have hIdle := h.closed w (by simpa using hClosed)
  simp [hLoop, Loop.isRunning] at hIdle

/-- Only the queues of started workers have tasks. -/
theorem queued_effect (h : Shape o tasks s) (he : Effect o s s') (w : Worker ι)
    (hQueue : s'.queues w ≠ []) : w.2 < s'.started w.1 := by
  have hOld : w.2 < s.started w.1 := by
    by_cases hEmpty : s.queues w = []
    · rcases empty_effect he hEmpty with hStill | ⟨n, rest, hStack⟩
      · exact absurd hStill hQueue
      · exact (h.of_stack (w := w) (by simp [hStack])).1
    · exact h.queued w hEmpty
  cases he with
  | start hLife hMore => grind [Function.update_apply]
  | run hTurn =>
    rw [hTurn.frame.started]
    exact hOld
  | _ => exact hOld

/-- Past the joiner no worker runs. -/
theorem closed_effect (hDoc : o.Documented tasks) (h : Shape o tasks s) (he : Effect o s s')
    (w : Worker ι)
    (hClosed : (s'.life w.1).isClosed = true) : (s'.loop w).isRunning = false := by
  have hOld := h.closed w
  cases he with
  | start hLife hMore =>
    simp only [State.setLoop] at hClosed ⊢
    grind [Function.update_apply, Life.isClosed]
  | ready hLife | cleared hLife hEmpty | gone hLife hAll hEmpty =>
    simp only [State.setLife] at hClosed ⊢
    grind [Function.update_apply, Life.isClosed]
  | stop hLife =>
    simp only [State.stop, State.setLife] at hClosed ⊢
    grind [Function.update_apply, Life.isClosed]
  | joined hLife hJoined =>
    have hStarted := h.started w
    have hExited := hDoc.joined _ _ hJoined
    simp only [decide_eq_true_eq] at hExited
    simp only [State.setLife] at hClosed ⊢
    grind [Function.update_apply, Loop.isRunning]
  | run hTurn =>
    rw [hTurn.frame.life] at hClosed
    cases hTurn with
    | enter hWorker hIdle hLoop | exit hWorker hIdle hLoop =>
      simp only [State.setLoop]
      grind [Function.update_apply, Loop.isRunning]
    | _ => exact hOld hClosed
  | _ => exact hOld hClosed

/-- A queue of a closed pool stays empty. -/
theorem Shape.stays_empty (h : Shape o tasks s) (he : Effect o s s') {w : Worker ι}
    (hClosed : (s.life w.1).isClosed = true) (hEmpty : s.queues w = []) : s'.queues w = [] := by
  rcases empty_effect he hEmpty with hStill | ⟨n, rest, hStack⟩
  · exact hStill
  · simp [(h.of_stack (w := w) (by simp [hStack])).2] at hClosed

/-- The queues that the destructor has gone past are empty. -/
theorem cleared_effect (h : Shape o tasks s) (he : Effect o s s') (w : Worker ι) (k : Nat)
    (hLife : s'.life w.1 = .clear k) (hLess : w.2 < k) : s'.queues w = [] := by
  have hOld : s.life w.1 = .clear k → s'.queues w = [] := fun hSame =>
    h.stays_empty he (by simp [hSame, Life.isClosed]) (h.cleared w k hSame hLess)
  cases he with
  | ready | stop | gone => exact hOld (life_of_update hLife (by simp))
  | joined =>
    refine hOld (life_of_update hLife ?_)
    rw [ne_eq, Life.clear.injEq]
    omega
  | @cleared p i hLast hEmpty =>
    rcases update_at s.life p (.clear (i + 1)) w.1 with ⟨rfl, hAt⟩ | ⟨-, hAt⟩
    · obtain rfl := Life.clear.inj (hAt.symm.trans hLife)
      rcases Nat.lt_or_eq_of_le (Nat.le_of_lt_succ hLess) with hBefore | rfl
      · exact h.cleared w i hLast hBefore
      · exact hEmpty
    · exact hOld (hAt.symm.trans hLife)
  | run hTurn => exact hOld (hTurn.frame.life ▸ hLife)
  | _ => exact hOld hLife

/-- Only a destructor and `submit` touch what a pool that is gone has. -/
theorem gone_effect (hDoc : o.Documented tasks) (h : Shape o tasks s) (he : Effect o s s')
    (w : Worker ι) (hLife : s'.life w.1 = .gone) :
    s'.queues w = [] ∧ tasks (s'.poolWorkQueue w.1) = [] := by
  have hOld := h.gone w
  have hQueue : s.life w.1 = .gone → s'.queues w = [] := fun hSame =>
    h.stays_empty he (by simp [hSame, Life.isClosed]) (hOld hSame).1
  cases he with
  | ready | stop | joined | cleared => exact hOld (life_of_update hLife (by simp))
  | @gone p i hLast hAll hEmpty =>
    rcases update_at s.life p .gone w.1 with ⟨rfl, -⟩ | ⟨-, hAt⟩
    · refine ⟨?_, hDoc.destroyNext_none _ hEmpty⟩
      -- a worker that has tasks was started, so its queue has been cleared
      by_contra hSome
      have hStarted := h.queued w hSome
      have hBuilt := (h.counts w.1).1
      exact hSome (h.cleared w i hLast (by omega))
    · exact hOld (hAt.symm.trans hLife)
  | @dropPool p i task others hLast hFront =>
    refine ⟨hQueue hLife, ?_⟩
    have hne : w.1 ≠ p := by
      rintro rfl
      simpa [(hOld hLife).2] using (hDoc.destroyNext_some _ _ _ hFront).length_eq
    simpa [Function.update_of_ne hne] using (hOld hLife).2
  | run hTurn =>
    rw [hTurn.frame.life] at hLife
    refine ⟨hQueue hLife, ?_⟩
    cases hTurn with
    | @takePool p rest task others hTop hFront =>
      have hne : w.1 ≠ p := by
        rintro rfl
        simpa [(hOld hLife).2] using (hDoc.tryPop_some _ _ _ hFront).length_eq
      simpa [Function.update_of_ne hne] using (hOld hLife).2
    | _ => exact (hOld hLife).2
  | @submitPool t p hOpen =>
    refine ⟨hQueue hLife, ?_⟩
    have hne : w.1 ≠ p := by
      rintro rfl
      have hGone : s.life w.1 = .gone := hLife
      simp [hGone, Life.isOpen] at hOpen
    simpa [Function.update_of_ne hne] using (hOld hLife).2
  | _ => exact ⟨hQueue hLife, (hOld hLife).2⟩

/-- In every state, with a shared queue as documented. -/
theorem shape_reachable (hDoc : o.Documented tasks) (h : (system o).Reachable s) :
    Shape o tasks s := by
  refine h.invariant (I := Shape o tasks) shape_init ?_
  intro s a s' hs hI _ hst
  have he := step_effect hst
  exact ⟨started_reachable (.step hs trivial hst), queued_effect hI he, closed_effect hDoc hI he,
    cleared_effect hI he, gone_effect hDoc hI he⟩

-- ---------------------------------------------------------------------------
-- The order of the queues
-- ---------------------------------------------------------------------------

/-- The call looks for a task that is not in the own queue. -/
def Frame.isElsewhere : Frame ι → Bool
  | .popPool _ | .steal _ _ => true
  | _ => false

/-- The queue of a worker has the newest task first, and the worker is looking elsewhere only
while it is empty. -/
structure Sorted (s : State ι τ ω) : Prop where
  newest : ∀ w, (s.queues w).Pairwise (· > ·)
  /-- A call is made from the top of the stack, by a task. -/
  nested : ∀ th f rest, s.stack th = f :: rest → ∀ g ∈ rest, g.task?.isSome = true
  elsewhere : ∀ w f rest, s.stack (.worker w) = f :: rest → f.isElsewhere = true → s.queues w = []

theorem sorted_init : Sorted (system (τ := τ) o).init := by
  refine ⟨?_, ?_, ?_⟩ <;> simp [system]

variable {place : Nat → Option (Place ι τ)}

omit [DecidableEq ι] [DecidableEq τ] in
/-- A task in any place has been submitted. -/
theorem Conserved.lt_of_mem (h : Conserved tasks s place) {k : Place ι τ} {n : Nat}
    (hn : n ∈ s.at tasks k) :
    n < s.submitted.length :=
  (h.placed n).mp (by rw [h.placement.place_of_mem hn]; rfl)

/-- A task is pushed at the front with the largest number, and taken from either end. -/
theorem newest_effect (hC : Conserved tasks s place) (h : Sorted s) (he : Effect o s s')
    (w : Worker ι) : (s'.queues w).Pairwise (· > ·) := by
  have hOld := h.newest w
  -- a queue without one of its ends
  have hOther : ∀ u others, (others.Sublist (s.queues u)) →
      (Function.update s.queues u others w).Pairwise (· > ·) := by
    intro u others hSub
    rcases update_at s.queues u others w with ⟨rfl, hAt⟩ | ⟨-, hAt⟩ <;> rw [hAt]
    · exact hOld.sublist hSub
    · exact hOld
  cases he with
  | @submitLocal u p n rest hStack =>
    show (Function.update s.queues u (s.submitted.length :: s.queues u) w).Pairwise (· > ·)
    rcases update_at s.queues u (s.submitted.length :: s.queues u) w with ⟨rfl, hAt⟩ | ⟨-, hAt⟩ <;>
      rw [hAt]
    · exact List.pairwise_cons.mpr ⟨fun m hm => hC.lt_of_mem (k := .queue w) hm, hOld⟩
    · exact hOld
  | dropLocal hLife hQueue => exact hOther _ _ (by rw [hQueue]; exact List.sublist_cons_self ..)
  | run hTurn =>
    cases hTurn with
    | takeLocal hTop hLocal hQueue =>
      exact hOther _ _ (by rw [hQueue]; exact List.sublist_cons_self ..)
    | steal hTop hLess hVictim hQueue =>
      exact hOther _ _ (by rw [hQueue]; exact List.sublist_append_left ..)
    | _ => exact hOld
  | _ => exact hOld

/-- The frame on top of a stack changes, or goes. -/
theorem nested_update {th : Thread ι τ} {f : Frame ι} {stack rest : List (Frame ι)}
    (h : Sorted s) (hTop : s.stack th = f :: rest)
    (hStack : stack = rest ∨ ∃ g, stack = g :: rest) (u : Thread ι τ) (g : Frame ι)
    (rest' : List (Frame ι)) (hu : Function.update s.stack th stack u = g :: rest') :
    ∀ g ∈ rest', g.task?.isSome = true := by
  have hRest := h.nested th f rest hTop
  rcases update_at s.stack th stack u with ⟨-, hAt⟩ | ⟨-, hAt⟩ <;> rw [hAt] at hu
  · rcases hStack with rfl | ⟨g', rfl⟩
    · intro g' hg'
      exact hRest g' (hu ▸ List.mem_cons_of_mem _ hg')
    · obtain ⟨-, rfl⟩ := List.cons.inj hu
      exact hRest
  · exact h.nested u g rest' hu

/-- A nested call is made by the task on top of the stack. -/
theorem nested_effect (h : Sorted s) (he : Effect o s s') (u : Thread ι τ) (g : Frame ι)
    (rest' : List (Frame ι)) (hu : s'.stack u = g :: rest') :
    ∀ g ∈ rest', g.task?.isSome = true := by
  cases he with
  | @call th p hFree hOpen =>
    rcases update_at s.stack th (.popLocal p :: s.stack th) u with ⟨-, hAt⟩ | ⟨-, hAt⟩
    · obtain ⟨-, rfl⟩ := List.cons.inj (hAt.symm.trans hu)
      rcases hFree with ⟨hNone, -⟩ | ⟨n, rest, hTask⟩
      · simp [hNone]
      · rw [hTask]
        intro g' hg'
        rcases List.mem_cons.mp hg' with rfl | hBelow
        · rfl
        · exact h.nested th _ rest hTask g' hBelow
    · exact h.nested u g rest' (hAt.symm.trans hu)
  | run hTurn =>
    cases hTurn with
    | @again w hWorker hStack =>
      rcases update_at s.stack _ [.popLocal w.1] u with ⟨-, hAt⟩ | ⟨-, hAt⟩
      · obtain ⟨-, rfl⟩ := List.cons.inj (hAt.symm.trans hu)
        exact List.forall_mem_nil _
      · exact h.nested u g rest' (hAt.symm.trans hu)
    | noLocal hTop | noPool hTop | noSteal hTop | takeLocal hTop | takePool hTop | steal hTop =>
      exact nested_update h hTop (Or.inr ⟨_, rfl⟩) u g rest' hu
    | giveUp hTop | finish hTop => exact nested_update h hTop (Or.inl rfl) u g rest' hu
    | enter | exit => exact h.nested u g rest' hu
  | _ => exact h.nested u g rest' hu

/-- A worker that goes on to the shared queue has found its own empty, and it alone pushes to
it. -/
theorem elsewhere_effect (h : Sorted s) (he : Effect o s s') (w : Worker ι) (f : Frame ι)
    (rest : List (Frame ι)) (hw : s'.stack (.worker w) = f :: rest)
    (hElsewhere : f.isElsewhere = true) : s'.queues w = [] := by
  have hTask : ∀ {g : Frame ι}, g.task?.isSome = true → g.isElsewhere = false := by
    intro g hg
    cases g <;> simp_all [Frame.task?, Frame.isElsewhere]
  -- the worker was already looking elsewhere
  have hSame : ∀ {g : Frame ι} {below : List (Frame ι)}, s.stack (.worker w) = g :: below →
      g.isElsewhere = true → s'.queues w = [] := by
    intro g below hTop hg
    rcases empty_effect he (h.elsewhere w g below hTop hg) with hStill | ⟨n, below', hTop'⟩
    · exact hStill
    · rw [hTop'] at hTop
      obtain ⟨rfl, -⟩ := List.cons.inj hTop
      simp [Frame.isElsewhere] at hg
  -- the frame on top of the stack is another one
  have hChange : ∀ {th : Thread ι τ} {stack : List (Frame ι)},
      Function.update s.stack th stack (.worker w) = f :: rest →
      (th = .worker w → stack = f :: rest → s'.queues w = []) → s'.queues w = [] := by
    intro th stack hUpdate hHere
    rcases update_at s.stack th stack (.worker w) with ⟨hEq, hAt⟩ | ⟨-, hAt⟩ <;> rw [hAt] at hUpdate
    · exact hHere hEq.symm hUpdate
    · exact hSame hUpdate hElsewhere
  cases he with
  | call =>
    refine hChange hw fun _ hEq => ?_
    obtain ⟨rfl, -⟩ := List.cons.inj hEq
    simp [Frame.isElsewhere] at hElsewhere
  | @run th _ hTurn =>
    cases hTurn with
    | again | takeLocal | takePool | steal =>
      refine hChange hw fun _ hEq => ?_
      obtain ⟨rfl, -⟩ := List.cons.inj hEq
      simp [Frame.isElsewhere] at hElsewhere
    | noLocal hTop hEmpty =>
      refine hChange hw fun hth _ => ?_
      subst hth
      exact hEmpty w rfl
    | noPool hTop | noSteal hTop =>
      refine hChange hw fun hth _ => ?_
      subst hth
      exact hSame hTop rfl
    | @giveUp p i below hTop =>
      refine hChange hw fun _ hEq => ?_
      have hBelow := h.nested th _ below hTop f (hEq ▸ List.mem_cons_self)
      simp [hTask hBelow] at hElsewhere
    | @finish n below hTop =>
      refine hChange hw fun _ hEq => ?_
      have hBelow := h.nested th _ below hTop f (hEq ▸ List.mem_cons_self)
      simp [hTask hBelow] at hElsewhere
    | enter | exit => exact hSame hw hElsewhere
  | _ => exact hSame hw hElsewhere

/-- In every state. -/
theorem sorted_reachable (hDoc : o.Documented tasks) (h : (system o).Reachable s) : Sorted s := by
  refine h.invariant (I := Sorted) sorted_init ?_
  intro s a s' hs hI _ hst
  have he := step_effect hst
  obtain ⟨place, hC⟩ := conserved_reachable hDoc hs
  exact ⟨newest_effect hC hI he, nested_effect hI he, elsewhere_effect hI he⟩

end EmbLinux.WorkStealing
