import EmbLinux.WorkStealing.Order

/-!
# EmbLinux — what the work-stealing pools do with a task

* `work_stealing_contract` — no task is lost or invoked twice, and what the destructor of a
  pool leaves is dropped. A task that a worker submits to another pool stays with the pool
  of the worker.
* `taken_in_order` — a worker takes its own newest task, what `try_pop` of the shared queue
  gives, or the oldest task of another worker.
* `race_reachable_iff` — when the constructor races with its own workers. The first two
  results are about the runs without that race, and about every `thread_safe_queue` that keeps
  its tasks; the third one depends on neither.

Both results go through `Conserved`: each task has one place, and a step moves one task along
`Place.Next` or none. What is taken for granted of the code outside is `Outside.Documented`: the
queue gives out what was put in and nothing else.
-/

namespace EmbLinux.WorkStealing

variable {ι τ ω : Type*} [DecidableEq ι] [DecidableEq τ] {o : Outside ι ω} {tasks : ω → List Nat}
  {s s' : State ι τ ω} {th : Thread ι τ} {n : Nat}

-- ---------------------------------------------------------------------------
-- The places of a task
-- ---------------------------------------------------------------------------

/-- The pool whose queues get a task that a thread submits to `p`. -/
def Thread.home (th : Thread ι τ) (p : ι) : ι :=
  match th.localWorkQueue with
  | some w => w.1
  | none => p

/-- What the pools promise in every state. -/
structure Contract (tasks : ω → List Nat) (s : State ι τ ω) : Prop where
  /-- Each submitted task is in one place, once. -/
  place : ∀ n < s.submitted.length, ∃! k : Place ι τ, n ∈ s.at tasks k
  nodup : ∀ k, (s.at tasks k).Nodup
  /-- It is invoked once, when it has left its queue for a thread. -/
  once : s.invoked.Nodup
  invoked : ∀ n, n ∈ s.invoked ↔ n ∈ s.finished ∨ ∃ th, Frame.task n ∈ s.stack th
  /-- Until then it is in the queue of the worker that submitted it, or of the pool. -/
  queued : ∀ w, ∀ n ∈ s.queues w, ∃ p, s.submitted[n]? = some (.worker w, p)
  pooled : ∀ p, ∀ n ∈ tasks (s.poolWorkQueue p), ∃ t, s.submitted[n]? = some (.external t, p)
  /-- After a destructor, a task of the pool was invoked or dropped, and not both. -/
  gone : ∀ n th p, s.submitted[n]? = some (th, p) → s.life (th.home p) = .gone →
    (n ∈ s.invoked ↔ n ∉ s.dropped)

omit [DecidableEq ι] [DecidableEq τ] in
/-- The tasks on a stack are the frames that hold one. -/
theorem mem_stack (tasks : ω → List Nat) (s : State ι τ ω) (th : Thread ι τ) (n : Nat) :
    n ∈ s.at tasks (.stack th) ↔ Frame.task n ∈ s.stack th := by
  simp only [State.at, List.mem_filterMap]
  constructor
  · rintro ⟨f, hf, hTask⟩
    cases f with
    | task m =>
      obtain rfl := Option.some.inj hTask
      exact hf
    | popLocal | popPool | steal => simp [Frame.task?] at hTask
  · intro hf
    exact ⟨_, hf, rfl⟩

variable {place : Nat → Option (Place ι τ)}

omit [DecidableEq ι] [DecidableEq τ] in
/-- Every submitted task is somewhere, -/
theorem Conserved.exists_place (h : Conserved tasks s place) (hn : n < s.submitted.length) :
    ∃ k, place n = some k ∧ n ∈ s.at tasks k := by
  obtain ⟨k, hk⟩ := Option.isSome_iff_exists.mp ((h.placed n).mpr hn)
  exact ⟨k, hk, ((h.placement k).2 n).mpr hk⟩

omit [DecidableEq ι] [DecidableEq τ] in
/-- an invoked one on a stack or finished, -/
theorem Conserved.mem_invoked (h : Conserved tasks s place) :
    n ∈ s.invoked ↔ n ∈ s.finished ∨ ∃ th, Frame.task n ∈ s.stack th := by
  rw [h.invoked n]
  constructor
  · rintro ⟨k, hk, hInvoked⟩
    have hMem := ((h.placement k).2 n).mpr hk
    cases k with
    | stack th => exact Or.inr ⟨th, (mem_stack tasks s th n).mp hMem⟩
    | finished => exact Or.inl hMem
    | pool | queue | dropped => simp [Place.isInvoked] at hInvoked
  · rintro (hMem | ⟨th, hMem⟩)
    · exact ⟨.finished, h.placement.place_of_mem (k := .finished) hMem, rfl⟩
    · exact ⟨.stack th, h.placement.place_of_mem ((mem_stack tasks s th n).mpr hMem), rfl⟩

/-- and one whose pool is gone was invoked or destroyed. -/
theorem Conserved.gone (h : Conserved tasks s place) (hShape : Shape o tasks s) {p : ι}
    (hn : s.submitted[n]? = some (th, p)) (hGone : s.life (th.home p) = .gone) :
    n ∈ s.invoked ↔ n ∉ s.dropped := by
  obtain ⟨k, hk, hMem⟩ := h.exists_place (List.getElem?_eq_some_iff.mp hn).1
  have hInvoked : n ∈ s.invoked ↔ k.isInvoked = true := by
    rw [h.invoked n, hk]
    simp
  have hDropped : n ∈ s.dropped ↔ k = .dropped := by
    rw [show n ∈ s.dropped ↔ _ from (h.placement .dropped).2 n, hk, Option.some.injEq]
  rw [hInvoked, hDropped]
  by_cases hPending : k.isInvoked = false ∧ k ≠ .dropped
  · -- in a queue of the pool, which is empty
    obtain ⟨u, q, hSubmitted, rfl⟩ := h.home n k hk hPending.1 hPending.2
    rw [hn] at hSubmitted
    obtain ⟨rfl, rfl⟩ := Prod.mk.inj (Option.some.inj hSubmitted)
    cases th with
    | external t =>
      have hEmpty := (hShape.gone (p, 0) hGone).2
      simp [Thread.target, State.at, hEmpty] at hMem
    | worker w =>
      have hEmpty := (hShape.gone w hGone).1
      simp [Thread.target, State.at, hEmpty] at hMem
  · cases k <;> simp_all [Place.isInvoked]

/-- **The work-stealing pools keep the contract**, whatever the threads submit and run, as long
as no constructor overlaps with a step of one of its workers (`Late`; `race_reachable_iff` says
what happens otherwise). Of the shared queue and the joiner, which the pools get from outside,
`hDoc` is assumed and nothing else. -/
theorem work_stealing_contract (hDoc : o.Documented tasks) (h : (system o).ReachableWhere Late s) :
    Contract tasks s := by
  obtain ⟨place, hC⟩ := conserved_reachable hDoc h.reachable
  have hShape := shape_reachable hDoc h.reachable
  refine ⟨?_, fun k => (hC.placement k).1, hC.once, fun n => hC.mem_invoked, ?_, ?_,
    fun n th p => hC.gone hShape⟩
  · intro n hn
    obtain ⟨k, hk, hMem⟩ := hC.exists_place hn
    exact ⟨k, hMem, fun j hj => hC.placement.unique hj hMem⟩
  · intro w n hn
    obtain ⟨th, p, hSubmitted, hTarget⟩ := hC.home n (.queue w)
      (hC.placement.place_of_mem (k := .queue w) hn) rfl (by simp)
    cases th with
    | external t => simp [Thread.target] at hTarget
    | worker u =>
      obtain rfl := Place.queue.inj hTarget
      exact ⟨p, hSubmitted⟩
  · intro p n hn
    obtain ⟨th, q, hSubmitted, hTarget⟩ := hC.home n (.pool p)
      (hC.placement.place_of_mem (k := .pool p) hn) rfl (by simp)
    cases th with
    | external t =>
      obtain rfl := Place.pool.inj hTarget
      exact ⟨t, hSubmitted⟩
    | worker u => simp [Thread.target] at hTarget

/-- A shared queue that is a list with its oldest task first, and a joiner that looks at every
thread. -/
def listQueue (size : ι → Nat) : Outside ι (List Nat) where
  size := size
  empty := []
  push queue n := queue ++ [n]
  tryPop
    | [] => none
    | front :: others => some (front, others)
  destroyNext
    | [] => none
    | front :: others => some (front, others)
  joined threads ended := (List.range threads).all ended

omit [DecidableEq ι] in
/-- A list is a queue as it is documented, and the usual join is a joiner. -/
theorem listQueue_documented (size : ι → Nat) : (listQueue size).Documented id where
  empty := rfl
  push queue n := List.perm_append_singleton n queue
  tryPop_some queue n queue' h := by
    cases queue with
    | nil => simp [listQueue] at h
    | cons front others =>
      obtain ⟨rfl, rfl⟩ := Prod.mk.inj (Option.some.inj h)
      exact .refl _
  tryPop_none queue h := by
    cases queue with
    | nil => rfl
    | cons front others => simp [listQueue] at h
  destroyNext_some queue n queue' h := by
    cases queue with
    | nil => simp [listQueue] at h
    | cons front others =>
      obtain ⟨rfl, rfl⟩ := Prod.mk.inj (Option.some.inj h)
      exact .refl _
  destroyNext_none queue h := by
    cases queue with
    | nil => rfl
    | cons front others => simp [listQueue] at h
  joined threads ended h i hi := List.all_eq_true.mp h i (List.mem_range.mpr hi)

/-- Two pools of one worker. A task of the first pool submits one to the second pool, and
the first pool is destroyed: its queue has that task, and drops it. -/
theorem work_stealing_contract_elsewhere :
    ∃ s : State Bool Unit (List Nat), (system (listQueue fun _ => 1)).ReachableWhere Late s ∧
      s.life true = .gone ∧ s.life false = .alive ∧
      s.submitted[1]? = some (.worker (true, 0), false) ∧ s.dropped = [1] ∧ Contract id s := by
  obtain ⟨s, hs, hGone, hAlive, hSubmitted, hDropped⟩ := System.exists_reachableWhere_of_exec
    (S := system (ι := Bool) (τ := Unit) (listQueue fun _ => 1))
    (c := fun s a => decide (Late s a)) (fun s a h => (of_decide_eq_true h : Late s a))
    (p := fun s => s.life true = .gone ∧ s.life false = .alive ∧
      s.submitted[1]? = some (.worker (true, 0), false) ∧ s.dropped = [1])
    (List.flatten [List.replicate 3 (.construct true), List.replicate 3 (.construct false),
      [.submit (.external ()) true], List.replicate 4 (.run (.worker (true, 0))),
      [.submit (.worker (true, 0)) false, .destroy true],
      List.replicate 2 (.run (.worker (true, 0))), List.replicate 4 (.destroy true)])
    (by decide +kernel)
  exact ⟨s, hs, hGone, hAlive, hSubmitted, hDropped,
    work_stealing_contract (listQueue_documented _) hs⟩

-- ---------------------------------------------------------------------------
-- The order
-- ---------------------------------------------------------------------------

/-- Where a thread takes task `n` from, and that no task before it in the order was there. -/
inductive TakenInOrder (o : Outside ι ω) (s : State ι τ ω) (th : Thread ι τ) (n : Nat) : Prop
  /-- The newest task of its own queue. -/
  | own (w : Worker ι) (hOwn : th.localWorkQueue = some w) (hMem : n ∈ s.queues w)
      (hNewest : ∀ m ∈ s.queues w, m ≤ n)
  /-- What the shared queue of the pool gives, and the own queue is still empty. -/
  | pool (p : ι) (hCall : ∃ rest, s.stack th = .popPool p :: rest)
      (hTaken : ∃ others, o.tryPop (s.poolWorkQueue p) = some (n, others))
      (hOwn : ∀ w, th.localWorkQueue = some w → s.queues w = [])
  /-- The oldest task of another worker of the pool, and the own queue is still empty. -/
  | stolen (u : Worker ι) (hCall : ∃ i rest, s.stack th = .steal u.1 i :: rest)
      (hOther : th.localWorkQueue ≠ some u) (hMem : n ∈ s.queues u)
      (hOldest : ∀ m ∈ s.queues u, n ≤ m)
      (hOwn : ∀ w, th.localWorkQueue = some w → s.queues w = [])

/-- **Tasks are taken in order**: the newest of the own queue, and if there is none, what the
shared queue gives or the oldest of another worker. In which order the shared queue gives its
tasks is left open, as its class is. -/
theorem taken_in_order (hDoc : o.Documented tasks) (h : (system o).ReachableWhere Late s)
    (hst : step o s (.run th) = some s') (hTaken : s'.invoked = s.invoked ++ [n]) :
    TakenInOrder o s th n := by
  have hSorted := sorted_reachable hDoc h.reachable
  -- the own queue of a thread that looks elsewhere
  have hOwn : ∀ {f : Frame ι} {rest : List (Frame ι)}, s.stack th = f :: rest →
      f.isElsewhere = true → ∀ w, th.localWorkQueue = some w → s.queues w = [] := by
    intro f rest hStack hElsewhere w hLocal
    cases th with
    | external t => simp [Thread.localWorkQueue] at hLocal
    | worker u =>
      obtain rfl := Option.some.inj hLocal
      exact hSorted.elsewhere u f rest hStack hElsewhere
  cases run_turn hst with
  | enter | exit | again | noLocal | noPool | noSteal | giveUp | finish =>
    simp [State.setLoop, State.setStack] at hTaken
  | @takeLocal w p rest front others hStack hLocal hQueue =>
    obtain rfl : front = n := by simpa [State.invoke, State.setStack] using hTaken
    have hNewest := hSorted.newest w
    rw [hQueue, List.pairwise_cons] at hNewest
    refine .own w hLocal (by simp [hQueue]) ?_
    intro m hm
    rw [hQueue] at hm
    rcases List.mem_cons.mp hm with rfl | hRest
    · exact Nat.le_refl _
    · exact Nat.le_of_lt (hNewest.1 m hRest)
  | @takePool p rest task others hStack hQueue =>
    obtain rfl : task = n := by simpa [State.invoke, State.setStack] using hTaken
    exact .pool p ⟨rest, hStack⟩ ⟨others, hQueue⟩ (hOwn hStack rfl)
  | @steal p i w rest back others hStack hLess hVictim hQueue =>
    obtain rfl : back = n := by simpa [State.invoke, State.setStack] using hTaken
    have hNewest := hSorted.newest w
    rw [hQueue, List.pairwise_append] at hNewest
    refine .stolen w ⟨i, rest, by rw [hStack, hVictim, State.victim]⟩ ?_ (by simp [hQueue]) ?_
      (hOwn hStack rfl)
    · intro hSelf
      have hEmpty := hOwn hStack rfl w hSelf
      simp [hQueue] at hEmpty
    · intro m hm
      rw [hQueue] at hm
      rcases List.mem_append.mp hm with hBefore | hBack
      · exact Nat.le_of_lt (hNewest.2.2 m hBefore back (List.mem_singleton_self _))
      · exact Nat.le_of_eq (List.mem_singleton.mp hBack).symm

/-- Worker 0 is in a task and has two more in its queue: worker 1 steals the older one. -/
theorem taken_in_order_steal :
    ∃ s s' : State Unit Unit (List Nat),
      (system (listQueue fun _ => 2)).ReachableWhere Late s ∧ s.queues ((), 0) = [2, 1] ∧
      step (listQueue fun _ => 2) s (.run (.worker ((), 1))) = some s' ∧
      TakenInOrder (listQueue fun _ => 2) s (.worker ((), 1)) 1 := by
  have hExec : ∃ s : State Unit Unit (List Nat),
      (system (listQueue fun _ => 2)).ReachableWhere Late s ∧
      s.queues ((), 0) = [2, 1] ∧ s.invoked = [0] ∧
      (step (listQueue fun _ => 2) s (.run (.worker ((), 1)))).map (·.invoked) = some [0, 1] :=
    System.exists_reachableWhere_of_exec
      (S := system (ι := Unit) (τ := Unit) (listQueue fun _ => 2))
      (c := fun s a => decide (Late s a)) (fun s a h => (of_decide_eq_true h : Late s a))
      (p := fun s => s.queues ((), 0) = [2, 1] ∧ s.invoked = [0] ∧
        (step (listQueue fun _ => 2) s (.run (.worker ((), 1)))).map (·.invoked) = some [0, 1])
      (List.flatten [List.replicate 5 (.construct ()), [.submit (.external ()) ()],
        List.replicate 4 (.run (.worker ((), 0))),
        List.replicate 2 (.submit (.worker ((), 0)) ()),
        List.replicate 4 (.run (.worker ((), 1)))]) (by decide +kernel)
  obtain ⟨s, hs, hQueue, hBefore, hAfter⟩ := hExec
  obtain ⟨s', hst, hInvoked⟩ := Option.map_eq_some_iff.mp hAfter
  exact ⟨s, s', hs, hQueue, hst,
    taken_in_order (listQueue_documented _) hs hst (by rw [hInvoked, hBefore]; rfl)⟩

-- ---------------------------------------------------------------------------
-- The constructor
-- ---------------------------------------------------------------------------

/-- **The constructor can race with a worker that it has started exactly when it starts more
than one**: the worker reads the vector `queues` while the constructor extends it. No assumption
on the shared queue or the joiner is needed, as neither takes part. -/
theorem race_reachable_iff (o : Outside ι ω) (p : ι) :
    (∃ s : State ι τ ω, (system o).Reachable s ∧ Race o s p) ↔ 2 ≤ o.size p := by
  constructor
  · rintro ⟨s, hs, -, hAll, hMore, i, hWorker⟩
    have hShape := started_reachable hs
    have hStarted : i < s.started p := by
      refine hShape.started (p, i) ?_
      rcases hWorker with hEnter | ⟨k, rest, hStack⟩
      · simp [hEnter]
      · simp [hShape.inLoop (p, i) (by simp [hStack])]
    omega
  · intro hSize
    have hFirst : 0 < o.size p := by omega
    let s₁ : State ι τ ω := { (system o).init with
      built := Function.update (fun _ => 0) p 1 }
    let s₂ : State ι τ ω := { s₁ with
      loop := Function.update (fun _ => .notStarted) (p, 0) .enter
      started := Function.update (fun _ => 0) p 1 }
    have hs₁ : (system o).Reachable s₁ := by
      refine System.ReachableWhere.init.act (.construct p) trivial ?_
      simp [system, step, construct, hFirst, s₁]
    have hs₂ : (system o).Reachable s₂ := by
      refine hs₁.act (.construct p) trivial ?_
      simp [system, step, construct, State.setLoop, s₁, s₂]
    refine ⟨s₂, hs₂, rfl, ?_, ?_, 0, Or.inl ?_⟩ <;> simp [s₁, s₂]
    omega

end EmbLinux.WorkStealing
