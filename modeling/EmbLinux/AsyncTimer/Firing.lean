import EmbLinux.AsyncTimer.Fds
import Mathlib.Data.Fintype.Card
import Mathlib.Data.List.Perm.Subperm

/-!
# EmbLinux — which timers fire

A `poll` resumes the awaits whose timers have run out, unless there are more of them than
its array holds. A timer of length zero never runs out.

* `timers_fire` — no await is resumed early or twice, and a `poll` resumes all that are due
  if they are at most 16, in every run exactly if no timer has length zero;
* `zero_timer_waits` — a run with such a timer.

What is promised is about the awaits that are due when a `poll` starts; nothing is assumed of
how often it is called. While it waits, time passes only until a timer is ready.

## Results

* `inv_reachable` (`AsyncTimer.Fds`) — the fds, the map and the coroutines agree.
* `prompt_step`, `prompt_reachable` — what is due when a `poll` starts is among its events,
  when no length is zero and at most 16 are due.
* `pollAfterStart_reachable` — the other half: after a timer of length zero there is a `poll`
  that finds nothing.
-/

namespace EmbLinux.AsyncTimer

open EventLoop (Interest kMaxEvents)

variable {ι : Type*} [DecidableEq ι] {timeout : ι → Nat} {s s' : State ι} {a : Action ι}
  {i j : ι} {fd : Nat}

/-- At most as many awaits were due when the last `poll` started as its array holds. -/
def State.FewDue (s : State ι) : Prop :=
  ∀ l : List ι, l.Nodup → (∀ i ∈ l, s.due i = true) → l.length ≤ kMaxEvents

/-- What an await is promised. -/
structure Contract (timeout : ι → Nat) (s : State ι) : Prop where
  notEarly : ∀ r ∈ s.resumptions, s.startedAt r.1 + timeout r.1 * nsPerMs ≤ r.2
  once : (s.resumptions.map Prod.fst).Nodup
  allDue : s.poll = .idle → s.FewDue → ∀ i, s.due i = true → ∃ t, (i, t) ∈ s.resumptions

/-- While `poll` waits, what was due still is, and nothing else unless nothing was; once it
has its events, those that are due and not yet resumed are among them. -/
structure Prompt (timeout : ι → Nat) (s : State ι) : Prop where
  waiting : s.poll.runs = false → (∀ i, s.due i = true → s.Due timeout i) ∧
    ((∀ i, s.Due timeout i → s.due i = true) ∨ ∀ i, s.due i = false)
  running : s.poll.runs = true → s.FewDue → ∀ i, s.due i = true →
    (s.stage i).wasResumed = true ∨ ∃ fd ∈ s.poll.events, s.timers fd = some i

/-- A waiting coroutine has an fd. -/
theorem exists_of_isWaiting {stage : Stage} (h : stage.isWaiting = true) :
    ∃ fd, stage = .waiting fd := by
  cases stage with
  | waiting fd => exact ⟨fd, rfl⟩
  | notYet => cases h
  | resumed fd => cases h
  | finished => cases h

section

omit [DecidableEq ι]

/-- A due timer is ready while no event is on its way. -/
theorem Inv.ready_of_due (h : Inv timeout s) (hEvents : s.poll.events = [])
    (hPos : 1 ≤ timeout i) (hDue : s.Due timeout i) :
    ∃ fd ∈ s.opened, s.Ready fd ∧ s.timers fd = some i := by
  obtain ⟨hWaiting, hTime⟩ := hDue
  obtain ⟨fd, hStage⟩ := exists_of_isWaiting hWaiting
  obtain ⟨hTimer, hExpiry, hInterest⟩ := h.registered i fd hStage
  rw [hEvents] at hInterest
  refine ⟨fd, h.opened i fd (by rw [hStage]; rfl),
    ⟨hInterest.resolve_right List.not_mem_nil, ?_⟩, hTimer⟩
  exact ⟨_, hExpiry.trans (expiryAt_eq_some.mpr ⟨hPos, rfl⟩), hTime⟩

/-- And a ready timer is due. -/
theorem Inv.due_of_ready (h : Inv timeout s) (hReady : s.Ready fd) :
    ∃ i, s.timers fd = some i ∧ s.Due timeout i := by
  obtain ⟨hArmed, e, he, hle⟩ := hReady
  obtain ⟨i, hTimer⟩ := h.armed fd hArmed
  have hStage := h.timers fd i hTimer
  have hTime := (h.registered i fd hStage).2.1
  rw [Option.mem_def.mp he, eq_comm, expiryAt_eq_some] at hTime
  exact ⟨i, hTimer, by rw [hStage]; rfl, hTime.2 ▸ hle⟩

/-- Ready timers in an array that has no room left are all that are due. -/
theorem Inv.mem_of_full (h : Inv timeout s)
    (hDue : ∀ i, s.Due timeout i → s.due i = true) (hFew : s.FewDue) {events : List Nat}
    (hNodup : events.Nodup) (hReady : ∀ fd ∈ events, s.Ready fd)
    (hFull : events.length = kMaxEvents) (hNext : s.Ready fd) : fd ∈ events := by
  by_contra hOut
  have hAll : ∀ fd' ∈ fd :: events, s.Ready fd' := by
    intro fd' hMem
    rcases List.mem_cons.mp hMem with rfl | hMem
    · exact hNext
    · exact hReady fd' hMem
  have hOwners : ((fd :: events).filterMap s.timers).length = (fd :: events).length := by
    rw [List.filterMap_length_eq_length]
    intro fd' hMem
    obtain ⟨j, hTimer, -⟩ := h.due_of_ready (hAll fd' hMem)
    rw [hTimer]
    rfl
  have hDistinct : ((fd :: events).filterMap s.timers).Nodup := by
    refine List.Nodup.filterMap ?_ (List.nodup_cons.mpr ⟨hOut, hNodup⟩)
    intro fd₁ fd₂ j h₁ h₂
    have hSame := (h.timers fd₁ j h₁).symm.trans (h.timers fd₂ j h₂)
    exact Stage.waiting.inj hSame
  have hLess := hFew _ hDistinct ?_
  · rw [hOwners, List.length_cons, hFull] at hLess
    exact Nat.not_succ_le_self _ hLess
  · intro j hj
    obtain ⟨fd', hMem, hTimer⟩ := List.mem_filterMap.mp hj
    obtain ⟨j', hTimer', hDue'⟩ := h.due_of_ready (hAll fd' hMem)
    rw [hTimer, Option.some.injEq] at hTimer'
    exact hDue j (hTimer' ▸ hDue')

end

-- ---------------------------------------------------------------------------
-- The steps
-- ---------------------------------------------------------------------------

omit [DecidableEq ι] in
/-- What is due stays due. -/
theorem due_tick {ns : Nat} (h : s.Due timeout i) :
    State.Due timeout { s with now := s.now + ns } i :=
  ⟨h.1, Nat.le_trans h.2 (Nat.le_add_right _ _)⟩

omit [DecidableEq ι] in
/-- Time passes in `epoll_wait` only until a timer is ready, so nothing becomes overdue there.
-/
theorem Prompt.tick (h : Prompt timeout s) (hInv : Inv timeout s) (hTimeout : ∀ i, 1 ≤ timeout i)
    {ns : Nat} (hNone : s.poll.runs = false → ∀ fd ∈ s.opened, ¬ s.Ready fd) :
    Prompt timeout { s with now := s.now + ns } := by
  refine ⟨?_, h.running⟩
  intro hWaits
  have hEvents : s.poll.events = [] := by
    unfold Poll.runs at hWaits
    split at hWaits
    · next hPoll => rw [show s.poll = _ from hPoll]; rfl
    · cases hWaits
    · cases hWaits
  obtain ⟨hDue, -⟩ := h.waiting hWaits
  refine ⟨fun i hi => due_tick (hDue i hi), Or.inr ?_⟩
  intro i
  by_contra hi
  obtain ⟨fd, hOpened, hReady, -⟩ :=
    hInv.ready_of_due hEvents (hTimeout i) (hDue i (by simpa using hi))
  exact hNone hWaits fd hOpened hReady

/-- A timer that is started is not due yet, as its length is not zero. -/
theorem Prompt.start (h : Prompt timeout s) (hInv : Inv timeout s) (hRuns : s.poll.runs = true)
    (hStage : s.stage i = .notYet) (hNew : fd ∉ s.opened) :
    Prompt timeout (s.start timeout i fd) := by
  refine ⟨fun hWaits => absurd (hRuns.symm.trans hWaits) (by simp), ?_⟩
  intro _ hFew j hj
  refine (h.running hRuns hFew j hj).imp ?_ ?_
  · intro hResumed
    show (Function.update s.stage i (.waiting fd) j).wasResumed = true
    rw [observe_update Stage.wasResumed rfl (by rw [hStage]; rfl)]
    exact hResumed
  · rintro ⟨fd', hMem, hTimer⟩
    refine ⟨fd', hMem, ?_⟩
    show Function.update s.timers fd (some i) fd' = some j
    have hStage' := hInv.timers fd' j hTimer
    rw [Function.update_of_ne (hInv.ne_of_not_mem hNew (by rw [hStage']; rfl)), hTimer]

/-- A coroutine that is done waits no longer. -/
theorem Prompt.finish (h : Prompt timeout s) (hRuns : s.poll.runs = true)
    (hStage : s.stage i = .resumed fd) :
    Prompt timeout { s with
      opened := s.opened.erase fd
      interest := Function.update s.interest fd .absent
      stage := Function.update s.stage i .finished } := by
  refine ⟨fun hWaits => absurd (hRuns.symm.trans hWaits) (by simp), ?_⟩
  intro _ hFew j hj
  refine (h.running hRuns hFew j hj).imp_left ?_
  intro hResumed
  show (Function.update s.stage i .finished j).wasResumed = true
  rw [observe_update Stage.wasResumed rfl (by rw [hStage]; rfl)]
  exact hResumed

omit [DecidableEq ι] in
/-- The return of `epoll_wait`, with everything that was due. -/
theorem Prompt.fetch (h : Prompt timeout s) (hInv : Inv timeout s)
    (hTimeout : ∀ i, 1 ≤ timeout i) {deadline : Nat} (hWaiting : s.poll = .waiting deadline)
    {events : List Nat} (hReports : s.Reports events) :
    Prompt timeout { s with
      interest := fun fd => if fd ∈ events then .disabled else s.interest fd
      poll := nextEvent events } := by
  have hNone : s.poll.events = [] := by rw [hWaiting]; rfl
  obtain ⟨hDue, hOnly⟩ := h.waiting (by rw [hWaiting]; rfl)
  refine ⟨fun hWaits => absurd ((runs_nextEvent events).symm.trans hWaits) (by simp), ?_⟩
  intro _ hFew i hi
  obtain ⟨fd, hOpened, hReady, hTimer⟩ := hInv.ready_of_due hNone (hTimeout i) (hDue i hi)
  obtain ⟨hNodup, -, hEvents, hFull⟩ := hReports
  refine Or.inr ⟨fd, ?_, hTimer⟩
  show fd ∈ (nextEvent events).events
  rw [events_nextEvent]
  rcases hOnly with hOnly | hNobody
  · rcases hFull with hFull | hAll
    · exact hInv.mem_of_full hOnly hFew hNodup (fun fd' hMem => (hEvents fd' hMem).2) hFull
        hReady
    · exact hAll fd hOpened hReady
  · exact absurd (hi.symm.trans (hNobody i)) (by simp)

/-- An event that is handled is no longer owed. -/
theorem Prompt.handle (h : Prompt timeout s) (hInv : Inv timeout s) {events : List Nat}
    (hPoll : s.poll = .handling (fd :: events)) :
    Prompt timeout { s.handle fd with poll := nextEvent events } := by
  obtain ⟨i, hTimer, hStage, -, hHandle⟩ := hInv.handle_eq hPoll
  rw [hHandle]
  refine ⟨fun hWaits => absurd ((runs_nextEvent events).symm.trans hWaits) (by simp), ?_⟩
  intro _ hFew j hj
  show (Function.update s.stage i (.resumed fd) j).wasResumed = true ∨
    ∃ fd' ∈ (nextEvent events).events, Function.update s.timers fd none fd' = some j
  rw [events_nextEvent]
  rcases update_at s.stage i (.resumed fd) j with ⟨-, hAt⟩ | ⟨hne, hAt⟩
  · rw [hAt]
    exact Or.inl rfl
  · rw [hAt]
    refine (h.running (by rw [hPoll]; rfl) hFew j hj).imp_right ?_
    rintro ⟨fd', hMem, hTimer'⟩
    have hfd : fd' ≠ fd := by
      rintro rfl
      rw [hTimer, Option.some.injEq] at hTimer'
      exact hne hTimer'.symm
    rw [hPoll] at hMem
    refine ⟨fd', (List.mem_cons.mp hMem).resolve_left hfd, ?_⟩
    rw [Function.update_of_ne hfd, hTimer']

/-- A case for each action. -/
theorem prompt_step (h : Prompt timeout s) (hInv : Inv timeout s) (hTimeout : ∀ i, 1 ≤ timeout i)
    (hst : step timeout s a = some s') : Prompt timeout s' := by
  cases a with
  | tick ns =>
    simp only [step] at hst
    split at hst
    · simp only [Option.ite_none_right_eq_some, Option.some.injEq] at hst
      exact hst.2 ▸ h.tick hInv hTimeout fun _ => hst.1.2
    · next hPoll =>
      exact Option.some.inj hst ▸ h.tick hInv hTimeout fun hWaits => by
        rw [hPoll] at hWaits
        cases hWaits
    · next hPoll =>
      exact Option.some.inj hst ▸ h.tick hInv hTimeout fun hWaits => by
        rw [hPoll] at hWaits
        cases hWaits
  | start i fd =>
    simp only [step, Option.ite_none_right_eq_some, Option.some.injEq] at hst
    obtain ⟨⟨hRuns, hStage, hNew⟩, rfl⟩ := hst
    exact h.start hInv hRuns hStage hNew
  | finish i =>
    simp only [step] at hst
    split at hst
    · next fd hStage =>
      simp only [Option.ite_none_right_eq_some, Option.some.injEq] at hst
      exact hst.2 ▸ h.finish hst.1 hStage
    · cases hst
  | poll running =>
    simp only [step] at hst
    split at hst
    · obtain rfl := Option.some.inj hst
      refine ⟨fun _ => ⟨?_, Or.inl ?_⟩, fun hRuns => by cases hRuns⟩
      · intro i hi
        exact of_decide_eq_true hi
      · intro i hi
        exact decide_eq_true hi
    · cases hst
  | fetch events =>
    simp only [step] at hst
    split at hst
    · next hWaiting =>
      simp only [Option.ite_none_right_eq_some, Option.some.injEq] at hst
      exact hst.2 ▸ h.fetch hInv hTimeout hWaiting hst.1
    · cases hst
  | handle =>
    simp only [step] at hst
    split at hst
    · next hPoll => exact Option.some.inj hst ▸ h.handle hInv hPoll
    · cases hst

/-- In every state, when no length is zero. -/
theorem prompt_reachable (hTimeout : ∀ i, 1 ≤ timeout i) (h : (system timeout).Reachable s) :
    Prompt timeout s := by
  have hInit : Prompt timeout (system timeout).init := by
    refine ⟨?_, ?_⟩
    · intro hWaits
      exact absurd hWaits (by simp [system, Poll.runs])
    · intro _ _ i hi
      exact absurd hi (by simp [system])
  refine h.invariant hInit ?_
  intro s a s' hs hPrompt _ hst
  exact prompt_step hPrompt (inv_reachable hs) hTimeout hst

-- ---------------------------------------------------------------------------
-- Which timers fire
-- ---------------------------------------------------------------------------

/-- The state after a `poll` right after the start of a timer. -/
def pollAfterStart (timeout : ι → Nat) (i : ι) : State ι :=
  { (system timeout).init.start timeout i 0 with
    due := fun j => decide (((system timeout).init.start timeout i 0).Due timeout j) }

/-- If its length is zero, that `poll` finds nothing. -/
theorem pollAfterStart_reachable (hZero : timeout i = 0) :
    (system timeout).Reachable (pollAfterStart timeout i) := by
  have hStart : step timeout (system timeout).init (.start i 0) =
      some ((system timeout).init.start timeout i 0) := by
    simp [step, system, Poll.runs]
  have hPoll : step timeout ((system timeout).init.start timeout i 0) (.poll false) =
      some { pollAfterStart timeout i with poll := .waiting 0 } := by
    simp [step, system, State.start, pollAfterStart]
  have hFetch : step timeout { pollAfterStart timeout i with poll := .waiting 0 } (.fetch []) =
      some (pollAfterStart timeout i) := by
    simp [step, system, State.start, pollAfterStart, State.Reports, State.Ready, State.Expired,
      hZero, itValue, expiryAt, nextEvent]
  have h1 : (system timeout).Reachable ((system timeout).init.start timeout i 0) :=
    .step (a := .start i 0) .init trivial hStart
  have h2 : (system timeout).Reachable { pollAfterStart timeout i with poll := .waiting 0 } :=
    .step (a := .poll false) h1 trivial hPoll
  exact .step (a := .fetch []) h2 trivial hFetch

/-- Nothing else is due then. -/
theorem fewDue_pollAfterStart : (pollAfterStart timeout i).FewDue := by
  intro l hNodup hDue
  have hOnly : l ⊆ [i] := by
    intro j hj
    by_contra hne
    rw [List.mem_singleton] at hne
    have hWaiting := (of_decide_eq_true (hDue j hj)).1
    rw [show ((system timeout).init.start timeout i 0).stage j = .notYet from
      Function.update_of_ne hne _ _] at hWaiting
    cases hWaiting
  have hLength := (List.subperm_of_subset hNodup hOnly).length_le
  exact Nat.le_trans hLength (show 1 ≤ kMaxEvents by decide)

/-- The contract, from the two invariants. -/
theorem contract_of_pos (hTimeout : ∀ i, 1 ≤ timeout i) (h : (system timeout).Reachable s) :
    Contract timeout s := by
  have hInv := inv_reachable h
  refine ⟨fun r hr => (hInv.notEarly r hr).2, hInv.once, ?_⟩
  intro hIdle hFew i hi
  have hPrompt := (prompt_reachable hTimeout h).running (by rw [hIdle]; rfl) hFew i hi
  rw [hIdle] at hPrompt
  rcases hPrompt with hResumed | ⟨fd, hMem, -⟩
  · exact (hInv.resumed i).mpr hResumed
  · cases hMem

/-- **Which timers fire**: every run keeps what it promises exactly if no timer has length zero.
The timers are any number, started at any time, on one event loop that hands out at most 16
events a turn; a timer of length zero disarms its `timerfd` and waits for ever
(`zero_timer_waits`). -/
theorem timers_fire (timeout : ι → Nat) :
    (∀ s, (system timeout).Reachable s → Contract timeout s) ↔ ∀ i, 1 ≤ timeout i := by
  constructor
  · intro hAll i
    by_contra hPos
    have hZero : timeout i = 0 := by omega
    have hReached := pollAfterStart_reachable hZero
    have hDue : (pollAfterStart timeout i).due i = true := by
      simp [pollAfterStart, State.Due, State.start, system, Stage.isWaiting, hZero]
    obtain ⟨t, ht⟩ := (hAll _ hReached).allDue rfl fewDue_pollAfterStart i hDue
    exact zero_never_fires hZero hReached t ht
  · exact fun hTimeout s hs => contract_of_pos hTimeout hs

/-- `co_await AsyncTimer(0ms)` and a `poll`. -/
theorem zero_timer_waits :
    ∃ s : State Unit, (system fun _ => 0).Reachable s ∧ ¬ Contract (fun _ => 0) s := by
  obtain ⟨s, hs, hIdle, hDue, hNone⟩ := System.exists_reachable_of_exec
    (S := system fun _ : Unit => 0)
    (p := fun s => s.poll = .idle ∧ s.due () = true ∧ s.resumptions = [])
    [.start () 3, .poll false, .fetch []] (by decide +kernel)
  refine ⟨s, hs, ?_⟩
  intro hContract
  have hFew : s.FewDue := by
    intro l hNodup _
    exact Nat.le_trans hNodup.length_le_card (by decide)
  obtain ⟨t, ht⟩ := hContract.allDue hIdle hFew () hDue
  rw [hNone] at ht
  cases ht

end EmbLinux.AsyncTimer
