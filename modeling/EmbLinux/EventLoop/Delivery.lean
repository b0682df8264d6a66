import EmbLinux.EventLoop.Model
import EmbLinux.Lib.Update

/-!
# EmbLinux — the expiry of a registered timer

`register_timer` first adds the fd to the epoll set and then inserts the
coroutine in the map. If the timer expires between the two and `poll` looks the
fd up before the insert, `poll` finds nothing: the event is used up, the fd stays
disabled, and the coroutine that is inserted next is never resumed.

`Life` lists the stages of one registration, the two of that loss included, and
`followed` says that every fd is at one of them in every run. `no_lost_expiry`
excludes the loss by the one step that starts it, and `early_lookup_loses` says
that this step always leads to it.

The loop calls `poll` again and again from one thread, and any thread may register. A coroutine
that is resumed may register its next timer under another fd.
-/

namespace EmbLinux.EventLoop

variable {φ χ : Type*} [DecidableEq φ] {s s' : State φ χ} {a : Action φ χ} {fd : φ} {coro : χ}

-- ---------------------------------------------------------------------------
-- What is seen of one fd
-- ---------------------------------------------------------------------------

/-- The fds of the array that `poll` has yet to look up. -/
def Poll.batch : Poll φ χ → List φ
  | .idle => []
  | .lookup events => events
  | .reading _ _ events => events
  | .deleting _ _ events => events
  | .resuming _ _ events => events

/-- The coroutine that `poll` took for an fd and is about to resume. -/
def Poll.hand (p : Poll φ χ) (fd : φ) : Option χ :=
  match p with
  | .idle => none
  | .lookup _ => none
  | .reading fd' coro _ => if fd = fd' then some coro else none
  | .deleting fd' coro _ => if fd = fd' then some coro else none
  | .resuming fd' coro _ => if fd = fd' then some coro else none

/-- **No expiry is lost**: a coroutine whose `register_timer` has returned and
that is not resumed has its fd armed, or its event is in the array of `poll` and
its entry in the map, or `poll` has taken it from the map to resume it. -/
def NoLostExpiry (s : State φ χ) : Prop :=
  ∀ fd coro, s.registration fd = .returned coro → s.resumed fd = false →
    s.interest fd = .armed ∨ (fd ∈ s.poll.batch ∧ s.timers fd = some coro) ∨
      s.poll.hand fd = some coro

/-- All that the loop knows of one file descriptor. -/
structure View (χ : Type*) where
  interest : Interest
  timer : Option χ
  registration : Registration χ
  inBatch : Prop
  hand : Option χ
  resumed : Bool

/-- What the state says of `fd`; a step on another fd leaves it as it is. -/
def view (s : State φ χ) (fd : φ) : View χ where
  interest := s.interest fd
  timer := s.timers fd
  registration := s.registration fd
  inBatch := fd ∈ s.poll.batch
  hand := s.poll.hand fd
  resumed := s.resumed fd

/-- The stages of a registration. `unseen` and `lost` are the loss: the event is
gone before the insert, and after it. -/
inductive Life (χ : Type*)
  | notYet
  | threw
  | adding (coro : χ)
  | early (coro : χ)
  | unseen (coro : χ)
  | armed (coro : χ)
  | reported (coro : χ)
  | taken (coro : χ) (deleted : Bool)
  | done (coro : χ) (deleted : Bool)
  | lost (coro : χ)

/-- The lives in which an expiry has resumed nobody. -/
def Life.isLoss : Life χ → Bool
  | .unseen _ => true
  | .lost _ => true
  | _ => false

/-- The interest after the report, before or after `EPOLL_CTL_DEL`. -/
def reportedInterest (deleted : Bool) : Interest :=
  if deleted then .absent else .disabled

/-- What is seen of an fd at a stage. -/
def Life.view : Life χ → View χ
  | .notYet => ⟨.absent, none, .notYet, False, none, false⟩
  | .threw => ⟨.absent, none, .threw, False, none, false⟩
  | .adding coro => ⟨.armed, none, .inserting coro, False, none, false⟩
  | .early coro => ⟨.disabled, none, .inserting coro, True, none, false⟩
  | .unseen coro => ⟨.disabled, none, .inserting coro, False, none, false⟩
  | .armed coro => ⟨.armed, some coro, .returned coro, False, none, false⟩
  | .reported coro => ⟨.disabled, some coro, .returned coro, True, none, false⟩
  | .taken coro deleted =>
    ⟨reportedInterest deleted, none, .returned coro, False, some coro, false⟩
  | .done coro deleted =>
    ⟨reportedInterest deleted, none, .returned coro, False, none, true⟩
  | .lost coro => ⟨.disabled, some coro, .returned coro, False, none, false⟩

-- ---------------------------------------------------------------------------
-- Every step moves an fd from stage to stage
-- ---------------------------------------------------------------------------

/-- `poll` looks up only fds whose `register_timer` has inserted its coroutine. -/
def InTime (s : State φ χ) : Action φ χ → Prop
  | .poll => ∀ fd events coro, s.poll = .lookup (fd :: events) →
      s.registration fd ≠ .inserting coro
  | _ => True

/-- Every fd is at some stage; under `lossless` it is none of the loss. -/
structure Followed (lossless : Prop) (s : State φ χ) : Prop where
  nodup : s.poll.batch.Nodup
  stage : ∀ fd, ∃ life : Life χ, view s fd = life.view ∧ (lossless → life.isLoss = false)

variable {lossless : Prop}

section

omit [DecidableEq φ]

@[simp] theorem batch_idle : (Poll.idle : Poll φ χ).batch = [] := rfl
@[simp] theorem batch_lookup (events : List φ) :
    (Poll.lookup events : Poll φ χ).batch = events := rfl
@[simp] theorem batch_reading (events : List φ) :
    (Poll.reading fd coro events).batch = events := rfl
@[simp] theorem batch_deleting (events : List φ) :
    (Poll.deleting fd coro events).batch = events := rfl
@[simp] theorem batch_resuming (events : List φ) :
    (Poll.resuming fd coro events).batch = events := rfl
@[simp] theorem batch_nextEvent (events : List φ) :
    (nextEvent events : Poll φ χ).batch = events := by
  cases events <;> rfl

end

@[simp] theorem hand_idle (fd : φ) : (Poll.idle : Poll φ χ).hand fd = none := rfl
@[simp] theorem hand_lookup (events : List φ) (fd : φ) :
    (Poll.lookup events : Poll φ χ).hand fd = none := rfl
@[simp] theorem hand_reading (events : List φ) (fd' : φ) :
    (Poll.reading fd coro events).hand fd' = if fd' = fd then some coro else none := rfl
@[simp] theorem hand_deleting (events : List φ) (fd' : φ) :
    (Poll.deleting fd coro events).hand fd' = if fd' = fd then some coro else none := rfl
@[simp] theorem hand_resuming (events : List φ) (fd' : φ) :
    (Poll.resuming fd coro events).hand fd' = if fd' = fd then some coro else none := rfl
@[simp] theorem hand_nextEvent (events : List φ) (fd : φ) :
    (nextEvent events : Poll φ χ).hand fd = none := by
  cases events <;> rfl

/-- Nothing has been registered yet. -/
theorem followed_init : Followed lossless (init φ χ) where
  nodup := List.nodup_nil
  stage := fun _ => ⟨.notYet, by simp [view, init, Life.view],
    fun _ => rfl⟩

/-- A step that is seen at `fd` only. -/
theorem Followed.move (h : Followed lossless s) (fd : φ) (hNodup : s'.poll.batch.Nodup)
    (life : Life χ) (hHere : view s' fd = life.view) (hLoss : lossless → life.isLoss = false)
    (hOther : ∀ fd', fd' ≠ fd → view s' fd' = view s fd') : Followed lossless s' := by
  refine ⟨hNodup, ?_⟩
  intro fd'
  by_cases hfd : fd' = fd
  · subst hfd
    exact ⟨life, hHere, hLoss⟩
  · rw [hOther fd' hfd]
    exact h.stage fd'

/-- `epoll_ctl` arms the fd before the map names its coroutine, -/
theorem Followed.add (h : Followed lossless s) {ok : Bool}
    (hst : step s (.add fd coro ok) = some s') : Followed lossless s' := by
  simp only [step] at hst
  split at hst
  · next hReg =>
    obtain ⟨life, hView, hLoss⟩ := h.stage fd
    replace hReg : life.view.registration = .notYet := hView ▸ hReg
    cases life <;> cases hReg
    simp only [view, Life.view, View.mk.injEq] at hView
    obtain ⟨hInterest, hTimer, -, hBatch, hHand, hResumed⟩ := hView
    split at hst <;> cases hst
    · refine h.move fd h.nodup (.adding coro) ?_ (fun _ => rfl) ?_
      · simp [view, Life.view, hTimer, hBatch, hHand, hResumed]
      · intro fd' hne
        simp [view, hne]
    · refine h.move fd h.nodup .threw ?_ (fun _ => rfl) ?_
      · simp [view, Life.view, hInterest, hTimer, hBatch, hHand, hResumed]
      · intro fd' hne
        simp [view, hne]
  · cases hst

/-- and `register_timer` then puts it in the map. -/
theorem Followed.insert (h : Followed lossless s) (hst : step s (.insert fd) = some s') :
    Followed lossless s' := by
  simp only [step] at hst
  split at hst
  · next coro hReg =>
    cases hst
    obtain ⟨life, hView, hLoss⟩ := h.stage fd
    replace hReg : life.view.registration = .inserting coro := hView ▸ hReg
    -- `epoll_ctl` done: still armed, in the array of `poll`, or looked up already
    obtain ⟨life', hLife', hLoss'⟩ : ∃ life' : Life χ,
        life'.view = { life.view with timer := some coro, registration := .returned coro } ∧
        life'.isLoss = life.isLoss := by
      cases life <;> cases hReg
      · exact ⟨.armed coro, rfl, rfl⟩
      · exact ⟨.reported coro, rfl, rfl⟩
      · exact ⟨.lost coro, rfl, rfl⟩
    refine h.move fd h.nodup life' ?_ (fun hl => hLoss'.trans (hLoss hl)) ?_
    · rw [hLife', ← hView]
      simp [view]
    · intro fd' hne
      simp [view, hne]
  · cases hst

/-- `epoll_wait` reports fds that are armed and due, and disarms them. -/
theorem Followed.wait (h : Followed lossless s) {events : List φ}
    (hst : step s (.wait events) = some s') : Followed lossless s' := by
  simp only [step] at hst
  split at hst
  · next hIdle =>
    split at hst <;> cases hst
    next hReports =>
    obtain ⟨hNodup, -, hArmed⟩ := hReports
    refine ⟨by rw [batch_nextEvent]; exact hNodup, ?_⟩
    intro fd
    obtain ⟨life, hView, hLoss⟩ := h.stage fd
    by_cases hfd : fd ∈ events
    · -- the fd is reported, so it was armed
      have hInterest : life.view.interest = .armed := hView ▸ (hArmed fd hfd).1
      obtain ⟨life', hLife', hLoss'⟩ : ∃ life' : Life χ,
          life'.view = { life.view with interest := .disabled, inBatch := True, hand := none } ∧
          life'.isLoss = false := by
        cases life with
        | adding coro => exact ⟨.early coro, rfl, rfl⟩
        | armed coro => exact ⟨.reported coro, rfl, rfl⟩
        | taken coro deleted => cases deleted <;> cases hInterest
        | done coro deleted => cases deleted <;> cases hInterest
        | _ => cases hInterest
      refine ⟨life', ?_, fun _ => hLoss'⟩
      rw [hLife', ← hView]
      simp [view, hfd]
    · refine ⟨life, ?_, hLoss⟩
      rw [← hView]
      simp [view, hfd, hIdle]
  · cases hst

/-- A step of the loop of `poll` handles one fd of the batch. -/
theorem Followed.poll (h : Followed lossless s) (hInTime : lossless → InTime s .poll)
    (hst : pollStep s = some s') : Followed lossless s' := by
  unfold pollStep at hst
  split at hst
  · cases hst
  · cases hst
  · -- the region
    next fd events hPoll =>
    have hNodup : (fd :: events).Nodup := by
      have hBatch := h.nodup
      rw [hPoll] at hBatch
      exact hBatch
    obtain ⟨hFresh, hEvents⟩ := List.nodup_cons.mp hNodup
    obtain ⟨life, hView, hLoss⟩ := h.stage fd
    have hIn : life.view.inBatch := by
      rw [← hView]
      simp [view, hPoll]
    split at hst
    · next hTimer =>
      cases hst
      replace hTimer : life.view.timer = none := hView ▸ hTimer
      cases life <;> cases hIn <;> cases hTimer
      next coro =>
      have hReg : s.registration fd = .inserting coro := congrArg View.registration hView
      refine h.move fd (by rw [batch_nextEvent]; exact hEvents) (.unseen coro) ?_ ?_ ?_
      · have hInterest : s.interest fd = .disabled := congrArg View.interest hView
        have hTimer : s.timers fd = none := congrArg View.timer hView
        have hResumed : s.resumed fd = false := congrArg View.resumed hView
        simp [view, Life.view, hFresh, hReg, hInterest, hTimer,
          hResumed]
      · intro hl
        exact absurd hReg (hInTime hl fd events coro hPoll)
      · intro fd' hne
        simp [view, hPoll, hne]
    · next coro hTimer =>
      cases hst
      replace hTimer : life.view.timer = some coro := hView ▸ hTimer
      cases life <;> cases hIn <;> cases hTimer
      refine h.move fd hEvents (.taken coro false) ?_ (fun _ => rfl) ?_
      · have hReg : s.registration fd = .returned coro := congrArg View.registration hView
        have hInterest : s.interest fd = .disabled := congrArg View.interest hView
        have hResumed : s.resumed fd = false := congrArg View.resumed hView
        simp [view, Life.view, reportedInterest, hFresh, hReg, hInterest,
          hResumed]
      · intro fd' hne
        simp [view, hPoll, hne]
  · next fd coro events hPoll =>
    cases hst
    have hNodup := h.nodup
    rw [hPoll] at hNodup
    refine ⟨hNodup, ?_⟩
    intro fd'
    obtain ⟨life, hView, hLoss⟩ := h.stage fd'
    refine ⟨life, ?_, hLoss⟩
    rw [← hView]
    simp [view, hPoll]
  · next fd coro events hPoll =>
    cases hst
    obtain ⟨life, hView, -⟩ := h.stage fd
    have hHand : life.view.hand = some coro := by
      rw [← hView]
      simp [view, hPoll]
    cases life <;> cases hHand
    next deleted =>
    have hNodup := h.nodup
    rw [hPoll] at hNodup
    refine h.move fd hNodup (.taken coro true) ?_ (fun _ => rfl) ?_
    · simp only [view, Life.view, View.mk.injEq, hPoll] at hView
      obtain ⟨-, hTimer, hReg, hBatch, hHand, hResumed⟩ := hView
      simpa [view, Life.view, reportedInterest, hTimer, hReg, hResumed]
        using hBatch
    · intro fd' hne
      simp [view, hPoll, hne]
  · next fd coro events hPoll =>
    cases hst
    obtain ⟨life, hView, -⟩ := h.stage fd
    have hHand : life.view.hand = some coro := by
      rw [← hView]
      simp [view, hPoll]
    cases life <;> cases hHand
    next deleted =>
    have hNodup := h.nodup
    rw [hPoll] at hNodup
    refine h.move fd (by rw [batch_nextEvent]; exact hNodup) (.done coro deleted) ?_
      (fun _ => rfl) ?_
    · simp only [view, Life.view, View.mk.injEq, hPoll] at hView
      obtain ⟨hInterest, hTimer, hReg, hBatch, hHand, hResumed⟩ := hView
      simpa [view, Life.view, hInterest, hTimer, hReg]
        using hBatch
    · intro fd' hne
      simp [view, hPoll, hne]

/-- Every step keeps it; a lossless run asks that `poll` looks up no fd too early. -/
theorem followed_step (h : Followed lossless s) (hInTime : lossless → InTime s a)
    (hst : step s a = some s') : Followed lossless s' := by
  cases a with
  | expire fd =>
    cases hst
    exact ⟨h.nodup, h.stage⟩
  | add fd coro ok => exact h.add hst
  | insert fd => exact h.insert hst
  | wait events => exact h.wait hst
  | poll => exact h.poll hInTime hst

/-- In every run each fd is at some stage. -/
theorem followed (h : (system φ χ).Reachable s) : Followed False s :=
  h.invariant (I := Followed False) followed_init
    fun _ _ _ _ hI _ hst => followed_step hI False.elim hst

-- ---------------------------------------------------------------------------
-- No loss
-- ---------------------------------------------------------------------------

/-- At no stage but the last is a returned registration without its event. -/
theorem Followed.noLostExpiry (h : Followed True s) : NoLostExpiry s := by
  intro fd coro hReg hResumed
  obtain ⟨life, hView, hLoss⟩ := h.stage fd
  replace hReg : life.view.registration = .returned coro := hView ▸ hReg
  replace hResumed : life.view.resumed = false := hView ▸ hResumed
  replace hLoss := hLoss trivial
  cases life <;> cases hReg <;> cases hResumed <;> cases hLoss
  · exact Or.inl (congrArg View.interest hView)
  · refine Or.inr (Or.inl ⟨?_, congrArg View.timer hView⟩)
    exact of_eq_true (congrArg View.inBatch hView)
  · exact Or.inr (Or.inr (congrArg View.hand hView))

/-- **A registered timer never loses its expiry** in the runs in which `poll` looks up no fd
between the two halves of its `register_timer`. What is excluded is a timer that expires between
`epoll_ctl` and the insertion into the map, of which `poll` reads the event and resumes nobody
(`early_lookup_loses`). Every timer has an fd of its own here; an fd that is used again is a
matter of `TimerTasks`. -/
theorem no_lost_expiry (h : (system φ χ).ReachableWhere InTime s) : NoLostExpiry s :=
  Followed.noLostExpiry <| h.invariant (I := Followed True) followed_init
    fun _ _ _ _ hI hok hst => followed_step hI (fun _ => hok) hst

/-- `InTime` as a check. -/
def inTime (s : State φ χ) : Action φ χ → Bool
  | .poll =>
    match s.poll with
    | .lookup (fd :: _) =>
      match s.registration fd with
      | .inserting _ => false
      | _ => true
    | _ => true
  | _ => true

omit [DecidableEq φ] in
/-- The check is right. -/
theorem inTime_of_check (h : inTime s a = true) : InTime s a := by
  cases a with
  | poll =>
    intro fd events coro hPoll hReg
    simp [inTime, hPoll, hReg] at h
  | _ => trivial

/-- One timer expires before its registration and is resumed; the event of
another is in the array while the first is resumed. -/
theorem no_lost_expiry_two :
    ∃ s : State Nat Nat, (system Nat Nat).ReachableWhere InTime s ∧
      s.resumed 3 = true ∧ s.registration 4 = .returned 40 ∧ s.poll = .lookup [4] ∧
      NoLostExpiry s := by
  obtain ⟨s, hs, hp⟩ := System.exists_reachableWhere_of_exec (S := system Nat Nat)
    (c := inTime) (fun _ _ => inTime_of_check)
    (p := fun s => s.resumed 3 = true ∧ s.registration 4 = .returned 40 ∧ s.poll = .lookup [4])
    [.expire 3, .add 3 30 true, .add 4 40 true, .insert 3, .insert 4, .expire 4, .wait [3, 4],
      .poll, .poll, .poll, .poll] (by decide)
  exact ⟨s, hs, hp.1, hp.2.1, hp.2.2, no_lost_expiry hs⟩

-- ---------------------------------------------------------------------------
-- The loss
-- ---------------------------------------------------------------------------

/-- A lookup between the two halves of `register_timer` loses the expiry: after
the insert the coroutine waits for an event that is gone. -/
theorem early_lookup_loses (h : (system φ χ).Reachable s) {events : List φ}
    (hPoll : s.poll = .lookup (fd :: events)) (hReg : s.registration fd = .inserting coro) :
    ∃ s', (system φ χ).exec s [.poll, .insert fd] = some s' ∧
      view s' fd = (Life.lost coro).view := by
  have hF := followed h
  obtain ⟨life, hView, -⟩ := hF.stage fd
  have hIn : life.view.inBatch := by
    rw [← hView]
    simp [view, hPoll]
  have hReg' : life.view.registration = .inserting coro := hView ▸ hReg
  cases life <;> cases hIn <;> cases hReg'
  have hTimer : s.timers fd = none := congrArg View.timer hView
  have hInterest : s.interest fd = .disabled := congrArg View.interest hView
  have hResumed : s.resumed fd = false := congrArg View.resumed hView
  have hFresh : fd ∉ events := by
    have hNodup := hF.nodup
    rw [hPoll] at hNodup
    exact (List.nodup_cons.mp hNodup).1
  have hLookup : (system φ χ).step s .poll = some { s with poll := nextEvent events } := by
    show pollStep s = _
    rw [pollStep, hPoll]
    dsimp only
    rw [hTimer]
  have hInsert : (system φ χ).step { s with poll := nextEvent events } (.insert fd) =
      some { s with
        timers := Function.update s.timers fd (some coro)
        registration := Function.update s.registration fd (.returned coro)
        poll := nextEvent events } := by
    simp [system, step, hReg]
  refine ⟨_, (System.exec_cons_of_step hLookup _).trans (System.exec_cons_of_step hInsert _), ?_⟩
  simp [view, Life.view, hInterest, hResumed, hFresh]

/-- No later step resumes the coroutine. -/
theorem lost_step (hLost : view s fd = (Life.lost coro).view) (hst : step s a = some s') :
    view s' fd = (Life.lost coro).view := by
  rw [← hLost]
  simp only [view, Life.view, View.mk.injEq, eq_iff_iff, iff_false] at hLost
  obtain ⟨hInterest, hTimer, hReg, hBatch, hHand, hResumed⟩ := hLost
  cases a with
  | expire fd' =>
    cases hst
    rfl
  | add fd' coro' ok =>
    simp only [step] at hst
    split at hst
    · next hReg' =>
      have hne : fd ≠ fd' := by
        intro hEq
        rw [hEq, hReg'] at hReg
        cases hReg
      split at hst <;> cases hst <;> simp [view, hne]
    · cases hst
  | insert fd' =>
    simp only [step] at hst
    split at hst
    · next coro' hReg' =>
      have hne : fd ≠ fd' := by
        intro hEq
        rw [hEq, hReg'] at hReg
        cases hReg
      cases hst
      simp [view, hne]
    · cases hst
  | wait events =>
    simp only [step] at hst
    split at hst
    · next hIdle =>
      split at hst <;> cases hst
      next hReports =>
      have hOut : fd ∉ events := by
        intro hMem
        rw [(hReports.2.2 fd hMem).1] at hInterest
        cases hInterest
      simp [view, hOut, hIdle]
    · cases hst
  | poll =>
    replace hst : pollStep s = some s' := hst
    unfold pollStep at hst
    split at hst
    · cases hst
    · cases hst
    · next fd' events hPoll =>
      rw [hPoll, batch_lookup, List.mem_cons, not_or] at hBatch
      split at hst <;> cases hst <;> simp [view, hPoll, hBatch.1, hBatch.2]
    · next fd' coro' events hPoll =>
      cases hst
      simp [view, hPoll]
    · next fd' coro' events hPoll =>
      have hne : fd ≠ fd' := by
        intro hEq
        simp [hPoll, hEq] at hHand
      cases hst
      simp [view, hPoll, hne]
    · next fd' coro' events hPoll =>
      have hne : fd ≠ fd' := by
        intro hEq
        simp [hPoll, hEq] at hHand
      cases hst
      simp [view, hPoll, hne]

/-- The timer expires and is looked up between the two halves of its
`register_timer`. -/
theorem expiry_before_insert :
    ¬ ∀ s : State Nat Nat, (system Nat Nat).Reachable s → NoLostExpiry s := by
  intro hClaim
  obtain ⟨s, hs, hReg, hResumed, hInterest, hPoll⟩ :=
    System.exists_reachable_of_exec (S := system Nat Nat)
      (p := fun s => s.registration 3 = .returned 30 ∧ s.resumed 3 = false ∧
        s.interest 3 = .disabled ∧ s.poll = .idle)
      [.add 3 30 true, .expire 3, .wait [3], .poll, .insert 3] (by decide)
  rcases hClaim s hs 3 30 hReg hResumed with hArmed | ⟨hBatch, -⟩ | hHand
  · rw [hInterest] at hArmed
    cases hArmed
  · rw [hPoll] at hBatch
    cases hBatch
  · rw [hPoll] at hHand
    cases hHand

end EmbLinux.EventLoop
