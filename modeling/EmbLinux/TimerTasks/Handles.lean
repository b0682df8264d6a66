import EmbLinux.TimerTasks.Model
import EmbLinux.Lib.Update
import Mathlib.Data.List.Nodup

/-!
# EmbLinux — the handles in the map of the `EventLoop`

Three tables have to agree: the epoll set, the map `timers` and the coroutines that exist. So
do the events that `poll` has fetched and not yet handled.

* `Awaited` — what the tables have for an fd that can still produce a call of `resume`;
* `destroyed_not_resumed` — no run resumes a destroyed coroutine, or one for another timer, if
  a coroutine is destroyed only with its timer and never while its event is in an array, and
  no fd is registered while an event of a former timer is in one;
* `destroyed_coroutine_resumed` — both failures, out of one array of two events.

The owner of a coroutine may destroy it whenever it does not run; when that is safe is what
`InTime` says.
-/

namespace EmbLinux.TimerTasks

open EventLoop (Interest kMaxEvents)

variable {κ ι : Type*} [DecidableEq κ] [DecidableEq ι] {s s' : State κ ι} {a : Action κ ι}
  {k : κ} {i : ι} {fd : Nat} {e : Event ι} {rest : List (Frame κ ι)}

-- ---------------------------------------------------------------------------
-- What a step does
-- ---------------------------------------------------------------------------

/-- What each action does, with the guards under which it can happen. -/
inductive Effect (s : State κ ι) : Action κ ι → State κ ι → Prop
  | create {i : ι} {fd : Nat} {home : Option κ} (hNew : s.timer i = .unborn)
      (hFree : s.files fd = none) : Effect s (.create i fd home) (s.create i fd home)
  | await {i : ι} {k : κ} {fd : Nat} {home : Option κ} {rest : List (Frame κ ι)}
      (hStack : s.stack = .coroutine k :: rest) (hTimer : s.timer i = .opened fd home)
      (hAbsent : s.interest fd = .absent) : Effect s (.await i) (s.await k i fd rest)
  | throw {i : ι} : Effect s (.await i) s
  | close {i : ι} {fd : Nat} {home : Option κ} (hTimer : s.timer i = .opened fd home) :
      Effect s (.close i) (s.close i fd)
  | enter {k : κ} (hIdle : s.co k = .idle) : Effect s (.enter k) (s.enter k)
  | leave {next : Option κ} {k : κ} {rest : List (Frame κ ι)}
      (hStack : s.stack = .coroutine k :: rest) {left final : State κ ι}
      (hLeft : left = { s with stack := rest, co := Function.update s.co k .idle })
      (hNext : final = left ∨ ∃ j, left.co j = .idle ∧ final = left.enter j) :
      Effect s (.leave next) final
  | destroy {k : κ} (hNot : s.co k ≠ .running) : Effect s (.destroy k) (s.destroy k)
  | poll {events : List (Event ι)} (hReports : s.Reports events) :
      Effect s (.poll events) (s.poll events)
  | done {rest : List (Frame κ ι)} (hStack : s.stack = .poll [] :: rest) :
      Effect s .handle { s with stack := rest }
  | handle {e : Event ι} {events : List (Event ι)} {rest : List (Frame κ ι)}
      (hStack : s.stack = .poll (e :: events) :: rest) :
      Effect s .handle (s.handle e (.poll events :: rest))

/-- Every step is one of these. -/
theorem step_effect (hst : step s a = some s') : Effect s a s' := by
  unfold step at hst
  split at hst
  · cases hst
  cases a with
  | create i fd home =>
    simp only at hst
    split at hst
    · next h =>
      cases hst
      exact .create h.2.1 h.2.2.1
    · cases hst
  | await i =>
    simp only at hst
    split at hst
    · next hStack hTimer =>
      split at hst
      · next hAbsent =>
        cases hst
        exact .await hStack hTimer hAbsent
      · cases hst
        exact .throw
    · cases hst
  | close i =>
    simp only at hst
    split at hst
    · next hTimer =>
      split at hst
      · cases hst
        exact .close hTimer
      · cases hst
    · cases hst
  | enter k =>
    simp only at hst
    split at hst
    · next h =>
      cases hst
      exact .enter h.2
    · cases hst
  | leave next =>
    simp only at hst
    split at hst
    · next hStack =>
      split at hst
      · cases hst
        exact .leave hStack rfl (Or.inl rfl)
      · next j =>
        split at hst
        · next hIdle =>
          cases hst
          exact .leave hStack rfl (Or.inr ⟨j, hIdle, rfl⟩)
        · cases hst
    · cases hst
  | destroy k =>
    simp only at hst
    split at hst
    · next h =>
      cases hst
      exact .destroy h.2.1
    · cases hst
  | poll events =>
    simp only at hst
    split at hst
    · next h =>
      cases hst
      exact .poll h.2
    · cases hst
  | handle =>
    simp only at hst
    split at hst
    · next hStack =>
      cases hst
      exact .done hStack
    · next hStack =>
      cases hst
      exact .handle hStack
    · cases hst

-- ---------------------------------------------------------------------------
-- The invariant
-- ---------------------------------------------------------------------------

/-- The events that a frame of `poll` still has before it. -/
def Frame.events : Frame κ ι → List (Event ι)
  | .poll events => events
  | .coroutine _ => []

/-- The coroutine whose frame it is. -/
def Frame.coroutine? : Frame κ ι → Option κ
  | .coroutine k => some k
  | .poll _ => none

/-- The events that are fetched and not handled, of all the calls of `poll` on the stack. -/
def State.pending (s : State κ ι) : List (Event ι) :=
  s.stack.flatMap Frame.events

/-- The coroutines on the stack. -/
def State.coroutines (s : State κ ι) : List κ :=
  s.stack.filterMap Frame.coroutine?

/-- `m_fd`, from the constructor on. -/
def Timer.fd? : Timer κ → Option Nat
  | .opened fd _ | .closed fd => some fd
  | .unborn => none

/-- The fd can still lead to a call of `resume`. -/
def State.Live (s : State κ ι) (fd : Nat) : Prop :=
  s.interest fd ≠ .absent ∨ ∃ e ∈ s.pending, e.fd = fd

/-- A coroutine is registered for the fd and awaits the timer that has it, or had it when the
event was fetched. -/
def Awaited (s : State κ ι) (fd : Nat) : Prop :=
  ∃ i k, s.timers fd = some k ∧ s.co k = .awaiting i ∧ (s.timer i).fd? = some fd ∧
    (∀ e ∈ s.pending, e.fd = fd → e.timer = i) ∧ (s.interest fd ≠ .absent → s.files fd = some i)

/-- No handle was used after its frame had gone, and no expiry resumed the wrong coroutine. -/
structure Safe (s : State κ ι) : Prop where
  untouched : s.touched = false
  notMisfired : s.misfired = false

/-- Every live file is awaited by the coroutine that made it, and nothing that is due names
another one. -/
structure Inv (s : State κ ι) : Prop extends Safe s where
  /-- Whatever can still be reported has its coroutine suspended on it. -/
  awaited : ∀ fd, s.Live fd → Awaited s fd
  /-- The open files are those of the timers that live. -/
  files : ∀ fd i, s.files fd = some i ↔ ∃ home, s.timer i = .opened fd home
  nodup : (s.pending.map Event.fd).Nodup
  /-- What was reported is disarmed until it is handled. -/
  disarmed : ∀ e ∈ s.pending, s.interest e.fd ≠ .armed
  /-- The coroutines on the stack run. -/
  running : ∀ k ∈ s.coroutines, s.co k = .running
  distinct : s.coroutines.Nodup

section

omit [DecidableEq κ] [DecidableEq ι]

/-- There are no files yet. -/
theorem inv_init : Inv (init κ ι) := by
  refine ⟨⟨rfl, rfl⟩, ?_, ?_, List.nodup_nil, ?_, ?_, List.nodup_nil⟩
  · rintro fd (hNot | ⟨e, he, -⟩)
    · exact absurd rfl hNot
    · exact absurd he List.not_mem_nil
  · intro fd i
    simp [init]
  · intro e he
    exact absurd he List.not_mem_nil
  · intro k hk
    exact absurd hk List.not_mem_nil

/-- A step that leaves the fd alone. -/
theorem Awaited.keep (h : Awaited s fd) (hTimers : s'.timers fd = s.timers fd)
    (hCo : ∀ i k, s.timers fd = some k → s.co k = .awaiting i → (s.timer i).fd? = some fd →
      s'.co k = .awaiting i)
    (hTimer : ∀ i, (s.timer i).fd? = some fd → (s'.timer i).fd? = some fd)
    (hPending : ∀ e ∈ s'.pending, e.fd = fd → e ∈ s.pending)
    (hFiles : s'.interest fd ≠ .absent → s.interest fd ≠ .absent ∧ s'.files fd = s.files fd) :
    Awaited s' fd := by
  obtain ⟨i, k, hAt, hAwaiting, hFd, hEvents, hOpen⟩ := h
  refine ⟨i, k, hTimers.trans hAt, hCo i k hAt hAwaiting hFd, hTimer i hFd, ?_, ?_⟩
  · exact fun e he hfd => hEvents e (hPending e he hfd) hfd
  · intro hNot
    obtain ⟨hOld, hSame⟩ := hFiles hNot
    exact hSame.trans (hOpen hOld)

/-- A coroutine that awaits a timer is not on the stack. -/
theorem Inv.not_awaiting (h : Inv s) (hk : k ∈ s.coroutines) (i : ι) : s.co k ≠ .awaiting i := by
  rw [h.running k hk]
  exact fun hEq => by cases hEq

end

-- ---------------------------------------------------------------------------
-- The steps of code
-- ---------------------------------------------------------------------------

omit [DecidableEq κ] in
/-- A new timer's file is not in the set. -/
theorem Inv.create (h : Inv s) (hNew : s.timer i = .unborn) (hFree : s.files fd = none)
    (home : Option κ) : Inv (s.create i fd home) := by
  have hTimer : (s.create i fd home).timer = Function.update s.timer i (.opened fd home) := rfl
  have hFiles : (s.create i fd home).files = Function.update s.files fd (some i) := rfl
  refine ⟨⟨h.untouched, h.notMisfired⟩, ?_, ?_, h.nodup, h.disarmed, h.running, h.distinct⟩
  · intro fd' hLive
    have hOld := h.awaited fd' hLive
    refine hOld.keep rfl (fun _ _ _ hCo _ => hCo) (fun j hj => ?_) (fun _ he _ => he) fun hNot => ?_
    · rcases update_cases hTimer j with ⟨rfl, -⟩ | ⟨-, hSame⟩
      · rw [hNew] at hj
        cases hj
      · rwa [hSame]
    · -- a registered fd is open, so it is another one
      refine ⟨hNot, ?_⟩
      rcases update_cases hFiles fd' with ⟨rfl, -⟩ | ⟨-, hSame⟩
      · obtain ⟨j, -, -, -, -, -, hOpen⟩ := hOld
        cases hFree.symm.trans (hOpen hNot)
      · exact hSame
  · intro fd' j
    rcases update_cases hFiles fd' with ⟨rfl, hHere⟩ | ⟨hne, hSame⟩
    · rw [hHere]
      rcases update_cases hTimer j with ⟨rfl, hAt⟩ | ⟨hj, hAt⟩ <;> rw [hAt]
      · exact iff_of_true rfl ⟨home, rfl⟩
      · refine iff_of_false (fun hEq => hj (Option.some.inj hEq).symm) ?_
        rintro ⟨home', hOpened⟩
        cases hFree.symm.trans ((h.files fd' j).mpr ⟨home', hOpened⟩)
    · rw [hSame]
      rcases update_cases hTimer j with ⟨rfl, hAt⟩ | ⟨-, hAt⟩ <;> rw [hAt]
      · refine iff_of_false (fun hOpen => ?_) ?_
        · obtain ⟨home', hOpened⟩ := (h.files fd' j).mp hOpen
          cases hNew.symm.trans hOpened
        · rintro ⟨home', hOpened⟩
          cases hOpened
          exact hne rfl
      · exact h.files fd' j

omit [DecidableEq ι] in
/-- `await_suspend` arms it, and the map names the coroutine that waits; -/
theorem Inv.await (h : Inv s) (hStack : s.stack = .coroutine k :: rest) {home : Option κ}
    (hTimer : s.timer i = .opened fd home) (hDue : ∀ e ∈ s.pending, e.fd ≠ fd) :
    Inv (s.await k i fd rest) := by
  have hPending : s.pending = (s.await k i fd rest).pending := by
    rw [State.pending, hStack]
    rfl
  have hCoroutines : s.coroutines = k :: (s.await k i fd rest).coroutines := by
    rw [State.coroutines, hStack]
    rfl
  have hDistinct := h.distinct
  rw [hCoroutines, List.nodup_cons] at hDistinct
  have hCo : (s.await k i fd rest).co = Function.update s.co k (.awaiting i) := rfl
  have hInterest : (s.await k i fd rest).interest = Function.update s.interest fd .armed := rfl
  refine ⟨⟨h.untouched, h.notMisfired⟩, ?_, h.files, hPending ▸ h.nodup, ?_, ?_, hDistinct.2⟩
  · intro fd' hLive
    rcases update_cases hInterest fd' with ⟨rfl, -⟩ | ⟨hne, hSame⟩
    · refine ⟨i, k, Function.update_self .., Function.update_self .., ?_, ?_, ?_⟩
      · show (s.timer i).fd? = some fd'
        rw [hTimer]
        rfl
      · intro e he hfd
        exact absurd hfd (hDue e (hPending ▸ he))
      · exact fun _ => (h.files fd' i).mpr ⟨home, hTimer⟩
    · rw [State.Live, hSame, ← hPending] at hLive
      refine (h.awaited fd' hLive).keep (Function.update_of_ne hne _ _) ?_ (fun _ hj => hj)
        (fun e he _ => hPending ▸ he) fun hNot => ⟨hSame ▸ hNot, rfl⟩
      intro j k' _ hAwaiting _
      rcases update_cases hCo k' with ⟨rfl, -⟩ | ⟨-, hAt⟩
      · exact absurd hAwaiting (h.not_awaiting (hCoroutines ▸ List.mem_cons_self) j)
      · rwa [hAt]
  · intro e he
    rw [← hPending] at he
    rw [hInterest, Function.update_of_ne (hDue e he)]
    exact h.disarmed e he
  · intro j hj
    rcases update_cases hCo j with ⟨rfl, -⟩ | ⟨-, hSame⟩
    · exact absurd hj hDistinct.1
    · rw [hSame]
      exact h.running j (hCoroutines ▸ List.mem_cons_of_mem _ hj)

omit [DecidableEq κ] in
/-- the destructor closes the file, which leaves the set with it. -/
theorem Inv.close (h : Inv s) {home : Option κ} (hTimer : s.timer i = .opened fd home) :
    Inv (s.close i fd) := by
  have hTimers : (s.close i fd).timer = Function.update s.timer i (.closed fd) := rfl
  have hFiles : (s.close i fd).files = Function.update s.files fd none := rfl
  have hInterest : (s.close i fd).interest = Function.update s.interest fd .absent := rfl
  refine ⟨⟨h.untouched, h.notMisfired⟩, ?_, ?_, h.nodup, ?_, h.running, h.distinct⟩
  · intro fd' hLive
    have hOld : s.Live fd' := by
      refine hLive.imp_left fun hNot => ?_
      rcases update_cases hInterest fd' with ⟨rfl, hHere⟩ | ⟨-, hSame⟩
      · exact absurd hHere hNot
      · rwa [← hSame]
    refine (h.awaited fd' hOld).keep rfl (fun _ _ _ hCo _ => hCo) (fun j hj => ?_)
      (fun _ he _ => he) fun hNot => ?_
    · rcases update_cases hTimers j with ⟨rfl, hHere⟩ | ⟨-, hSame⟩
      · rw [hTimer] at hj
        rw [hHere]
        exact hj
      · rwa [hSame]
    · rcases update_cases hInterest fd' with ⟨rfl, hHere⟩ | ⟨hne, hSame⟩
      · exact absurd hHere hNot
      · exact ⟨hSame ▸ hNot, Function.update_of_ne hne _ _⟩
  · intro fd' j
    rcases update_cases hFiles fd' with ⟨rfl, hHere⟩ | ⟨hne, hSame⟩
    · rw [hHere]
      refine iff_of_false (fun hEq => by cases hEq) ?_
      rintro ⟨home', hOpened⟩
      rcases update_cases hTimers j with ⟨rfl, hAt⟩ | ⟨hj, hAt⟩ <;> rw [hAt] at hOpened
      · cases hOpened
      · have hThis := (h.files fd' i).mpr ⟨home, hTimer⟩
        have hThat := (h.files fd' j).mpr ⟨home', hOpened⟩
        exact hj (Option.some.inj (hThat.symm.trans hThis))
    · rw [hSame]
      rcases update_cases hTimers j with ⟨rfl, hAt⟩ | ⟨-, hAt⟩ <;> rw [hAt]
      · refine iff_of_false (fun hOpen => ?_) ?_
        · obtain ⟨home', hOpened⟩ := (h.files fd' j).mp hOpen
          cases hTimer.symm.trans hOpened
          exact hne rfl
        · rintro ⟨home', hOpened⟩
          cases hOpened
      · exact h.files fd' j
  · intro e he
    rcases update_cases hInterest e.fd with ⟨-, hHere⟩ | ⟨-, hSame⟩
    · rw [hHere]
      exact fun hEq => by cases hEq
    · rw [hSame]
      exact h.disarmed e he

omit [DecidableEq ι] in
/-- A coroutine that starts is put on the stack, -/
theorem Inv.enter (h : Inv s) (hIdle : s.co k = .idle) : Inv (s.enter k) := by
  have hCo : (s.enter k).co = Function.update s.co k .running := rfl
  refine ⟨⟨h.untouched, h.notMisfired⟩, ?_, h.files, h.nodup, h.disarmed, ?_, ?_⟩
  · intro fd' hLive
    refine (h.awaited fd' hLive).keep rfl ?_ (fun _ hj => hj) (fun _ he _ => he)
      fun hNot => ⟨hNot, rfl⟩
    intro j k' _ hAwaiting _
    rcases update_cases hCo k' with ⟨rfl, -⟩ | ⟨-, hSame⟩
    · cases hIdle.symm.trans hAwaiting
    · rwa [hSame]
  · intro j hj
    rcases update_cases hCo j with ⟨-, hHere⟩ | ⟨hne, hSame⟩
    · exact hHere
    · rw [hSame]
      exact h.running j ((List.mem_cons.mp hj).resolve_left hne)
  · refine List.nodup_cons.mpr ⟨fun hMem => ?_, h.distinct⟩
    cases hIdle.symm.trans (h.running k hMem)

omit [DecidableEq ι] in
/-- and one that returns is taken off it. -/
theorem Inv.leave (h : Inv s) (hStack : s.stack = .coroutine k :: rest) :
    Inv { s with stack := rest, co := Function.update s.co k .idle } := by
  have hPending : s.pending = rest.flatMap Frame.events := by
    rw [State.pending, hStack]
    rfl
  have hCoroutines : s.coroutines = k :: rest.filterMap Frame.coroutine? := by
    rw [State.coroutines, hStack]
    rfl
  have hDistinct := h.distinct
  rw [hCoroutines, List.nodup_cons] at hDistinct
  have hNodup := h.nodup
  rw [hPending] at hNodup
  refine ⟨⟨h.untouched, h.notMisfired⟩, ?_, h.files, hNodup, ?_, ?_, hDistinct.2⟩
  · intro fd' hLive
    have hOld : s.Live fd' := by
      rw [State.Live, hPending]
      exact hLive
    refine (h.awaited fd' hOld).keep rfl ?_ (fun _ hj => hj) (fun e he _ => hPending ▸ he)
      fun hNot => ⟨hNot, rfl⟩
    intro j k' _ hAwaiting _
    show Function.update s.co k .idle k' = .awaiting j
    rcases update_at s.co k .idle k' with ⟨rfl, -⟩ | ⟨-, hSame⟩
    · exact absurd hAwaiting (h.not_awaiting (hCoroutines ▸ List.mem_cons_self) j)
    · rwa [hSame]
  · intro e he
    exact h.disarmed e (hPending ▸ he)
  · intro j hj
    show Function.update s.co k .idle j = .running
    rcases update_at s.co k .idle j with ⟨rfl, -⟩ | ⟨-, hSame⟩
    · exact absurd hj hDistinct.1
    · rw [hSame]
      exact h.running j (hCoroutines ▸ List.mem_cons_of_mem _ hj)

-- ---------------------------------------------------------------------------
-- The destruction of a coroutine
-- ---------------------------------------------------------------------------

section

omit [DecidableEq ι]

/-- A destroyed frame closes files, it opens none. -/
theorem fd_destroy (k : κ) (i : ι) : ((s.destroy k).timer i).fd? = (s.timer i).fd? := by
  simp only [State.destroy]
  split
  · next hTimer =>
    rw [hTimer]
    split <;> rfl
  · rfl

/-- The timers that are in other frames, or in none, stay open. -/
theorem opened_destroy {home : Option κ} :
    (s.destroy k).timer i = .opened fd home ↔ s.timer i = .opened fd home ∧ home ≠ some k := by
  simp only [State.destroy]
  split
  · next fd' home' hTimer =>
    rw [hTimer]
    split
    · next hHome =>
      refine iff_of_false (fun hEq => by cases hEq) ?_
      rintro ⟨hEq, hne⟩
      cases hEq
      exact hne hHome
    · next hHome =>
      refine ⟨fun hEq => ⟨hEq, ?_⟩, fun hEq => hEq.1⟩
      cases hEq
      exact hHome
  · next hNot =>
    refine iff_of_false (fun hEq => hNot _ _ hEq) fun hEq => hNot _ _ hEq.1

/-- A timer is destroyed with the frame it was made in. -/
theorem Inv.fdInFrame_eq (h : Inv s) {home : Option κ} (hTimer : s.timer i = .opened fd home) :
    s.fdInFrame k fd = (home == some k) := by
  rw [State.fdInFrame, (h.files fd i).mpr ⟨home, hTimer⟩, Option.any_some, hTimer]
  rfl

/-- The timer that the coroutine awaits is closed already or with it, and `poll` has no event of
it. -/
theorem Inv.destroy (h : Inv s) (hNot : s.co k ≠ .running)
    (hDue : ∀ i, s.co k = .awaiting i →
      (∀ fd home, s.timer i = .opened fd home → home = some k) ∧ ∀ e ∈ s.pending, e.timer ≠ i) :
    Inv (s.destroy k) := by
  have hCo : (s.destroy k).co = Function.update s.co k .destroyed := rfl
  have hOpen : ∀ {fd}, (s.destroy k).interest fd ≠ .absent →
      s.interest fd ≠ .absent ∧ s.fdInFrame k fd = false := by
    intro fd hAbsent
    simp only [State.destroy] at hAbsent
    split at hAbsent
    · exact absurd rfl hAbsent
    · next hOut => exact ⟨hAbsent, by simpa using hOut⟩
  have hFiles : ∀ {fd}, s.fdInFrame k fd = false → (s.destroy k).files fd = s.files fd := by
    intro fd hOut
    simp [State.destroy, hOut]
  refine ⟨⟨h.untouched, h.notMisfired⟩, ?_, ?_, h.nodup, ?_, ?_, h.distinct⟩
  · intro fd' hLive
    have hOld : s.Live fd' := hLive.imp_left fun hAbsent => (hOpen hAbsent).1
    have hAwaited := h.awaited fd' hOld
    refine hAwaited.keep rfl (fun j k' hAt hAwaiting _ => ?_)
      (fun j hj => (fd_destroy k j).trans hj)
      (fun _ he _ => he) fun hAbsent => ⟨(hOpen hAbsent).1, hFiles (hOpen hAbsent).2⟩
    rcases update_cases hCo k' with ⟨rfl, -⟩ | ⟨-, hSame⟩
    · -- the destroyed coroutine awaited this timer: its fd is closed, and has no event
      exfalso
      obtain ⟨hFrame, hNoEvent⟩ := hDue j hAwaiting
      obtain ⟨j', k'', hAt', hAwaiting', -, hEvents, hFile⟩ := hAwaited
      obtain rfl := Option.some.inj (hAt.symm.trans hAt')
      obtain rfl := Co.awaiting.inj (hAwaiting.symm.trans hAwaiting')
      rcases hLive with hAbsent | ⟨e, he, hfd⟩
      · obtain ⟨hRegistered, hOut⟩ := hOpen hAbsent
        obtain ⟨home, hTimer⟩ := (h.files fd' j).mp (hFile hRegistered)
        rw [h.fdInFrame_eq hTimer, hFrame fd' home hTimer, beq_self_eq_true] at hOut
        cases hOut
      · exact hNoEvent e he (hEvents e he hfd)
    · rwa [hSame]
  · intro fd' j
    constructor
    · intro hFile
      simp only [State.destroy] at hFile
      split at hFile
      · cases hFile
      · next hOut =>
        obtain ⟨home, hTimer⟩ := (h.files fd' j).mp hFile
        rw [h.fdInFrame_eq hTimer] at hOut
        exact ⟨home, opened_destroy.mpr ⟨hTimer, by simpa using hOut⟩⟩
    · rintro ⟨home, hOpened⟩
      obtain ⟨hTimer, hHome⟩ := opened_destroy.mp hOpened
      have hOut : s.fdInFrame k fd' = false := by
        rw [h.fdInFrame_eq hTimer]
        simpa using hHome
      exact (hFiles hOut).trans ((h.files fd' j).mpr ⟨home, hTimer⟩)
  · intro e he
    simp only [State.destroy]
    split
    · exact fun hEq => by cases hEq
    · exact h.disarmed e he
  · intro j hj
    rcases update_cases hCo j with ⟨rfl, -⟩ | ⟨-, hSame⟩
    · exact absurd (h.running j hj) hNot
    · rw [hSame]
      exact h.running j hj

end

-- ---------------------------------------------------------------------------
-- The steps of `poll`
-- ---------------------------------------------------------------------------

omit [DecidableEq κ] [DecidableEq ι] in
/-- What `epoll_wait` reports was armed, and is no longer. -/
theorem Inv.poll (h : Inv s) {events : List (Event ι)} (hReports : s.Reports events) :
    Inv (s.poll events) := by
  obtain ⟨hNodup, -, hEvents⟩ := hReports
  have hPending : (s.poll events).pending = events ++ s.pending := rfl
  have hArmed : ∀ {fd}, fd ∈ events.map Event.fd → s.interest fd = .armed := by
    intro fd hfd
    obtain ⟨e, he, rfl⟩ := List.mem_map.mp hfd
    exact (hEvents e he).1
  have hRegistered : ∀ {fd}, s.interest fd = .armed → s.interest fd ≠ .absent := by
    intro fd hEq hAbsent
    cases hEq.symm.trans hAbsent
  refine ⟨⟨h.untouched, h.notMisfired⟩, ?_, h.files, ?_, ?_, h.running, h.distinct⟩
  · intro fd' hLive
    have hKept : (s.poll events).interest fd' ≠ .absent → s.interest fd' ≠ .absent := by
      intro hAbsent
      simp only [State.poll] at hAbsent
      split at hAbsent
      · next hMem => exact hRegistered (hArmed hMem)
      · exact hAbsent
    have hOld : s.Live fd' := by
      rcases hLive with hAbsent | ⟨e, he, rfl⟩
      · exact Or.inl (hKept hAbsent)
      · rw [hPending, List.mem_append] at he
        rcases he with he | he
        · exact Or.inl (hRegistered (hEvents e he).1)
        · exact Or.inr ⟨e, he, rfl⟩
    obtain ⟨i, k, hAt, hAwaiting, hFd, hOlder, hOpen⟩ := h.awaited fd' hOld
    refine ⟨i, k, hAt, hAwaiting, hFd, ?_, fun hAbsent => hOpen (hKept hAbsent)⟩
    intro e he hfd
    rw [hPending, List.mem_append] at he
    rcases he with he | he
    · -- a new event is of the timer that has the fd open
      obtain ⟨hArmed', hFile⟩ := hEvents e he
      rw [hfd] at hArmed' hFile
      exact Option.some.inj (hFile.symm.trans (hOpen (hRegistered hArmed')))
    · exact hOlder e he hfd
  · rw [hPending, List.map_append]
    refine List.Nodup.append hNodup h.nodup ?_
    intro fd hNew hOld
    obtain ⟨e, he, rfl⟩ := List.mem_map.mp hOld
    exact h.disarmed e he (hArmed hNew)
  · intro e he
    simp only [State.poll]
    split
    · exact fun hEq => by cases hEq
    · next hNot =>
      rw [hPending, List.mem_append] at he
      rcases he with he | he
      · exact absurd (List.mem_map_of_mem he) hNot
      · exact h.disarmed e he

omit [DecidableEq κ] [DecidableEq ι] in
/-- A `poll` that has handled its batch returns. -/
theorem Inv.done (h : Inv s) (hStack : s.stack = .poll [] :: rest) :
    Inv { s with stack := rest } := by
  have hPending : s.pending = rest.flatMap Frame.events := by
    rw [State.pending, hStack]
    rfl
  have hCoroutines : s.coroutines = rest.filterMap Frame.coroutine? := by
    rw [State.coroutines, hStack]
    rfl
  have hAwaited := h.awaited
  have hNodup := h.nodup
  have hDisarmed := h.disarmed
  have hRunning := h.running
  have hDistinct := h.distinct
  simp only [State.Live, Awaited, hPending] at hAwaited hNodup hDisarmed
  simp only [hCoroutines] at hRunning hDistinct
  exact ⟨⟨h.untouched, h.notMisfired⟩, hAwaited, h.files, hNodup, hDisarmed, hRunning, hDistinct⟩

/-- The event finds the coroutine that awaits its timer, and resumes it. -/
theorem Inv.handle (h : Inv s) {events : List (Event ι)}
    (hStack : s.stack = .poll (e :: events) :: rest) : Inv (s.handle e (.poll events :: rest)) := by
  have hPending : s.pending = e :: (events ++ rest.flatMap Frame.events) := by
    rw [State.pending, hStack]
    rfl
  have hCoroutines : s.coroutines = rest.filterMap Frame.coroutine? := by
    rw [State.coroutines, hStack]
    rfl
  obtain ⟨i, k, hAt, hAwaiting, hFd, hEvents, -⟩ :=
    h.awaited e.fd (Or.inr ⟨e, hPending ▸ List.mem_cons_self, rfl⟩)
  have hTimer : e.timer = i := hEvents e (hPending ▸ List.mem_cons_self) rfl
  have hNodup := h.nodup
  rw [hPending, List.map_cons, List.nodup_cons] at hNodup
  have hHandle : s.handle e (.poll events :: rest) =
      { s with
        stack := .coroutine k :: .poll events :: rest
        co := Function.update s.co k .running
        interest := Function.update s.interest e.fd .absent
        timers := Function.update s.timers e.fd none } := by
    simp [State.handle, State.enter, hAt, hAwaiting, hTimer]
  rw [hHandle]
  refine ⟨⟨h.untouched, h.notMisfired⟩, ?_, h.files, hNodup.2, ?_, ?_, ?_⟩
  · intro fd' hLive
    have hne : fd' ≠ e.fd := by
      rintro rfl
      rcases hLive with hAbsent | ⟨e', he', hfd⟩
      · exact hAbsent (Function.update_self ..)
      · exact hNodup.1 (hfd ▸ List.mem_map_of_mem he')
    have hSame : Function.update s.interest e.fd .absent fd' = s.interest fd' :=
      Function.update_of_ne hne _ _
    have hOld : s.Live fd' := by
      refine hLive.imp (fun hAbsent => hSame ▸ hAbsent) ?_
      rintro ⟨e', he', hfd⟩
      exact ⟨e', hPending ▸ List.mem_cons_of_mem _ he', hfd⟩
    refine (h.awaited fd' hOld).keep (Function.update_of_ne hne _ _) ?_ (fun _ hj => hj)
      (fun e' he' _ => hPending ▸ List.mem_cons_of_mem _ he') fun hAbsent => ⟨hSame ▸ hAbsent, rfl⟩
    intro j k' _ hAwaiting' hFd'
    show Function.update s.co k .running k' = .awaiting j
    rcases update_at s.co k .running k' with ⟨rfl, -⟩ | ⟨-, hOther⟩
    · -- the resumed coroutine awaits one timer, and a timer has one fd
      cases hAwaiting.symm.trans hAwaiting'
      exact absurd (Option.some.inj (hFd'.symm.trans hFd)) hne
    · rwa [hOther]
  · intro e' he'
    show Function.update s.interest e.fd .absent e'.fd ≠ .armed
    rcases update_at s.interest e.fd .absent e'.fd with ⟨-, hHere⟩ | ⟨-, hSame⟩
    · rw [hHere]
      exact fun hEq => by cases hEq
    · rw [hSame]
      exact h.disarmed e' (hPending ▸ List.mem_cons_of_mem _ he')
  · intro j hj
    show Function.update s.co k .running j = .running
    rcases update_at s.co k .running j with ⟨-, hHere⟩ | ⟨hne, hSame⟩
    · exact hHere
    · rw [hSame]
      exact h.running j (hCoroutines ▸ (List.mem_cons.mp hj).resolve_left hne)
  · refine List.nodup_cons.mpr ⟨fun hMem => h.not_awaiting (hCoroutines ▸ hMem) i hAwaiting, ?_⟩
    exact hCoroutines ▸ h.distinct

-- ---------------------------------------------------------------------------
-- Every run
-- ---------------------------------------------------------------------------

/-- A coroutine that awaits a timer is not destroyed while the timer is open outside its frame,
nor while `poll` has the event of the timer in its array. A timer is not registered while
`poll` has an event of a former timer with the same fd. -/
def InTime (s : State κ ι) : Action κ ι → Prop
  | .destroy k => ∀ i, s.co k = .awaiting i →
    (∀ fd home, s.timer i = .opened fd home → home = some k) ∧ ∀ e ∈ s.pending, e.timer ≠ i
  | .await i => ∀ fd home, s.timer i = .opened fd home → s.interest fd = .absent →
    ∀ e ∈ s.pending, e.fd ≠ fd
  | _ => True

/-- Every step in time keeps the invariant. -/
theorem inv_step (h : Inv s) (hok : InTime s a) (hst : step s a = some s') : Inv s' := by
  cases step_effect hst with
  | create hNew hFree => exact h.create hNew hFree _
  | await hStack hTimer hAbsent => exact h.await hStack hTimer (hok _ _ hTimer hAbsent)
  | throw => exact h
  | close hTimer => exact h.close hTimer
  | enter hIdle => exact h.enter hIdle
  | leave hStack hLeft hNext =>
    have hLeave := h.leave hStack
    rw [← hLeft] at hLeave
    rcases hNext with rfl | ⟨j, hIdle, rfl⟩
    · exact hLeave
    · exact hLeave.enter hIdle
  | destroy hNot => exact h.destroy hNot hok
  | poll hReports => exact h.poll hReports
  | done hStack => exact h.done hStack
  | handle hStack => exact h.handle hStack

/-- It holds in every run all of whose steps are in time. -/
theorem inv_reachable (h : (system κ ι).ReachableWhere InTime s) : Inv s :=
  h.invariant (I := Inv) inv_init fun _ _ _ _ hInv hok hst => inv_step hInv hok hst

/-- **No destroyed coroutine is resumed**, for any coroutines and timers, wherever `poll` is
called, in the runs that are `InTime`. What this excludes is the destruction of a coroutine
while the timer that it awaits is open elsewhere or in the array of `poll`, and a timer on an fd
of which `poll` still has an older event: `~AsyncTimer` closes its fd and tells nobody. -/
theorem destroyed_not_resumed (h : (system κ ι).ReachableWhere InTime s) : Safe s :=
  (inv_reachable h).toSafe

/-- The condition on the steps as a check that a run can be tested with. -/
def inTime (s : State κ ι) : Action κ ι → Bool
  | .destroy k =>
    match s.co k with
    | .awaiting i =>
      (match s.timer i with
        | .opened _ home => decide (home = some k)
        | _ => true) && s.pending.all fun e => decide (e.timer ≠ i)
    | _ => true
  | .await i =>
    match s.timer i with
    | .opened fd _ =>
      decide (s.interest fd ≠ .absent) || s.pending.all fun e => decide (e.fd ≠ fd)
    | _ => true
  | _ => true

/-- The check is right. -/
theorem inTime_of_check (h : inTime s a = true) : InTime s a := by
  cases a with
  | destroy k =>
    intro i hAwaiting
    simp only [inTime, hAwaiting, Bool.and_eq_true] at h
    refine ⟨fun fd home hTimer => ?_, by simpa using h.2⟩
    simpa [hTimer] using h.1
  | await i =>
    intro fd home hTimer hAbsent
    simpa [inTime, hTimer, hAbsent] using h
  | _ => trivial

/-- Coroutine 0 is resumed, awaits its next timer and is destroyed after `poll`; the fd of that
timer is given to another one, whose expiry resumes coroutine 2. -/
theorem destroyed_not_resumed_reuse :
    ∃ s : State Nat Nat, (system Nat Nat).ReachableWhere InTime s ∧ s.co 0 = .destroyed ∧
      s.co 2 = .running ∧ Safe s := by
  obtain ⟨s, hs, hDestroyed, hRunning⟩ := System.exists_reachableWhere_of_exec
    (S := system Nat Nat) (c := inTime) (fun _ _ => inTime_of_check)
    (p := fun s => s.co 0 = .destroyed ∧ s.co 2 = .running)
    [.enter 0, .create 0 3 (some 0), .await 0, .enter 1, .create 1 4 (some 1), .await 1,
      .poll [⟨3, 0⟩, ⟨4, 1⟩], .handle, .close 0, .create 2 5 (some 0), .await 2, .handle,
      .leave none, .handle, .destroy 0, .enter 2, .create 3 5 none, .await 3, .poll [⟨5, 3⟩],
      .handle] (by decide +kernel)
  exact ⟨s, hs, hDestroyed, hRunning, destroyed_not_resumed hs⟩

/-- Coroutines 0 and 1 are resumed out of one array. The first one destroys the second, whose
event is still there: its handle is resumed, or, if the first one awaits a new timer with the
same fd, the first one is resumed for the expiry of the old timer. -/
theorem destroyed_coroutine_resumed :
    (∃ s : State Nat Nat, (system Nat Nat).Reachable s ∧ s.touched = true) ∧
      ∃ s : State Nat Nat, (system Nat Nat).Reachable s ∧ s.misfired = true :=
  ⟨System.exists_reachable_of_exec
    [.enter 0, .create 0 3 (some 0), .await 0, .enter 1, .create 1 4 (some 1), .await 1,
      .poll [⟨3, 0⟩, ⟨4, 1⟩], .handle, .destroy 1, .leave none, .handle] (by decide +kernel),
    System.exists_reachable_of_exec
    [.enter 0, .create 0 3 (some 0), .await 0, .enter 1, .create 1 4 (some 1), .await 1,
      .poll [⟨3, 0⟩, ⟨4, 1⟩], .handle, .destroy 1, .create 2 4 (some 0), .await 2, .handle]
    (by decide +kernel)⟩

end EmbLinux.TimerTasks
