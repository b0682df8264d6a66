import EmbLinux.AsyncTimer.Model
import EmbLinux.Lib.Exclusive
import Mathlib.Data.List.Nodup

/-!
# EmbLinux — the file descriptors of `AsyncTimer`

Which fd belongs to which await, and what the kernel and the map of the loop have for it.

* `Inv` — the invariant of every run, for timers of any length;
* `zero_never_fires` — an await whose timer has length zero is not resumed in any run.
-/

namespace EmbLinux.AsyncTimer

open EventLoop (Interest kMaxEvents)

variable {ι : Type*} [DecidableEq ι] {timeout : ι → Nat} {s s' : State ι} {a : Action ι}
  {i j : ι} {fd : Nat}

-- ---------------------------------------------------------------------------
-- Times
-- ---------------------------------------------------------------------------

/-- The conversion to an `itimerspec` keeps the length, and a length of zero disarms. -/
theorem expiryAt_eq_some {now e t : Nat} :
    expiryAt now (itValue t) = some e ↔ 1 ≤ t ∧ e = now + t * nsPerMs := by
  have hValue : t / 1000 * 10 ^ 9 + t % 1000 * 1000000 = t * nsPerMs := by
    unfold nsPerMs
    omega
  have hZero : itValue t = (0, 0) ↔ t = 0 := by
    simp only [itValue, Prod.mk.injEq]
    omega
  unfold expiryAt
  split
  · next h =>
    rw [hZero] at h
    simp [h]
  · next h =>
    rw [hZero] at h
    simp only [itValue, hValue, Option.some.injEq]
    omega

-- ---------------------------------------------------------------------------
-- The invariant
-- ---------------------------------------------------------------------------

/-- `m_fd`, while the `AsyncTimer` is there. -/
def Stage.fd? : Stage → Option Nat
  | .waiting fd | .resumed fd => some fd
  | .notYet | .finished => none

/-- What is left of the array of `poll`. -/
def Poll.events : Poll → List Nat
  | .handling events => events
  | .idle | .waiting _ => []

/-- The await was resumed. -/
def Stage.wasResumed : Stage → Bool
  | .resumed _ | .finished => true
  | .notYet | .waiting _ => false

/-- What `poll` does next it does with the same events. -/
theorem events_nextEvent (events : List Nat) : (nextEvent events).events = events := by
  cases events <;> rfl

theorem runs_nextEvent (events : List Nat) : (nextEvent events).runs = true := by
  cases events <;> rfl

/-- Each open fd belongs to one timer, which is registered and armed, or in the array of `poll`,
until it is resumed; and nobody is resumed twice or early. -/
structure Inv (timeout : ι → Nat) (s : State ι) : Prop where
  /-- An fd is with one await, -/
  exclusive : Exclusive fun i => (s.stage i).fd?
  /-- and open while it is. -/
  opened : ∀ i fd, (s.stage i).fd? = some fd → fd ∈ s.opened
  nodup : s.opened.Nodup
  /-- A coroutine that waits is in the map, its timer is set, and its fd is armed or reported.
  -/
  registered : ∀ i fd, s.stage i = .waiting fd → s.timers fd = some i ∧
    s.expiry fd = expiryAt (s.startedAt i) (itValue (timeout i)) ∧
    (s.interest fd = .armed ∨ fd ∈ s.poll.events)
  /-- The map has waiting coroutines only, -/
  timers : ∀ fd i, s.timers fd = some i → s.stage i = .waiting fd
  /-- and one for each armed fd. -/
  armed : ∀ fd, s.interest fd = .armed → ∃ i, s.timers fd = some i
  eventsNodup : s.poll.events.Nodup
  /-- What is reported has expired and was not resumed. -/
  events : ∀ fd ∈ s.poll.events, s.Expired fd ∧ ∃ i, s.timers fd = some i
  /-- Who has been resumed, has been so at some time, -/
  resumed : ∀ i, (∃ t, (i, t) ∈ s.resumptions) ↔ (s.stage i).wasResumed = true
  /-- once, -/
  once : (s.resumptions.map Prod.fst).Nodup
  /-- and not before its time. -/
  notEarly : ∀ r ∈ s.resumptions,
    1 ≤ timeout r.1 ∧ s.startedAt r.1 + timeout r.1 * nsPerMs ≤ r.2

/-- No timer has been started. -/
theorem inv_init (timeout : ι → Nat) : Inv timeout (system timeout).init := by
  refine ⟨Exclusive.empty, ?_, List.nodup_nil, ?_, ?_, ?_, List.nodup_nil, ?_, ?_, List.nodup_nil,
    ?_⟩
  · intro i fd h
    cases h
  · intro i fd h
    cases h
  · intro fd i h
    cases h
  · intro fd h
    cases h
  · intro fd h
    cases h
  · intro i
    simp [system, Stage.wasResumed]
  · intro r h
    cases h

omit [DecidableEq ι] in
/-- An expired timer stays readable. -/
theorem expired_tick (h : s.Expired fd) (ns : Nat) :
    State.Expired { s with now := s.now + ns } fd := by
  obtain ⟨e, he, hle⟩ := h
  exact ⟨e, he, Nat.le_trans hle (Nat.le_add_right _ _)⟩

-- ---------------------------------------------------------------------------
-- The steps
-- ---------------------------------------------------------------------------

omit [DecidableEq ι] in
/-- Time makes timers expire and changes nothing else. -/
theorem Inv.tick (h : Inv timeout s) (ns : Nat) : Inv timeout { s with now := s.now + ns } :=
  ⟨h.exclusive, h.opened, h.nodup, h.registered, h.timers, h.armed, h.eventsNodup,
    fun fd hfd => ⟨expired_tick (h.events fd hfd).1 ns, (h.events fd hfd).2⟩, h.resumed, h.once,
      h.notEarly⟩

omit [DecidableEq ι] in
/-- The await whose fd it is. -/
theorem Inv.ne_of_not_mem (h : Inv timeout s) (hNew : fd ∉ s.opened) {fd' : Nat}
    (hAt : (s.stage j).fd? = some fd') : fd' ≠ fd := by
  rintro rfl
  exact hNew (h.opened j fd' hAt)

/-- A timer is started on a fresh fd. -/
theorem Inv.start (h : Inv timeout s) (hStage : s.stage i = .notYet) (hNew : fd ∉ s.opened) :
    Inv timeout (s.start timeout i fd) := by
  have hFree : ∀ j fd', s.stage j = .waiting fd' → fd' ≠ fd ∧ j ≠ i := by
    intro j fd' hj
    refine ⟨h.ne_of_not_mem hNew (by rw [hj]; rfl), ?_⟩
    rintro rfl
    rw [hStage] at hj
    cases hj
  have hOwner : ∀ fd' j, s.timers fd' = some j → fd' ≠ fd ∧ j ≠ i :=
    fun fd' j hTimer => hFree j fd' (h.timers fd' j hTimer)
  refine ⟨?_, ?_, ?_, ?_, ?_, ?_, h.eventsNodup, ?_, ?_, h.once, ?_⟩
  · show Exclusive fun j => (Function.update s.stage i (.waiting fd) j).fd?
    rw [part_update Stage.fd?]
    exact h.exclusive.put fun k hk => h.ne_of_not_mem hNew hk rfl
  · intro j fd' hj
    change (Function.update s.stage i (.waiting fd) j).fd? = some fd' at hj
    rcases update_at s.stage i (.waiting fd) j with ⟨-, hHere⟩ | ⟨-, hOther⟩
    · rw [hHere] at hj
      exact Option.some.inj hj ▸ List.mem_cons_self
    · rw [hOther] at hj
      exact List.mem_cons_of_mem _ (h.opened j fd' hj)
  · exact List.nodup_cons.mpr ⟨hNew, h.nodup⟩
  · intro j fd' hj
    change Function.update s.stage i (.waiting fd) j = .waiting fd' at hj
    show Function.update s.timers fd (some i) fd' = some j ∧
      Function.update s.expiry fd _ fd' =
        expiryAt (Function.update s.startedAt i s.now j) _ ∧
      (Function.update s.interest fd .armed fd' = .armed ∨ _)
    rcases update_at s.stage i (.waiting fd) j with ⟨rfl, hHere⟩ | ⟨hne, hOther⟩
    · rw [hHere, Stage.waiting.injEq] at hj
      rw [← hj]
      simp only [Function.update_self]
      exact ⟨trivial, trivial, Or.inl trivial⟩
    · rw [hOther] at hj
      have hfd := (hFree j fd' hj).1
      rw [Function.update_of_ne hfd, Function.update_of_ne hfd, Function.update_of_ne hfd,
        Function.update_of_ne hne]
      exact h.registered j fd' hj
  · intro fd' j hTimer
    change Function.update s.timers fd (some i) fd' = some j at hTimer
    show Function.update s.stage i (.waiting fd) j = .waiting fd'
    rcases update_at s.timers fd (some i) fd' with ⟨rfl, hHere⟩ | ⟨-, hOther⟩
    · rw [hHere, Option.some.injEq] at hTimer
      rw [← hTimer, Function.update_self]
    · rw [hOther] at hTimer
      rw [Function.update_of_ne (hOwner fd' j hTimer).2]
      exact h.timers fd' j hTimer
  · intro fd' hArmed
    change Function.update s.interest fd .armed fd' = .armed at hArmed
    show ∃ j, Function.update s.timers fd (some i) fd' = some j
    rcases update_at s.timers fd (some i) fd' with ⟨-, hHere⟩ | ⟨hne, hOther⟩
    · exact ⟨i, hHere⟩
    · rw [hOther]
      rw [Function.update_of_ne hne] at hArmed
      exact h.armed fd' hArmed
  · intro fd' hfd'
    obtain ⟨hExpired, j, hTimer⟩ := h.events fd' hfd'
    have hne := (hOwner fd' j hTimer).1
    refine ⟨?_, j, ?_⟩
    · obtain ⟨e, he, hle⟩ := hExpired
      refine ⟨e, ?_, hle⟩
      show Function.update s.expiry fd _ fd' = some e
      rw [Function.update_of_ne hne]
      exact he
    · show Function.update s.timers fd (some i) fd' = some j
      rw [Function.update_of_ne hne, hTimer]
  · intro j
    show (∃ t, (j, t) ∈ s.resumptions) ↔
      (Function.update s.stage i (.waiting fd) j).wasResumed = true
    rw [h.resumed j, observe_update Stage.wasResumed rfl (by rw [hStage]; rfl)]
  · intro r hr
    have hne : r.1 ≠ i := by
      intro hEq
      have hResumed := (h.resumed i).mp ⟨r.2, hEq ▸ hr⟩
      rw [hStage] at hResumed
      cases hResumed
    show _ ∧ Function.update s.startedAt i s.now r.1 + _ ≤ _
    rw [Function.update_of_ne hne]
    exact h.notEarly r hr

/-- `close` of an fd that nothing waits for. -/
theorem Inv.finish (h : Inv timeout s) (hStage : s.stage i = .resumed fd) :
    Inv timeout { s with
      opened := s.opened.erase fd
      interest := Function.update s.interest fd .absent
      stage := Function.update s.stage i .finished } := by
  have hHere : (s.stage i).fd? = some fd := by rw [hStage]; rfl
  have hOthers : ∀ j fd', j ≠ i → (s.stage j).fd? = some fd' → fd' ≠ fd := by
    rintro j fd' hne hj rfl
    exact hne (h.exclusive j i fd' hj hHere)
  have hWaiting : ∀ j fd', s.stage j = .waiting fd' → j ≠ i ∧ fd' ≠ fd := by
    intro j fd' hj
    have hne : j ≠ i := by
      rintro rfl
      rw [hStage] at hj
      cases hj
    exact ⟨hne, hOthers j fd' hne (by rw [hj]; rfl)⟩
  refine ⟨?_, ?_, h.nodup.erase fd, ?_, ?_, ?_, h.eventsNodup, h.events, ?_, h.once, h.notEarly⟩
  · show Exclusive fun j => (Function.update s.stage i .finished j).fd?
    rw [part_update Stage.fd?]
    exact h.exclusive.drop
  · intro j fd' hj
    change (Function.update s.stage i .finished j).fd? = some fd' at hj
    show fd' ∈ s.opened.erase fd
    rcases update_at s.stage i .finished j with ⟨-, hAt⟩ | ⟨hne, hAt⟩
    · rw [hAt] at hj
      cases hj
    · rw [hAt] at hj
      exact (List.mem_erase_of_ne (hOthers j fd' hne hj)).mpr (h.opened j fd' hj)
  · intro j fd' hj
    change Function.update s.stage i .finished j = .waiting fd' at hj
    show _ ∧ _ ∧ (Function.update s.interest fd .absent fd' = .armed ∨ _)
    rcases update_at s.stage i .finished j with ⟨-, hAt⟩ | ⟨-, hAt⟩
    · rw [hAt] at hj
      cases hj
    · rw [hAt] at hj
      rw [Function.update_of_ne (hWaiting j fd' hj).2]
      exact h.registered j fd' hj
  · intro fd' j hTimer
    have hj := h.timers fd' j hTimer
    show Function.update s.stage i .finished j = .waiting fd'
    rw [Function.update_of_ne (hWaiting j fd' hj).1, hj]
  · intro fd' hArmed
    change Function.update s.interest fd .absent fd' = .armed at hArmed
    rcases update_at s.interest fd .absent fd' with ⟨-, hAt⟩ | ⟨-, hAt⟩
    · rw [hAt] at hArmed
      cases hArmed
    · exact h.armed fd' (hAt ▸ hArmed)
  · intro j
    show (∃ t, (j, t) ∈ s.resumptions) ↔
      (Function.update s.stage i .finished j).wasResumed = true
    rw [h.resumed j, observe_update Stage.wasResumed rfl (by rw [hStage]; rfl)]

omit [DecidableEq ι] in
/-- A `poll` that starts. -/
theorem Inv.poll (h : Inv timeout s) (hIdle : s.poll = .idle) (deadline : Nat) (due : ι → Bool) :
    Inv timeout { s with poll := .waiting deadline, due := due } := by
  have hEvents : s.poll.events = [] := by rw [hIdle]; rfl
  refine ⟨h.exclusive, h.opened, h.nodup, ?_, h.timers, h.armed, List.nodup_nil, ?_, h.resumed,
    h.once, h.notEarly⟩
  · intro j fd hj
    have hRegistered := h.registered j fd hj
    rwa [hEvents] at hRegistered
  · intro fd hfd
    cases hfd

omit [DecidableEq ι] in
/-- The return of `epoll_wait`. -/
theorem Inv.fetch (h : Inv timeout s) {deadline : Nat} (hWaiting : s.poll = .waiting deadline)
    {events : List Nat} (hReports : s.Reports events) :
    Inv timeout { s with
      interest := fun fd => if fd ∈ events then .disabled else s.interest fd
      poll := nextEvent events } := by
  have hNone : s.poll.events = [] := by rw [hWaiting]; rfl
  refine ⟨h.exclusive, h.opened, h.nodup, ?_, h.timers, ?_, ?_, ?_, h.resumed, h.once, h.notEarly⟩
  · intro j fd hj
    obtain ⟨hTimer, hExpiry, hInterest⟩ := h.registered j fd hj
    refine ⟨hTimer, hExpiry, ?_⟩
    show (if fd ∈ events then Interest.disabled else s.interest fd) = .armed ∨
      fd ∈ (nextEvent events).events
    rw [events_nextEvent]
    by_cases hMem : fd ∈ events
    · exact Or.inr hMem
    · rw [if_neg hMem]
      rw [hNone] at hInterest
      exact Or.inl (hInterest.resolve_right List.not_mem_nil)
  · intro fd hArmed
    change (if fd ∈ events then Interest.disabled else s.interest fd) = .armed at hArmed
    split at hArmed
    · cases hArmed
    · exact h.armed fd hArmed
  · show (nextEvent events).events.Nodup
    rw [events_nextEvent]
    exact hReports.1
  · intro fd hfd
    change fd ∈ (nextEvent events).events at hfd
    rw [events_nextEvent] at hfd
    obtain ⟨-, hArmed, hExpired⟩ := hReports.2.2.1 fd hfd
    exact ⟨hExpired, h.armed fd hArmed⟩

/-- A turn of the loop resumes the await whose fd it is, at a time that is not before the end
of its timer. -/
theorem Inv.handle_eq (h : Inv timeout s) {events : List Nat}
    (hPoll : s.poll = .handling (fd :: events)) :
    ∃ i, s.timers fd = some i ∧ s.stage i = .waiting fd ∧
      (1 ≤ timeout i ∧ s.startedAt i + timeout i * nsPerMs ≤ s.now) ∧
      s.handle fd = { s with
        timers := Function.update s.timers fd none
        expiry := Function.update s.expiry fd none
        interest := Function.update s.interest fd .absent
        stage := Function.update s.stage i (.resumed fd)
        resumptions := s.resumptions ++ [(i, s.now)] } := by
  have hMem : fd ∈ s.poll.events := by
    rw [hPoll]
    exact List.mem_cons_self
  obtain ⟨⟨e, he, hle⟩, i, hTimer⟩ := h.events fd hMem
  have hStage := h.timers fd i hTimer
  have hTime := (h.registered i fd hStage).2.1
  rw [Option.mem_def.mp he, eq_comm, expiryAt_eq_some] at hTime
  refine ⟨i, hTimer, hStage, ⟨hTime.1, hTime.2 ▸ hle⟩, ?_⟩
  have hResume : (s.stage i).resume = .resumed fd := by rw [hStage]; rfl
  rw [State.handle, hTimer, if_pos ⟨e, he, hle⟩, ← hResume]

/-- The next event of the array resumes the coroutine of its timer. -/
theorem Inv.handle (h : Inv timeout s) {events : List Nat}
    (hPoll : s.poll = .handling (fd :: events)) :
    Inv timeout { s.handle fd with poll := nextEvent events } := by
  obtain ⟨i, hTimer, hStage, hTime, hHandle⟩ := h.handle_eq hPoll
  have hEvents : s.poll.events = fd :: events := by rw [hPoll]; rfl
  have hNodup := h.eventsNodup
  rw [hEvents, List.nodup_cons] at hNodup
  -- an fd is with one coroutine, so the other ones are at other fds
  have hOther : ∀ j fd', j ≠ i → s.stage j = .waiting fd' → fd' ≠ fd := by
    rintro j fd' hne hj rfl
    have hJ : (s.stage j).fd? = some fd' := by rw [hj]; rfl
    have hI : (s.stage i).fd? = some fd' := by rw [hStage]; rfl
    exact hne (h.exclusive j i fd' hJ hI)
  have hNew : ∀ t, (i, t) ∉ s.resumptions := by
    intro t ht
    have hResumed := (h.resumed i).mp ⟨t, ht⟩
    rw [hStage] at hResumed
    cases hResumed
  rw [hHandle]
  refine ⟨?_, ?_, h.nodup, ?_, ?_, ?_, ?_, ?_, ?_, ?_, ?_⟩
  -- the coroutine keeps its fd until its timer is destroyed
  · show Exclusive fun j => (Function.update s.stage i (.resumed fd) j).fd?
    rw [show (fun j => (Function.update s.stage i (.resumed fd) j).fd?) =
      fun j => (s.stage j).fd? from funext (observe_update Stage.fd? rfl (by rw [hStage]; rfl))]
    exact h.exclusive
  -- so its fd stays open
  · intro j fd' hj
    change (Function.update s.stage i (.resumed fd) j).fd? = some fd' at hj
    rw [observe_update Stage.fd? rfl (by rw [hStage]; rfl)] at hj
    exact h.opened j fd' hj
  -- the fds of the coroutines that still wait are registered as they were
  · intro j fd' hj
    change Function.update s.stage i (.resumed fd) j = .waiting fd' at hj
    show Function.update s.timers fd none fd' = some j ∧
      Function.update s.expiry fd none fd' = _ ∧
      (Function.update s.interest fd .absent fd' = .armed ∨ fd' ∈ (nextEvent events).events)
    rcases update_at s.stage i (.resumed fd) j with ⟨-, hAt⟩ | ⟨hne, hAt⟩
    · rw [hAt] at hj
      cases hj
    · rw [hAt] at hj
      have hfd := hOther j fd' hne hj
      obtain ⟨hTimer', hExpiry, hInterest⟩ := h.registered j fd' hj
      rw [Function.update_of_ne hfd, Function.update_of_ne hfd, Function.update_of_ne hfd,
        events_nextEvent]
      refine ⟨hTimer', hExpiry, hInterest.imp_right ?_⟩
      rw [hEvents, List.mem_cons]
      exact fun hMem => hMem.resolve_left hfd
  -- and the map names these coroutines
  · intro fd' j hTimer'
    change Function.update s.timers fd none fd' = some j at hTimer'
    show Function.update s.stage i (.resumed fd) j = .waiting fd'
    rcases update_at s.timers fd none fd' with ⟨-, hAt⟩ | ⟨hne, hAt⟩
    · rw [hAt] at hTimer'
      cases hTimer'
    · rw [hAt] at hTimer'
      have hj := h.timers fd' j hTimer'
      rw [Function.update_of_ne, hj]
      rintro rfl
      rw [hStage] at hj
      exact hne (Stage.waiting.inj hj).symm
  · intro fd' hArmed
    change Function.update s.interest fd .absent fd' = .armed at hArmed
    show ∃ j, Function.update s.timers fd none fd' = some j
    rcases update_at s.interest fd .absent fd' with ⟨-, hAt⟩ | ⟨hne, hAt⟩
    · rw [hAt] at hArmed
      cases hArmed
    · rw [Function.update_of_ne hne]
      exact h.armed fd' (hAt ▸ hArmed)
  · show (nextEvent events).events.Nodup
    rw [events_nextEvent]
    exact hNodup.2
  -- the rest of the array
  · intro fd' hfd'
    change fd' ∈ (nextEvent events).events at hfd'
    rw [events_nextEvent] at hfd'
    have hne : fd' ≠ fd := fun hEq => hNodup.1 (hEq ▸ hfd')
    obtain ⟨⟨e', he', hle'⟩, j, hTimer'⟩ :=
      h.events fd' (by rw [hEvents]; exact List.mem_cons_of_mem _ hfd')
    refine ⟨⟨e', ?_, hle'⟩, j, ?_⟩
    · show Function.update s.expiry fd none fd' = some e'
      rw [Function.update_of_ne hne]
      exact he'
    · show Function.update s.timers fd none fd' = some j
      rw [Function.update_of_ne hne, hTimer']
  · intro j
    show (∃ t, (j, t) ∈ s.resumptions ++ [(i, s.now)]) ↔
      (Function.update s.stage i (.resumed fd) j).wasResumed = true
    simp only [List.mem_append, List.mem_singleton, Prod.mk.injEq, exists_or]
    rw [h.resumed j]
    rcases update_at s.stage i (.resumed fd) j with ⟨rfl, hAt⟩ | ⟨hne, hAt⟩ <;> rw [hAt]
    · exact ⟨fun _ => rfl, fun _ => Or.inr ⟨s.now, rfl, rfl⟩⟩
    · simp [hne]
  -- resumed for the first time
  · show ((s.resumptions ++ [(i, s.now)]).map Prod.fst).Nodup
    rw [List.map_append, List.nodup_append]
    refine ⟨h.once, List.nodup_singleton _, ?_⟩
    intro j hj j' hj' hEq
    obtain ⟨r, hr, hFst⟩ := List.mem_map.mp hj
    rw [List.map_singleton, List.mem_singleton] at hj'
    have hFirst : r.1 = i := hFst.trans (hEq.trans hj')
    exact hNew r.2 (hFirst ▸ hr)
  -- and not before its time
  · intro r hr
    rw [List.mem_append, List.mem_singleton] at hr
    rcases hr with hOld | rfl
    · exact h.notEarly r hOld
    · exact hTime

/-- A case for each action. -/
theorem inv_step (h : Inv timeout s) (hst : step timeout s a = some s') : Inv timeout s' := by
  cases a with
  | tick ns =>
    simp only [step] at hst
    split at hst
    · simp only [Option.ite_none_right_eq_some, Option.some.injEq] at hst
      exact hst.2 ▸ h.tick ns
    · exact Option.some.inj hst ▸ h.tick ns
    · exact Option.some.inj hst ▸ h.tick ns
  | start i fd =>
    simp only [step, Option.ite_none_right_eq_some, Option.some.injEq] at hst
    obtain ⟨⟨-, hStage, hNew⟩, rfl⟩ := hst
    exact h.start hStage hNew
  | finish i =>
    simp only [step] at hst
    split at hst
    · next fd hStage =>
      simp only [Option.ite_none_right_eq_some, Option.some.injEq] at hst
      exact hst.2 ▸ h.finish hStage
    · cases hst
  | poll running =>
    simp only [step] at hst
    split at hst
    · next hIdle => exact Option.some.inj hst ▸ h.poll hIdle _ _
    · cases hst
  | fetch events =>
    simp only [step] at hst
    split at hst
    · next hWaiting =>
      simp only [Option.ite_none_right_eq_some, Option.some.injEq] at hst
      exact hst.2 ▸ h.fetch hWaiting hst.1
    · cases hst
  | handle =>
    simp only [step] at hst
    split at hst
    · next hPoll => exact Option.some.inj hst ▸ h.handle hPoll
    · cases hst

/-- In every state, for any timeouts. -/
theorem inv_reachable (h : (system timeout).Reachable s) : Inv timeout s :=
  h.invariant (inv_init timeout) fun _ _ _ _ hInv _ hst => inv_step hInv hst

/-- A timer of length zero is disarmed, and the await is never resumed. -/
theorem zero_never_fires (hZero : timeout i = 0) (h : (system timeout).Reachable s) (t : Nat) :
    (i, t) ∉ s.resumptions := by
  intro ht
  have hPos := ((inv_reachable h).notEarly (i, t) ht).1
  rw [hZero] at hPos
  exact Nat.not_succ_le_zero 0 hPos

end EmbLinux.AsyncTimer
