import EmbLinux.Lib.Update
import EmbLinux.Channel.Steps
import Mathlib.Data.List.Nodup

/-!
# EmbLinux — the waiter queues of the channel

The coroutines in `m_send_waiters` and `m_recv_waiters` are the parked ones,
each once. A coroutine taken out is in the hands of exactly one `to_resume`
until it is resumed, so it is resumed once for each time it parked. All this
holds in every run, of any number of threads (`waiters`).
-/

namespace EmbLinux.Channel

variable {τ κ α : Type*} [DecidableEq τ] [DecidableEq κ] {Capacity : Nat}
  {s s' : State τ κ α} {a : Action τ κ α} {t : τ} {k : κ}

/-- The two waiter queues have one life cycle; the role says which it is. -/
inductive Role
  | sender
  | receiver
  deriving DecidableEq

/-- Where a waiter of each role stands while it is in its queue, -/
def Role.parked : Role → Co κ α
  | .sender => .sendParked
  | .receiver => .recvParked

/-- and after it was taken out. -/
def Role.woken : Role → Co κ α
  | .sender => .sendWoken
  | .receiver => .recvWoken

/-- The coroutines in `m_send_waiters`, or in `m_recv_waiters`. -/
def State.waiting (s : State τ κ α) : Role → List κ
  | .sender => s.sendWaiters.map Prod.fst
  | .receiver => s.recvWaiters

/-- A coroutine that is suspended in a `co_await`: parked, or woken. -/
def Co.suspended : Co κ α → Nat
  | .sendParked | .sendWoken | .recvParked | .recvWoken => 1
  | _ => 0

/-- Neither suspended nor about to resume another coroutine. -/
def Plain : Co κ α → Prop
  | .sendParked | .sendWoken | .recvParked | .recvWoken | .resuming _ _ => False
  | _ => True

section

omit [DecidableEq κ]

/-- A plain program point is none of the suspended ones. -/
theorem Plain.ne_parked {c : Co κ α} (h : Plain c) (role : Role) : c ≠ role.parked := by
  rintro rfl
  cases role <;> exact h

theorem Plain.ne_woken {c : Co κ α} (h : Plain c) (role : Role) : c ≠ role.woken := by
  rintro rfl
  cases role <;> exact h

theorem Plain.ne_resuming {c : Co κ α} (h : Plain c) (r : Option α) (w : κ) :
    c ≠ .resuming r w := by
  rintro rfl
  exact h

theorem Plain.suspended {c : Co κ α} (h : Plain c) : c.suspended = 0 := by
  cases c <;> first | rfl | exact h.elim

/-- Nobody waits in both queues. -/
theorem Role.parked_inj {role role' : Role}
    (h : (role.parked : Co κ α) = role'.parked) : role = role' := by
  cases role <;> cases role' <;> first | rfl | cases h

theorem Role.parked_ne_woken (role role' : Role) : (role.parked : Co κ α) ≠ role'.woken := by
  cases role <;> cases role' <;> exact fun h => by cases h

theorem Role.parked_ne_resuming (role : Role) (r : Option α) (w : κ) :
    (role.parked : Co κ α) ≠ .resuming r w := by
  cases role <;> exact fun h => by cases h

theorem Role.woken_ne_resuming (role : Role) (r : Option α) (w : κ) :
    (role.woken : Co κ α) ≠ .resuming r w := by
  cases role <;> exact fun h => by cases h

@[simp] theorem Role.suspended_parked (role : Role) : (role.parked : Co κ α).suspended = 1 := by
  cases role <;> rfl

@[simp] theorem Role.suspended_woken (role : Role) : (role.woken : Co κ α).suspended = 1 := by
  cases role <;> rfl

end

/-- The waiter queues hold the parked coroutines, each once; one that was taken out has one
coroutine that is going to resume it; and nobody is resumed more often than it was suspended. -/
structure Waiters (s : State τ κ α) : Prop where
  /-- The waiters are the parked coroutines, each in the queue of its role. -/
  parked_iff : ∀ role k, k ∈ s.waiting role ↔ s.co k = role.parked
  nodup : ∀ role, (s.waiting role).Nodup
  /-- Who is about to be resumed was woken, -/
  woken : ∀ k r w, s.co k = .resuming r w → ∃ role, s.co w = Role.woken role
  /-- and who was woken is about to be resumed, -/
  waker : ∀ role w, s.co w = Role.woken role → ∃ k r, s.co k = .resuming r w
  /-- by one coroutine only. -/
  waker_inj : ∀ k k' r r' w, s.co k = .resuming r w → s.co k' = .resuming r' w → k = k'
  /-- Every time it parked it was resumed once, but for the present time. -/
  counted : ∀ k, s.parks k = s.resumes k + (s.co k).suspended

omit [DecidableEq τ] [DecidableEq κ] in
/-- Nobody waits. -/
theorem waiters_init : Waiters (init τ κ α) where
  parked_iff := by
    intro role k
    cases role <;> simp [init, State.waiting, Role.parked]
  nodup := by
    intro role
    cases role <;> exact List.nodup_nil
  woken := by simp [init]
  waker := by
    intro role w hw
    cases role <;> cases hw
  waker_inj := by simp [init]
  counted := fun _ => rfl

-- ---------------------------------------------------------------------------
-- The life cycle of a waiter
-- ---------------------------------------------------------------------------

section

omit [DecidableEq τ]

/-- A step outside the life cycle. -/
theorem Waiters.move (h : Waiters s) {c : Co κ α} (hCo : s'.co = Function.update s.co k c)
    (hWaiting : s'.waiting = s.waiting) (hParks : s'.parks = s.parks)
    (hResumes : s'.resumes = s.resumes) (hOld : Plain (s.co k)) (hNew : Plain c) : Waiters s' := by
  have hCases := update_cases hCo
  have hResuming : ∀ j r w, s'.co j = .resuming r w → s.co j = .resuming r w := by
    intro j r w hj
    rcases hCases j with ⟨-, hc⟩ | ⟨-, hc⟩
    · exact absurd (hc ▸ hj) (hNew.ne_resuming r w)
    · rwa [hc] at hj
  refine ⟨?_, ?_, ?_, ?_, ?_, ?_⟩
  · -- a plain coroutine is in no waiter queue, before and after
    intro role j
    rw [hWaiting, h.parked_iff]
    rcases hCases j with ⟨hj, hc⟩ | ⟨-, hc⟩
    · rw [hc, hj]
      exact iff_of_false (hOld.ne_parked role) (hNew.ne_parked role)
    · rw [hc]
  · rw [hWaiting]
    exact h.nodup
  · -- who is about to be resumed is suspended
    intro j r w hj
    obtain ⟨role, hw⟩ := h.woken j r w (hResuming j r w hj)
    refine ⟨role, ?_⟩
    rcases hCases w with ⟨hwk, -⟩ | ⟨-, hc⟩
    · rw [hwk] at hw
      exact absurd hw (hOld.ne_woken role)
    · rwa [hc]
  · intro role w hw
    rcases hCases w with ⟨-, hc⟩ | ⟨-, hc⟩
    · exact absurd (hc ▸ hw) (hNew.ne_woken role)
    rw [hc] at hw
    obtain ⟨j, r, hj⟩ := h.waker role w hw
    refine ⟨j, r, ?_⟩
    rcases hCases j with ⟨hjk, -⟩ | ⟨-, hc'⟩
    · rw [hjk] at hj
      exact absurd hj (hOld.ne_resuming r w)
    · rwa [hc']
  · -- one waker each
    intro j j' r r' w hj hj'
    exact h.waker_inj j j' r r' w (hResuming j r w hj) (hResuming j' r' w hj')
  · -- parks and resumes
    intro j
    rw [hParks, hResumes, h.counted j]
    rcases hCases j with ⟨hj, hc⟩ | ⟨-, hc⟩
    · rw [hc, hj, hOld.suspended, hNew.suspended]
    · rw [hc]

/-- `await_suspend`: the coroutine goes to the end of a waiter queue. -/
theorem Waiters.park (h : Waiters s) (role : Role)
    (hCo : s'.co = Function.update s.co k role.parked)
    (hWaiting : s'.waiting = Function.update s.waiting role (s.waiting role ++ [k]))
    (hParks : s'.parks = Function.update s.parks k (s.parks k + 1))
    (hResumes : s'.resumes = s.resumes) (hOld : Plain (s.co k)) : Waiters s' := by
  have hCases := update_cases hCo
  have hResuming : ∀ j r w, s'.co j = .resuming r w → s.co j = .resuming r w := by
    intro j r w hj
    rcases hCases j with ⟨-, hc⟩ | ⟨-, hc⟩
    · exact absurd (hc ▸ hj) (role.parked_ne_resuming r w)
    · rwa [hc] at hj
  have hOut : ∀ role', k ∉ s.waiting role' := by
    intro role' hk
    exact hOld.ne_parked role' ((h.parked_iff role' k).mp hk)
  refine ⟨?_, ?_, ?_, ?_, ?_, ?_⟩
  · -- the queue of the role gets the coroutine, the other one stays
    intro role' j
    rcases update_cases hWaiting role' with ⟨rfl, hQueue⟩ | ⟨hRole, hQueue⟩ <;> rw [hQueue]
    · rw [List.mem_append, List.mem_singleton, h.parked_iff]
      rcases hCases j with ⟨hj, hc⟩ | ⟨hj, hc⟩ <;> rw [hc]
      · exact iff_of_true (Or.inr hj) rfl
      · exact or_iff_left hj
    · rw [h.parked_iff]
      rcases hCases j with ⟨hj, hc⟩ | ⟨-, hc⟩ <;> rw [hc]
      rw [hj]
      exact iff_of_false (hOld.ne_parked role') fun hEq => hRole (Role.parked_inj hEq).symm
  · -- it was in neither queue before
    intro role'
    rcases update_cases hWaiting role' with ⟨rfl, hQueue⟩ | ⟨-, hQueue⟩ <;> rw [hQueue]
    · refine List.Nodup.append (h.nodup role') (List.nodup_singleton k) ?_
      intro j hj hj'
      rw [List.mem_singleton.mp hj'] at hj
      exact hOut role' hj
    · exact h.nodup role'
  · intro j r w hj
    obtain ⟨role', hw⟩ := h.woken j r w (hResuming j r w hj)
    refine ⟨role', ?_⟩
    rcases hCases w with ⟨hwk, -⟩ | ⟨-, hc⟩
    · rw [hwk] at hw
      exact absurd hw (hOld.ne_woken role')
    · rwa [hc]
  · intro role' w hw
    rcases hCases w with ⟨-, hc⟩ | ⟨-, hc⟩
    · exact absurd (hc ▸ hw) (role.parked_ne_woken role')
    rw [hc] at hw
    obtain ⟨j, r, hj⟩ := h.waker role' w hw
    refine ⟨j, r, ?_⟩
    rcases hCases j with ⟨hjk, -⟩ | ⟨-, hc'⟩
    · rw [hjk] at hj
      exact absurd hj (hOld.ne_resuming r w)
    · rwa [hc']
  · intro j j' r r' w hj hj'
    exact h.waker_inj j j' r r' w (hResuming j r w hj) (hResuming j' r' w hj')
  · -- one more park, and the resume is due
    intro j
    rw [hParks, hResumes]
    rcases hCases j with ⟨hj, hc⟩ | ⟨hj, hc⟩
    · rw [hc, hj, Function.update_self, h.counted k, hOld.suspended, Role.suspended_parked]
    · rw [hc, Function.update_of_ne hj, h.counted j]

/-- A region takes the front of a waiter queue out, to resume it. -/
theorem Waiters.wake (h : Waiters s) (role : Role) {w : κ} {ws : List κ} {r : Option α}
    (hFront : s.waiting role = w :: ws)
    (hCo : s'.co = Function.update (Function.update s.co w role.woken) k (.resuming r w))
    (hWaiting : s'.waiting = Function.update s.waiting role ws) (hParks : s'.parks = s.parks)
    (hResumes : s'.resumes = s.resumes) (hOld : Plain (s.co k)) : Waiters s' := by
  have hParked : s.co w = role.parked :=
    (h.parked_iff role w).mp (by rw [hFront]; exact List.mem_cons_self)
  have hwk : w ≠ k := by
    rintro rfl
    exact hOld.ne_parked role hParked
  have hNodup := h.nodup role
  rw [hFront, List.nodup_cons] at hNodup
  have hCases := update_two_cases hCo
  -- one coroutine comes to resume another one, the rest as before
  have hResuming : ∀ j r' w', s'.co j = .resuming r' w' →
      (j = k ∧ w' = w) ∨ s.co j = .resuming r' w' := by
    intro j r' w' hj
    rcases hCases j with ⟨hjk, hc⟩ | ⟨-, -, hc⟩ | ⟨-, -, hc⟩
    · obtain ⟨-, hw⟩ := Co.resuming.inj (hc.symm.trans hj)
      exact Or.inl ⟨hjk, hw.symm⟩
    · exact absurd (hc ▸ hj) (role.woken_ne_resuming r' w')
    · exact Or.inr (hc ▸ hj)
  -- nobody was about to resume a parked coroutine
  have hNobody : ∀ j r', s.co j ≠ .resuming r' w := by
    intro j r' hj
    obtain ⟨role', hw⟩ := h.woken j r' w hj
    rw [hParked] at hw
    exact role.parked_ne_woken role' hw
  refine ⟨?_, ?_, ?_, ?_, ?_, ?_⟩
  · -- the queue of the role loses its front, which is woken now
    intro role' j
    have hQueue : j ∈ s'.waiting role' ↔ j ∈ s.waiting role' ∧ j ≠ w := by
      rcases update_cases hWaiting role' with ⟨rfl, hQueue⟩ | ⟨hRole, hQueue⟩ <;> rw [hQueue]
      · rw [hFront, List.mem_cons]
        refine ⟨fun hj => ⟨Or.inr hj, ?_⟩, fun hj => hj.1.resolve_left hj.2⟩
        rintro rfl
        exact hNodup.1 hj
      · refine ⟨fun hj => ⟨hj, ?_⟩, fun hj => hj.1⟩
        rintro rfl
        rw [h.parked_iff, hParked] at hj
        exact hRole (Role.parked_inj hj).symm
    rw [hQueue, h.parked_iff]
    rcases hCases j with ⟨hj, hc⟩ | ⟨-, hj, hc⟩ | ⟨-, hj, hc⟩ <;> rw [hc]
    · rw [hj]
      exact iff_of_false (fun hMem => hOld.ne_parked role' hMem.1)
        (role'.parked_ne_resuming r w).symm
    · exact iff_of_false (fun hMem => hMem.2 hj) (role'.parked_ne_woken role).symm
    · exact and_iff_left hj
  · intro role'
    rcases update_cases hWaiting role' with ⟨rfl, hQueue⟩ | ⟨-, hQueue⟩ <;> rw [hQueue]
    · exact hNodup.2
    · exact h.nodup role'
  · intro j r' w' hj
    -- the woken coroutine has the new waker, the others have theirs
    rcases hResuming j r' w' hj with ⟨-, rfl⟩ | hj
    · refine ⟨role, ?_⟩
      rw [hCo, Function.update_of_ne hwk, Function.update_self]
    · obtain ⟨role', hw'⟩ := h.woken j r' w' hj
      refine ⟨role', ?_⟩
      rcases hCases w' with ⟨hk, -⟩ | ⟨-, hw, -⟩ | ⟨-, -, hc⟩
      · rw [hk] at hw'
        exact absurd hw' (hOld.ne_woken role')
      · rw [hw] at hj
        exact absurd hj (hNobody j r')
      · rwa [hc]
  · intro role' w' hw'
    rcases hCases w' with ⟨-, hc⟩ | ⟨-, hw, -⟩ | ⟨-, -, hc⟩
    · rw [hc] at hw'
      exact absurd hw'.symm (role'.woken_ne_resuming r w)
    · exact ⟨k, r, by rw [hw, hCo, Function.update_self]⟩
    · rw [hc] at hw'
      obtain ⟨j, r', hj⟩ := h.waker role' w' hw'
      refine ⟨j, r', ?_⟩
      rcases hCases j with ⟨hk, -⟩ | ⟨-, hjw, -⟩ | ⟨-, -, hc'⟩
      · rw [hk] at hj
        exact absurd hj (hOld.ne_resuming r' w')
      · rw [hjw, hParked] at hj
        exact absurd hj (role.parked_ne_resuming r' w')
      · rwa [hc']
  · intro j j' r₁ r₂ w' hj hj'
    -- and it had none before
    rcases hResuming j r₁ w' hj with ⟨hjk, hw⟩ | hj <;>
      rcases hResuming j' r₂ w' hj' with ⟨hjk', hw'⟩ | hj'
    · rw [hjk, hjk']
    · exact absurd (hw ▸ hj') (hNobody j' r₂)
    · exact absurd (hw' ▸ hj) (hNobody j r₁)
    · exact h.waker_inj j j' r₁ r₂ w' hj hj'
  · intro j
    rw [hParks, hResumes, h.counted j]
    rcases hCases j with ⟨hj, hc⟩ | ⟨-, hj, hc⟩ | ⟨-, -, hc⟩
    · rw [hc, hj, hOld.suspended]
      rfl
    · rw [hc, hj, hParked, Role.suspended_parked, Role.suspended_woken]
    · rw [hc]

/-- `to_resume.resume()`: a woken coroutine goes on. -/
theorem Waiters.resume (h : Waiters s) (role : Role) {w : κ} {r : Option α} {c c' : Co κ α}
    (hk : s.co k = .resuming r w) (hw : s.co w = role.woken)
    (hCo : s'.co = Function.update (Function.update s.co w c) k c')
    (hWaiting : s'.waiting = s.waiting) (hParks : s'.parks = s.parks)
    (hResumes : s'.resumes = Function.update s.resumes w (s.resumes w + 1)) (hc : Plain c)
    (hc' : Plain c') : Waiters s' := by
  have hwk : w ≠ k := by
    rintro rfl
    rw [hw] at hk
    exact role.woken_ne_resuming r w hk
  have hCases : ∀ j, ((j = k ∨ j = w) ∧ Plain (s'.co j)) ∨
      (j ≠ k ∧ j ≠ w ∧ s'.co j = s.co j) := by
    intro j
    rcases update_two_cases hCo j with ⟨hj, hEq⟩ | ⟨-, hj, hEq⟩ | hOther
    · exact Or.inl ⟨Or.inl hj, by rwa [hEq]⟩
    · exact Or.inl ⟨Or.inr hj, by rwa [hEq]⟩
    · exact Or.inr hOther
  -- no coroutine comes to resume another one
  have hResuming : ∀ j r' w', s'.co j = .resuming r' w' → j ≠ k ∧ s.co j = .resuming r' w' := by
    intro j r' w' hj
    rcases hCases j with ⟨-, hPlain⟩ | ⟨hjk, -, hSame⟩
    · exact absurd hj (hPlain.ne_resuming r' w')
    · exact ⟨hjk, hSame ▸ hj⟩
  refine ⟨?_, ?_, ?_, ?_, ?_, ?_⟩
  · intro role' j
    rw [hWaiting, h.parked_iff]
    rcases hCases j with ⟨hj, hPlain⟩ | ⟨-, -, hSame⟩
    · refine iff_of_false ?_ (hPlain.ne_parked role')
      rcases hj with rfl | rfl
      · rw [hk]
        exact (role'.parked_ne_resuming r w).symm
      · rw [hw]
        exact (role'.parked_ne_woken role).symm
    · rw [hSame]
  · rw [hWaiting]
    exact h.nodup
  · intro j r' w' hj
    obtain ⟨hjk, hj⟩ := hResuming j r' w' hj
    obtain ⟨role', hw'⟩ := h.woken j r' w' hj
    refine ⟨role', ?_⟩
    rcases hCases w' with ⟨rfl | rfl, -⟩ | ⟨-, -, hSame⟩
    · rw [hk] at hw'
      exact absurd hw'.symm (role'.woken_ne_resuming r w)
    · -- the coroutine had one waker only
      exact absurd (h.waker_inj j k r' r w' hj hk) hjk
    · rwa [hSame]
  · intro role' w' hw'
    rcases hCases w' with ⟨-, hPlain⟩ | ⟨-, hne, hSame⟩
    · exact absurd hw' (hPlain.ne_woken role')
    rw [hSame] at hw'
    obtain ⟨j, r', hj⟩ := h.waker role' w' hw'
    refine ⟨j, r', ?_⟩
    rcases hCases j with ⟨rfl | rfl, -⟩ | ⟨-, -, hSame'⟩
    · rw [hk] at hj
      cases hj
      exact absurd rfl hne
    · rw [hw] at hj
      exact absurd hj (role.woken_ne_resuming r' w')
    · rwa [hSame']
  · intro j j' r₁ r₂ w' hj hj'
    exact h.waker_inj j j' r₁ r₂ w' (hResuming j r₁ w' hj).2 (hResuming j' r₂ w' hj').2
  · intro j
    rw [hParks, hResumes]
    rcases hCases j with ⟨rfl | rfl, hPlain⟩ | ⟨-, hne, hSame⟩
    · rw [Function.update_of_ne (Ne.symm hwk), h.counted j, hk, hPlain.suspended]
      rfl
    · rw [Function.update_self, h.counted j, hw, hPlain.suspended, Role.suspended_woken]
    · rw [Function.update_of_ne hne, h.counted j, hSame]

end

section

omit [DecidableEq τ] [DecidableEq κ]

/-- The front of `m_recv_waiters` is parked. -/
theorem Waiters.front_receiver (h : Waiters s) {w : κ} {ws : List κ}
    (hRecv : s.recvWaiters = w :: ws) :
    s.co w = .recvParked := by
  refine (h.parked_iff .receiver w).mp ?_
  rw [State.waiting, hRecv]
  exact List.mem_cons_self

/-- The front of `m_send_waiters` is parked. -/
theorem Waiters.front_sender (h : Waiters s) {w : κ} {value : α} {ws : List (κ × α)}
    (hSend : s.sendWaiters = (w, value) :: ws) : s.co w = .sendParked := by
  refine (h.parked_iff .sender w).mp ?_
  rw [State.waiting, hSend, List.map_cons]
  exact List.mem_cons_self

/-- A coroutine is resumed only while it is suspended. -/
theorem Waiters.resumable (h : Waiters s) {r : Option α} {w : κ} (hCo : s.co k = .resuming r w)
    (hSend : s.co w ≠ .sendWoken) : s.co w = .recvWoken := by
  obtain ⟨role, hRole⟩ := h.woken k r w hCo
  cases role with
  | sender => exact absurd hRole hSend
  | receiver => exact hRole

end

omit [DecidableEq κ] in
/-- A coroutine that takes a value is not suspended. -/
theorem Takes.plain {c : Co κ α} (h : Takes c) : Plain c := by
  cases c <;> trivial

omit [DecidableEq τ] [DecidableEq κ] in
/-- The waiter queues after a step on one of them. -/
theorem waiting_update {ks : List κ} {role : Role} (hSame : s'.waiting role = ks)
    (hOther : ∀ role', role' ≠ role → s'.waiting role' = s.waiting role') :
    s'.waiting = Function.update s.waiting role ks := by
  funext role'
  by_cases hRole : role' = role
  · rw [hRole, Function.update_self, hSame]
  · rw [Function.update_of_ne hRole, hOther role' hRole]

/-- A case for each effect: most leave the suspended coroutines alone. -/
theorem waiters_step (h : Waiters s) (hst : step Capacity s a = some s') : Waiters s' := by
  have hSame : s'.sendWaiters = s.sendWaiters → s'.recvWaiters = s.recvWaiters →
      s'.waiting = s.waiting := by
    intro hSend hRecv
    funext role
    cases role <;> simp only [State.waiting, hSend, hRecv]
  -- each effect is one of the four moves of the life cycle
  cases (step_effect hst).1 with
  | start hNew hTop =>
    exact h.move rfl (hSame rfl rfl) rfl rfl (by rw [hNew]; trivial) trivial
  | send hStack hCo => exact h.move rfl (hSame rfl rfl) rfl rfl (by rw [hCo]; trivial) trivial
  | receive hStack hCo => exact h.move rfl (hSame rfl rfl) rfl rfl (by rw [hCo]; trivial) trivial
  | finish hStack hCo => exact h.move rfl (hSame rfl rfl) rfl rfl (by rw [hCo]; trivial) trivial
  | push hStack hCo => exact h.move rfl (hSame rfl rfl) rfl rfl (by rw [hCo]; trivial) trivial
  | full hStack hCo => exact h.move rfl (hSame rfl rfl) rfl rfl (by rw [hCo]; trivial) trivial
  | empty hStack hCo => exact h.move rfl (hSame rfl rfl) rfl rfl (by rw [hCo]; trivial) trivial
  | take hStack hCo => exact h.move rfl (hSame rfl rfl) rfl rfl hCo.plain trivial
  | @parkSender t k rest value hStack hCo =>
    refine h.park .sender rfl (waiting_update ?_ ?_) rfl rfl (by rw [hCo]; trivial)
    · simp [State.waiting]
    · intro role hRole
      cases role with
      | sender => exact absurd rfl hRole
      | receiver => rfl
  | @parkReceiver t k rest hStack hCo =>
    refine h.park .receiver rfl (waiting_update rfl ?_) rfl rfl (by rw [hCo]; trivial)
    intro role hRole
    cases role with
    | sender => rfl
    | receiver => exact absurd rfl hRole
  | @pushWake t k rest value w ws hStack hCo hRoom hRecv =>
    refine h.wake .receiver hRecv rfl (waiting_update rfl ?_) rfl rfl (by rw [hCo]; trivial)
    intro role hRole
    cases role with
    | sender => rfl
    | receiver => exact absurd rfl hRole
  | @takeWake t k rest x q w value ws hStack hCo hQueue hSend =>
    have hFront : s.waiting .sender = w :: ws.map Prod.fst := by simp [State.waiting, hSend]
    refine h.wake .sender hFront rfl (waiting_update rfl ?_) rfl rfl hCo.plain
    intro role hRole
    cases role with
    | sender => exact absurd rfl hRole
    | receiver => rfl
  | resumeSender hStack hCo hW =>
    exact h.resume .sender hCo hW rfl (hSame rfl rfl) rfl rfl trivial trivial
  | resumeReceiver hStack hCo hW =>
    exact h.resume .receiver hCo hW rfl (hSame rfl rfl) rfl rfl trivial trivial
  | frontEmpty => exact ⟨h.parked_iff, h.nodup, h.woken, h.waker, h.waker_inj, h.counted⟩
  | resumeActive => exact ⟨h.parked_iff, h.nodup, h.woken, h.waker, h.waker_inj, h.counted⟩

/-- The waiter queues are in order in every run. -/
theorem waiters (h : (system τ κ α Capacity).Reachable s) : Waiters s :=
  h.invariant (I := Waiters) waiters_init fun _ _ _ _ hI _ hst => waiters_step hI hst

end EmbLinux.Channel
