import EmbLinux.Channel.Model

/-!
# EmbLinux — what one step of the channel does

`Effect` lists the steps of the model with what held before them and the state
after; `step_effect` says that every step is one of them, out of a state without
a fault. The invariants are proved by cases on `Effect`, and `step` is unfolded
here only.
-/

namespace EmbLinux.Channel

variable {τ κ α : Type*} [DecidableEq τ] [DecidableEq κ] {Capacity : Nat}
  {s s' : State τ κ α} {a : Action τ κ α} {t : τ} {k : κ} {rest : List κ}

/-- Before the regions that take a value out of `m_queue`. -/
def Takes : Co κ α → Prop
  | .recvReady | .recvResume => True
  | _ => False

/-- What one step does, a case for each way through a region. Every invariant of the channel is
derived from this. -/
inductive Effect (Capacity : Nat) (s : State τ κ α) : Action τ κ α → State τ κ α → Prop
  | start {t : τ} {k : κ} (hNew : s.co k = .unstarted)
      (hTop : s.stack t = [] ∨ ∃ j rest r, s.stack t = j :: rest ∧ s.co j = .running r) :
      Effect Capacity s (.start t k) ((s.setCo k (.running none)).setStack t (k :: s.stack t))
  | send {t : τ} {k : κ} {rest : List κ} {r : Option α} {value : α} (hStack : s.stack t = k :: rest)
      (hCo : s.co k = .running r) :
      Effect Capacity s (.send t value)
        { s.setCo k (.sendReady value) with sent := s.sent ++ [(k, value)] }
  | receive {t : τ} {k : κ} {rest : List κ} {r : Option α} (hStack : s.stack t = k :: rest)
      (hCo : s.co k = .running r) :
      Effect Capacity s (.receive t) (s.setCo k .recvReady)
  | finish {t : τ} {k : κ} {rest : List κ} {r : Option α} (hStack : s.stack t = k :: rest)
      (hCo : s.co k = .running r) :
      Effect Capacity s (.finish t) ((s.setCo k .done).setStack t rest)
  | push {t : τ} {k : κ} {rest : List κ} {value : α} (hStack : s.stack t = k :: rest)
      (hCo : s.co k = .sendReady value) (hRoom : s.queue.length < Capacity)
      (hRecv : s.recvWaiters = []) :
      Effect Capacity s (.run t)
        { s.setCo k (.running none) with queue := s.queue ++ [(k, value)] }
  | pushWake {t : τ} {k : κ} {rest : List κ} {value : α} {w : κ} {ws : List κ}
      (hStack : s.stack t = k :: rest) (hCo : s.co k = .sendReady value)
      (hRoom : s.queue.length < Capacity) (hRecv : s.recvWaiters = w :: ws) :
      Effect Capacity s (.run t)
        { (s.setCo w .recvWoken).setCo k (.resuming none w) with
          queue := s.queue ++ [(k, value)]
          recvWaiters := ws }
  | full {t : τ} {k : κ} {rest : List κ} {value : α} (hStack : s.stack t = k :: rest)
      (hCo : s.co k = .sendReady value) (hFull : Capacity ≤ s.queue.length) :
      Effect Capacity s (.run t) (s.setCo k (.sendSuspend value))
  | parkSender {t : τ} {k : κ} {rest : List κ} {value : α} (hStack : s.stack t = k :: rest)
      (hCo : s.co k = .sendSuspend value) :
      Effect Capacity s (.run t)
        { s.park t k rest .sendParked with sendWaiters := s.sendWaiters ++ [(k, value)] }
  | take {t : τ} {k : κ} {rest : List κ} {x : κ × α} {q : List (κ × α)}
      (hStack : s.stack t = k :: rest) (hCo : Takes (s.co k)) (hQueue : s.queue = x :: q)
      (hSend : s.sendWaiters = []) :
      Effect Capacity s (.run t)
        { s.setCo k (.running (some x.2)) with
          queue := q
          delivered := s.delivered ++ [(k, x)] }
  | takeWake {t : τ} {k : κ} {rest : List κ} {x : κ × α} {q : List (κ × α)} {w : κ} {value : α}
      {ws : List (κ × α)} (hStack : s.stack t = k :: rest) (hCo : Takes (s.co k))
      (hQueue : s.queue = x :: q) (hSend : s.sendWaiters = (w, value) :: ws) :
      Effect Capacity s (.run t)
        { (s.setCo w .sendWoken).setCo k (.resuming (some x.2) w) with
          queue := q ++ [(w, value)]
          sendWaiters := ws
          delivered := s.delivered ++ [(k, x)] }
  | empty {t : τ} {k : κ} {rest : List κ} (hStack : s.stack t = k :: rest)
      (hCo : s.co k = .recvReady) (hQueue : s.queue = []) :
      Effect Capacity s (.run t) (s.setCo k .recvSuspend)
  | parkReceiver {t : τ} {k : κ} {rest : List κ} (hStack : s.stack t = k :: rest)
      (hCo : s.co k = .recvSuspend) :
      Effect Capacity s (.run t)
        { s.park t k rest .recvParked with recvWaiters := s.recvWaiters ++ [k] }
  | resumeSender {t : τ} {k : κ} {rest : List κ} {r : Option α} {w : κ}
      (hStack : s.stack t = k :: rest) (hCo : s.co k = .resuming r w) (hW : s.co w = .sendWoken) :
      Effect Capacity s (.run t)
        { ((s.setCo w (.running none)).setCo k (.running r)).setStack t (w :: k :: rest) with
          resumes := Function.update s.resumes w (s.resumes w + 1) }
  | resumeReceiver {t : τ} {k : κ} {rest : List κ} {r : Option α} {w : κ}
      (hStack : s.stack t = k :: rest) (hCo : s.co k = .resuming r w) (hW : s.co w = .recvWoken) :
      Effect Capacity s (.run t)
        { ((s.setCo w .recvResume).setCo k (.running r)).setStack t (w :: k :: rest) with
          resumes := Function.update s.resumes w (s.resumes w + 1) }
  | frontEmpty {t : τ} {k : κ} {rest : List κ} (hStack : s.stack t = k :: rest)
      (hCo : s.co k = .recvResume) (hQueue : s.queue = []) :
      Effect Capacity s (.run t) { s with fault := true }
  | resumeActive {t : τ} {k : κ} {rest : List κ} {r : Option α} {w : κ}
      (hStack : s.stack t = k :: rest) (hCo : s.co k = .resuming r w) (hSend : s.co w ≠ .sendWoken)
      (hRecv : s.co w ≠ .recvWoken) :
      Effect Capacity s (.run t) { s with fault := true }

omit [DecidableEq τ] [DecidableEq κ] in
/-- The running coroutine of a thread is the top of its stack. -/
theorem runningTop_eq (h : s.runningTop t = some k) :
    ∃ rest r, s.stack t = k :: rest ∧ s.co k = .running r := by
  unfold State.runningTop at h
  split at h
  · cases h
  · next j rest hStack =>
    split at h
    · next hRun =>
      cases h
      cases hCo : s.co k with
      | running r => exact ⟨rest, r, hStack, rfl⟩
      | _ => simp [hCo, Co.isRunning] at hRun
    · cases h

/-- The region of the sender's `await_ready` is one of three effects. -/
theorem sendRegion_effect {value : α} (hStack : s.stack t = k :: rest)
    (hCo : s.co k = .sendReady value) :
    Effect Capacity s (.run t) (s.sendRegion Capacity k value) := by
  unfold State.sendRegion
  split
  · next hRoom =>
    split
    · next hRecv => exact .push hStack hCo hRoom hRecv
    · next hRecv => exact .pushWake hStack hCo hRoom hRecv
  · next hFull => exact .full hStack hCo (Nat.le_of_not_lt hFull)

/-- Taking the front of `m_queue` is one of two effects. -/
theorem takeFront_effect (hStack : s.stack t = k :: rest) (hCo : Takes (s.co k))
    (h : s.takeFront k = some s') : Effect Capacity s (.run t) s' := by
  unfold State.takeFront at h
  split at h
  · cases h
  · next hQueue =>
    split at h
    · next hSend =>
      cases h
      exact .take hStack hCo hQueue hSend
    · next hSend =>
      cases h
      exact .takeWake hStack hCo hQueue hSend

omit [DecidableEq τ] in
/-- A `receive` that comes away with nothing has found the buffer empty. -/
theorem takeFront_none (h : s.takeFront k = none) : s.queue = [] := by
  unfold State.takeFront at h
  split at h
  · assumption
  · split at h <;> cases h

/-- The resumption of a waiter that was taken out before, -/
theorem resume_effect {r : Option α} {w : κ} (hStack : s.stack t = k :: rest)
    (hCo : s.co k = .resuming r w) : Effect Capacity s (.run t) (s.resume t k r w) := by
  unfold State.resume
  rw [hStack]
  split
  · next hW => exact .resumeSender hStack hCo hW
  · next hW => exact .resumeReceiver hStack hCo hW
  · next hSend hRecv => exact .resumeActive hStack hCo hSend hRecv

/-- and the other steps of the channel's code. -/
theorem run_effect (hStack : s.stack t = k :: rest) (hst : run Capacity s t k rest = some s') :
    Effect Capacity s (.run t) s' := by
  unfold run at hst
  split at hst
  · next hCo =>
    cases hst
    exact sendRegion_effect hStack hCo
  · next hCo =>
    cases hst
    exact .parkSender hStack hCo
  · next hCo =>
    split at hst
    · next hNone =>
      cases hst
      exact .empty hStack hCo (takeFront_none hNone)
    · next hSome =>
      cases hst
      exact takeFront_effect hStack (by rw [hCo]; trivial) hSome
  · next hCo =>
    cases hst
    exact .parkReceiver hStack hCo
  · next hCo =>
    split at hst
    · next hNone =>
      cases hst
      exact .frontEmpty hStack hCo (takeFront_none hNone)
    · next hSome =>
      cases hst
      exact takeFront_effect hStack (by rw [hCo]; trivial) hSome
  · next hCo =>
    cases hst
    exact resume_effect hStack hCo
  · cases hst

/-- Every step is one of the listed effects, out of a state without a fault. -/
theorem step_effect (hst : step Capacity s a = some s') :
    Effect Capacity s a s' ∧ s.fault = false := by
  unfold step at hst
  split at hst
  · cases hst
  next hFault =>
  refine ⟨?_, by simpa using hFault⟩
  split at hst
  · next t k =>
    split at hst
    · next hNew =>
      split at hst
      · next hTop =>
        cases hst
        refine .start hNew ?_
        rcases Bool.or_eq_true_iff.mp hTop with hEmpty | hRunning
        · exact Or.inl (List.isEmpty_iff.mp hEmpty)
        · obtain ⟨j, hj⟩ := Option.isSome_iff_exists.mp hRunning
          obtain ⟨rest, r, hStack, hCo⟩ := runningTop_eq hj
          exact Or.inr ⟨j, rest, r, hStack, hCo⟩
      · cases hst
    · cases hst
  · next t value =>
    split at hst
    · cases hst
    · next k hTop =>
      cases hst
      obtain ⟨rest, r, hStack, hCo⟩ := runningTop_eq hTop
      exact .send hStack hCo
  · next t =>
    split at hst
    · cases hst
    · next k hTop =>
      cases hst
      obtain ⟨rest, r, hStack, hCo⟩ := runningTop_eq hTop
      exact .receive hStack hCo
  · next t =>
    split at hst
    · cases hst
    · next k hTop =>
      cases hst
      obtain ⟨rest, r, hStack, hCo⟩ := runningTop_eq hTop
      rw [hStack]
      exact .finish hStack hCo
  · next t =>
    split at hst
    · cases hst
    · next k rest hStack => exact run_effect hStack hst

end EmbLinux.Channel
