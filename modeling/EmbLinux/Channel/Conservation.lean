import EmbLinux.Channel.Waiters
import EmbLinux.Lib.History

/-!
# EmbLinux — the channel loses no value and keeps each sender's order

For each sender, the values that it sent are, in this order: those delivered,
those in `m_queue`, the one in `m_send_waiters`, and the one in the awaiter of a
`co_await send` that has not parked yet. What is delivered to a receiver is what its
`co_await receive` returns: `Answers` are the values that the coroutines pass and get,
as seen from outside, and `answered` compares them with the history of the state.

Main results:

* `conserved` — the buffer is bounded and each sender's values are in their places;
* `answered` — the values taken out of `m_queue` for a receiver are those that it was
  given, and one more while it is resuming the sender that it has served;
* `channel_conserves` — both, for every capacity and any number of coroutines and
  threads.

Neither the order in which coroutines are resumed nor the faults of the channel matter here: a
run that has faulted goes no further, and what it has delivered until then is as stated.
-/

namespace EmbLinux.Channel

variable {τ κ α : Type*} [DecidableEq τ] [DecidableEq κ] {Capacity : Nat}
  {s s' : State τ κ α} {a : Action τ κ α} {t : τ} {k : κ}

-- ---------------------------------------------------------------------------
-- The values of one sender
-- ---------------------------------------------------------------------------

/-- The values that coroutine `k` sent, among values with their senders. -/
def ofSender (k : κ) (l : List (κ × α)) : List α :=
  (l.filter fun x => decide (x.1 = k)).map Prod.snd

@[simp] theorem ofSender_append (k : κ) (l l' : List (κ × α)) :
    ofSender k (l ++ l') = ofSender k l ++ ofSender k l' := by
  simp [ofSender]

theorem ofSender_cons (k : κ) (x : κ × α) (l : List (κ × α)) :
    ofSender k (x :: l) = ofSender k [x] ++ ofSender k l :=
  ofSender_append k [x] l

/-- What a sender has in a list of one value: the value if it is his, -/
theorem ofSender_self (k : κ) (value : α) : ofSender k [(k, value)] = [value] := by
  simp [ofSender]

/-- and nothing if it is another sender's. -/
theorem ofSender_of_ne {j : κ} (hne : j ≠ k) (value : α) : ofSender j [(k, value)] = [] := by
  simp [ofSender, Ne.symm hne]

/-- A sender without an entry has no values in a list. -/
theorem ofSender_eq_nil {l : List (κ × α)} (h : k ∉ l.map Prod.fst) : ofSender k l = [] := by
  refine List.map_eq_nil_iff.mpr (List.filter_eq_nil_iff.mpr ?_)
  intro x hx hxk
  exact h (List.mem_map.mpr ⟨x, hx, by simpa using hxk⟩)

/-- The value in the awaiter of a `co_await send` that has not parked yet. -/
def pending : Co κ α → Option α
  | .sendReady value | .sendSuspend value => some value
  | _ => none

omit [DecidableEq κ] in
/-- A coroutine that takes a value has none of its own on the way. -/
theorem pending_of_takes {c : Co κ α} (h : Takes c) : pending c = none := by
  cases c <;> first | rfl | exact h.elim

-- ---------------------------------------------------------------------------
-- The invariant
-- ---------------------------------------------------------------------------

/-- Where the values of sender `k` are, in the order in which it sent them. -/
def placed (s : State τ κ α) (k : κ) : List α :=
  ofSender k (s.delivered.map Prod.snd) ++ ofSender k s.queue ++ ofSender k s.sendWaiters ++
    (pending (s.co k)).toList

/-- The buffer is bounded and every value that was sent is in one of the places, in the order of
its sender. -/
structure Conserved (Capacity : Nat) (s : State τ κ α) : Prop where
  bound : s.queue.length ≤ Capacity
  order : ∀ k, ofSender k s.sent = placed s k

omit [DecidableEq τ] in
/-- Nothing has been sent. -/
theorem conserved_init : Conserved Capacity (init τ κ α) where
  bound := Nat.zero_le _
  order := fun _ => rfl

omit [DecidableEq τ] in
/-- A step that moves no value. -/
theorem Conserved.move (h : Conserved Capacity s) (hSent : s'.sent = s.sent)
    (hDelivered : s'.delivered = s.delivered) (hQueue : s'.queue = s.queue)
    (hSend : s'.sendWaiters = s.sendWaiters)
    (hPending : ∀ j, pending (s'.co j) = pending (s.co j)) :
    Conserved Capacity s' := by
  refine ⟨?_, ?_⟩
  · rw [hQueue]
    exact h.bound
  · intro j
    rw [hSent, h.order j, placed, placed, hDelivered, hQueue, hSend, hPending j]

/-- A step that leaves the awaiter's value where it is moves no value. -/
theorem pending_update {co : κ → Co κ α} {c : Co κ α} (h : pending c = pending (co k)) (j : κ) :
    pending (Function.update co k c j) = pending (co j) :=
  observe_update pending rfl h j

/-- Two coroutines move, and neither has a pending value before or after. -/
theorem pending_update_two {co : κ → Co κ α} {w : κ} {c c' : Co κ α}
    (hw : pending c = pending (co w)) (hk : pending c' = pending (co k)) (j : κ) :
    pending (Function.update (Function.update co w c) k c' j) = pending (co j) := by
  rw [pending_update (hk.trans (pending_update hw k).symm) j, pending_update hw j]

section

omit [DecidableEq τ]

/-- A `co_await send` begins: its value is in the awaiter. -/
theorem Conserved.send (h : Conserved Capacity s) {r : Option α} {value : α}
    (hCo : s.co k = .running r) :
    Conserved Capacity { s.setCo k (.sendReady value) with sent := s.sent ++ [(k, value)] } := by
  refine ⟨h.bound, ?_⟩
  intro j
  rw [ofSender_append, h.order j]
  show _ = ofSender j (s.delivered.map Prod.snd) ++ ofSender j s.queue ++
    ofSender j s.sendWaiters ++ (pending (Function.update s.co k _ j)).toList
  by_cases hj : j = k
  · rw [placed, hj, hCo, Function.update_self, ofSender_self]
    simp [pending]
  · rw [placed, Function.update_of_ne hj, ofSender_of_ne hj, List.append_nil]

/-- The value goes from the awaiter to the end of `m_queue`; the sender has none
in `m_send_waiters`. -/
theorem Conserved.push (h : Conserved Capacity s) (hWaiters : Waiters s) {value : α}
    (hCo : s.co k = .sendReady value) (hRoom : s.queue.length < Capacity)
    (hSent : s'.sent = s.sent) (hDelivered : s'.delivered = s.delivered)
    (hQueue : s'.queue = s.queue ++ [(k, value)]) (hSend : s'.sendWaiters = s.sendWaiters)
    (hPending : ∀ j, pending (s'.co j) = if j = k then none else pending (s.co j)) :
    Conserved Capacity s' := by
  refine ⟨?_, ?_⟩
  · rw [hQueue, List.length_append, List.length_singleton]
    exact hRoom
  · intro j
    rw [hSent, h.order j, placed, placed, hDelivered, hQueue, hSend, hPending j, ofSender_append]
    by_cases hj : j = k
    · -- a sender with a value in its awaiter is not parked
      have hOut : k ∉ s.sendWaiters.map Prod.fst := by
        intro hMem
        have hParked := (hWaiters.parked_iff .sender k).mp hMem
        rw [hCo] at hParked
        cases hParked
      rw [if_pos hj, hj, hCo, ofSender_self, ofSender_eq_nil hOut]
      simp [pending]
    · rw [if_neg hj, ofSender_of_ne hj, List.append_nil]

/-- The value goes from the awaiter to the end of `m_send_waiters`. -/
theorem Conserved.park (h : Conserved Capacity s) {value : α} (hCo : s.co k = .sendSuspend value)
    (hSent : s'.sent = s.sent) (hDelivered : s'.delivered = s.delivered)
    (hQueue : s'.queue = s.queue) (hSend : s'.sendWaiters = s.sendWaiters ++ [(k, value)])
    (hPending : ∀ j, pending (s'.co j) = if j = k then none else pending (s.co j)) :
    Conserved Capacity s' := by
  refine ⟨?_, ?_⟩
  · rw [hQueue]
    exact h.bound
  · intro j
    rw [hSent, h.order j, placed, placed, hDelivered, hQueue, hSend, hPending j, ofSender_append]
    by_cases hj : j = k
    · rw [if_pos hj, hj, hCo, ofSender_self]
      simp [pending]
    · rw [if_neg hj, ofSender_of_ne hj, List.append_nil]

/-- The front of `m_queue` is delivered, and the first parked sender's value, if
there is one, goes from `m_send_waiters` to the end of `m_queue`. -/
theorem Conserved.take (h : Conserved Capacity s) {x : κ × α} {q : List (κ × α)}
    (moved : List (κ × α)) (hFront : s.queue = x :: q) (hMoved : moved.length ≤ 1)
    (hSent : s'.sent = s.sent)
    (hDelivered : s'.delivered = s.delivered ++ [(k, x)]) (hQueue : s'.queue = q ++ moved)
    (hSend : s.sendWaiters = moved ++ s'.sendWaiters)
    (hPending : ∀ j, pending (s'.co j) = pending (s.co j)) : Conserved Capacity s' := by
  have hBound := h.bound
  refine ⟨?_, ?_⟩
  · rw [hFront, List.length_cons] at hBound
    rw [hQueue, List.length_append]
    omega
  · intro j
    rw [hSent, h.order j, placed, placed, hDelivered, hQueue, hSend, hFront, hPending j,
      ofSender_cons]
    simp

end

/-- Each region hands a value on by one place, or none. -/
theorem conserved_step (hWaiters : Waiters s) (h : Conserved Capacity s)
    (hst : step Capacity s a = some s') : Conserved Capacity s' := by
  -- the pending values after the coroutine `k` gave up its own
  have hGive : ∀ {k : κ} {c : Co κ α} (co : κ → Co κ α), pending c = none → ∀ j,
      pending (Function.update co k c j) = if j = k then none else pending (co j) := by
    intro k c co hc j
    by_cases hj : j = k
    · rw [if_pos hj, hj, Function.update_self, hc]
    · rw [if_neg hj, Function.update_of_ne hj]
  cases (step_effect hst).1 with
  | start hNew hTop =>
    exact h.move rfl rfl rfl rfl (pending_update (by rw [hNew]; rfl))
  | send hStack hCo => exact h.send hCo
  | receive hStack hCo => exact h.move rfl rfl rfl rfl (pending_update (by rw [hCo]; rfl))
  | finish hStack hCo => exact h.move rfl rfl rfl rfl (pending_update (by rw [hCo]; rfl))
  | full hStack hCo => exact h.move rfl rfl rfl rfl (pending_update (by rw [hCo]; rfl))
  | empty hStack hCo => exact h.move rfl rfl rfl rfl (pending_update (by rw [hCo]; rfl))
  | parkReceiver hStack hCo => exact h.move rfl rfl rfl rfl (pending_update (by rw [hCo]; rfl))
  | frontEmpty => exact h.move rfl rfl rfl rfl fun _ => rfl
  | resumeActive => exact h.move rfl rfl rfl rfl fun _ => rfl
  | push hStack hCo hRoom hRecv => exact h.push hWaiters hCo hRoom rfl rfl rfl rfl (hGive _ rfl)
  | parkSender hStack hCo => exact h.park hCo rfl rfl rfl rfl (hGive _ rfl)
  | @pushWake t k rest value w ws hStack hCo hRoom hRecv =>
    -- the woken receiver has no value of its own
    have hParked := hWaiters.front_receiver hRecv
    refine h.push hWaiters hCo hRoom rfl rfl rfl rfl ?_
    intro j
    have hWoken : pending (Function.update s.co w .recvWoken j) = pending (s.co j) :=
      pending_update (by rw [hParked]; rfl) j
    rw [← hWoken]
    exact hGive (Function.update s.co w .recvWoken) rfl j
  | take hStack hCo hQueue hSend =>
    -- nothing comes in behind the value that is taken
    refine h.take [] hQueue (Nat.zero_le _) rfl rfl (List.append_nil _).symm rfl
      (pending_update ?_)
    rw [pending_of_takes hCo]
    rfl
  | @takeWake t k rest x q w value ws hStack hCo hQueue hSend =>
    -- the value of the woken sender moves to the buffer
    have hParked := hWaiters.front_sender hSend
    refine h.take [(w, value)] hQueue (Nat.le_refl _) rfl rfl rfl hSend
      (pending_update_two ?_ ?_)
    · rw [hParked]
      rfl
    · rw [pending_of_takes hCo]
      rfl
  | resumeSender hStack hCo hW =>
    exact h.move rfl rfl rfl rfl
      (pending_update_two (by rw [hW]; rfl) (by rw [hCo]; rfl))
  | resumeReceiver hStack hCo hW =>
    exact h.move rfl rfl rfl rfl
      (pending_update_two (by rw [hW]; rfl) (by rw [hCo]; rfl))

/-- In every state. -/
theorem conserved (h : (system τ κ α Capacity).Reachable s) : Conserved Capacity s :=
  h.invariant (I := Conserved Capacity) conserved_init fun _ _ _ hReach hI _ hst =>
    conserved_step (waiters hReach) hI hst

-- ---------------------------------------------------------------------------
-- The answers
-- ---------------------------------------------------------------------------

/-- What the coroutines have seen of the channel: the values that each of them has
passed to `send`, and those that its `receive` has returned, in order. -/
structure Answers (κ α : Type*) where
  sent : κ → List α
  received : κ → List α

/-- The value with which a coroutine goes on after its `co_await`. -/
def Co.received? : Co κ α → Option α
  | .running received => received
  | _ => none

/-- The answers after a step. An operation ends when its coroutine runs its own code
again, and `receive` has returned the value that is there then. -/
def Answers.after (s : State τ κ α) (a : Action τ κ α) (s' : State τ κ α) (n : Answers κ α) :
    Answers κ α where
  sent :=
    match a with
    | .send t value =>
      match s.runningTop t with
      | some k => Function.update n.sent k (n.sent k ++ [value])
      | none => n.sent
    | _ => n.sent
  received := fun k =>
    n.received k ++ if (s.co k).isRunning then [] else (s'.co k).received?.toList

/-- The channel, with what its coroutines see of it. -/
def observed (τ κ α : Type*) [DecidableEq τ] [DecidableEq κ] (Capacity : Nat) :
    System (State τ κ α × Answers κ α) (Action τ κ α) :=
  (system τ κ α Capacity).observed ⟨fun _ => [], fun _ => []⟩ Answers.after

/-- The values taken out of `m_queue` by coroutine `k`. -/
def takenBy (k : κ) (l : List (κ × (κ × α))) : List α :=
  (l.filter fun x => decide (x.1 = k)).map fun x => x.2.2

/-- The value that a coroutine has taken and not returned yet: it resumes the sender
first that it has made room for. -/
def inHand : Co κ α → Option α
  | .resuming received _ => received
  | _ => none

/-- What was delivered later comes behind. -/
theorem takenBy_append (k : κ) (l l' : List (κ × (κ × α))) :
    takenBy k (l ++ l') = takenBy k l ++ takenBy k l' := by
  simp [takenBy]

/-- What a receiver gets of one delivery: the value if it is its own, -/
theorem takenBy_self (k : κ) (x : κ × α) : takenBy k [(k, x)] = [x.2] := by
  simp [takenBy]

/-- and nothing if it is another receiver's. -/
theorem takenBy_of_ne {j : κ} (hne : j ≠ k) (x : κ × α) : takenBy j [(k, x)] = [] := by
  simp [takenBy, Ne.symm hne]

/-- The answers are the history that the state keeps. -/
structure Answered (s : State τ κ α) (n : Answers κ α) : Prop where
  sent : ∀ k, n.sent k = ofSender k s.sent
  received : ∀ k, takenBy k s.delivered = n.received k ++ (inHand (s.co k)).toList

variable {n : Answers κ α}

omit [DecidableEq κ] in
/-- A coroutine that the step leaves as it is sees nothing. -/
theorem sees_nothing (c : Co κ α) :
    (if c.isRunning then [] else c.received?.toList : List α) = [] := by
  cases c <;> rfl

/-- A coroutine goes on without taking a value: it stays where it is, goes to a place where
it gets none, or returns the value in its hand. -/
def Quietly (c c' : Co κ α) : Prop :=
  c' = c ∨ (inHand c = inHand c' ∧ c'.received? = none) ∨
    (c.isRunning = false ∧ inHand c' = none ∧ c'.received? = inHand c)

omit [DecidableEq κ] in
theorem Quietly.refl (c : Co κ α) : Quietly c c := Or.inl rfl

omit [DecidableEq κ] in
/-- To a place without a value, from one without a value. -/
theorem Quietly.of_none {c c' : Co κ α} (h : inHand c = none) (h' : inHand c' = none)
    (hGets : c'.received? = none) : Quietly c c' :=
  Or.inr (Or.inl ⟨h.trans h'.symm, hGets⟩)

/-- A quiet change of one coroutine changes no answer of any. -/
theorem quietly_update {co : κ → Co κ α} {c : Co κ α} (h : Quietly (co k) c) (j : κ) :
    Quietly (co j) (Function.update co k c j) := by
  by_cases hj : j = k
  · rw [hj, Function.update_self]
    exact h
  · rw [Function.update_of_ne hj]
    exact .refl _

/-- Two coroutines go on. -/
theorem quietly_update_two {co : κ → Co κ α} {w : κ} {c c' : Co κ α}
    (hw : Quietly (co w) c) (hk : Quietly (co k) c') (j : κ) :
    Quietly (co j) (Function.update (Function.update co w c) k c' j) := by
  by_cases hj : j = k
  · rw [hj, Function.update_self]
    exact hk
  · rw [Function.update_of_ne hj]
    exact quietly_update hw j

omit [DecidableEq τ] in
/-- A step in which nobody takes a value out of `m_queue`. -/
theorem Answered.quiet (h : Answered s n)
    (hSent : ∀ k, (n.after s a s').sent k = ofSender k s'.sent)
    (hDelivered : s'.delivered = s.delivered)
    (hCo : ∀ k, Quietly (s.co k) (s'.co k)) : Answered s' (n.after s a s') := by
  refine ⟨hSent, ?_⟩
  intro k
  rw [hDelivered, h.received k]
  show _ = (n.received k ++ if (s.co k).isRunning then [] else (s'.co k).received?.toList) ++ _
  rcases hCo k with hSame | ⟨hHand, hNone⟩ | ⟨hNot, hHand, hGets⟩
  · rw [hSame, sees_nothing, List.append_nil]
  · rw [hNone, hHand]
    simp
  · rw [hNot, hHand, hGets]
    simp

omit [DecidableEq τ] in
/-- A step in which `k` takes the front of `m_queue`, and returns it or has it in hand. -/
theorem Answered.take (h : Answered s n) {x : κ × α}
    (hSent : ∀ k, (n.after s a s').sent k = ofSender k s'.sent)
    (hDelivered : s'.delivered = s.delivered ++ [(k, x)]) (hTakes : Takes (s.co k))
    (hAt : s'.co k = .running (some x.2) ∨ ∃ w, s'.co k = .resuming (some x.2) w)
    (hCo : ∀ j, j ≠ k → s'.co j = s.co j ∨
      (inHand (s.co j) = inHand (s'.co j) ∧ (s'.co j).received? = none)) :
    Answered s' (n.after s a s') := by
  refine ⟨hSent, ?_⟩
  intro j
  rw [hDelivered, takenBy_append, h.received j]
  show _ = (n.received j ++ if (s.co j).isRunning then [] else (s'.co j).received?.toList) ++ _
  by_cases hj : j = k
  · subst hj
    have hOld : inHand (s.co j) = none ∧ (s.co j).isRunning = false := by
      cases hAt' : s.co j <;> rw [hAt'] at hTakes <;> first | exact ⟨rfl, rfl⟩ | exact hTakes.elim
    rw [takenBy_self, hOld.1, hOld.2]
    rcases hAt with hAt | ⟨w, hAt⟩ <;> rw [hAt] <;> simp [Co.received?, inHand]
  · rw [takenBy_of_ne hj]
    rcases hCo j hj with hSame | ⟨hHand, hNone⟩
    · rw [hSame, sees_nothing]
      simp
    · rw [hNone, hHand]
      simp

omit [DecidableEq τ] [DecidableEq κ] in
/-- The coroutine that runs on a thread is the top of its stack. -/
theorem runningTop_of {rest : List κ} {r : Option α} (hStack : s.stack t = k :: rest)
    (hCo : s.co k = .running r) : s.runningTop t = some k := by
  simp [State.runningTop, hStack, hCo, Co.isRunning]

/-- A receiver sees a value when it returns from `receive`, which is the step after the one that
takes it or after the sender that it resumes has come back. -/
theorem answered_step (hWaiters : Waiters s) (h : Answered s n)
    (hst : step Capacity s a = some s') :
    Answered s' (n.after s a s') := by
  cases (step_effect hst).1 with
  | start hNew hTop =>
    exact h.quiet h.sent rfl (quietly_update (.of_none (by rw [hNew]; rfl) rfl rfl))
  | @send t k rest r value hStack hCo =>
    refine h.quiet ?_ rfl (quietly_update (.of_none (by rw [hCo]; rfl) rfl rfl))
    intro j
    simp only [Answers.after, runningTop_of hStack hCo]
    show _ = ofSender j (s.sent ++ [(k, value)])
    rw [ofSender_append]
    by_cases hj : j = k
    · rw [hj, Function.update_self, h.sent k, ofSender_self]
    · rw [Function.update_of_ne hj, h.sent j, ofSender_of_ne hj, List.append_nil]
  | receive hStack hCo =>
    exact h.quiet h.sent rfl (quietly_update (.of_none (by rw [hCo]; rfl) rfl rfl))
  | finish hStack hCo =>
    exact h.quiet h.sent rfl (quietly_update (.of_none (by rw [hCo]; rfl) rfl rfl))
  | push hStack hCo =>
    exact h.quiet h.sent rfl (quietly_update (.of_none (by rw [hCo]; rfl) rfl rfl))
  | pushWake hStack hCo hRoom hRecv =>
    have hParked := hWaiters.front_receiver hRecv
    refine h.quiet h.sent rfl (quietly_update_two (.of_none ?_ rfl rfl) (.of_none ?_ rfl rfl))
    · rw [hParked]
      rfl
    · rw [hCo]
      rfl
  | full hStack hCo =>
    exact h.quiet h.sent rfl (quietly_update (.of_none (by rw [hCo]; rfl) rfl rfl))
  | parkSender hStack hCo =>
    exact h.quiet h.sent rfl (quietly_update (.of_none (by rw [hCo]; rfl) rfl rfl))
  | empty hStack hCo =>
    exact h.quiet h.sent rfl (quietly_update (.of_none (by rw [hCo]; rfl) rfl rfl))
  | parkReceiver hStack hCo =>
    exact h.quiet h.sent rfl (quietly_update (.of_none (by rw [hCo]; rfl) rfl rfl))
  | take hStack hCo hQueue hSend =>
    exact h.take h.sent rfl hCo (Or.inl (Function.update_self ..))
      fun j hj => Or.inl (Function.update_of_ne hj ..)
  | @takeWake t k rest x q w value ws hStack hCo hQueue hSend =>
    -- the woken sender gets nothing
    have hParked := hWaiters.front_sender hSend
    refine h.take h.sent rfl hCo (Or.inr ⟨w, Function.update_self ..⟩) ?_
    intro j hj
    show Function.update (Function.update s.co w .sendWoken) k _ j = s.co j ∨ _
    rw [Function.update_of_ne hj]
    by_cases hjw : j = w
    · refine Or.inr ?_
      show inHand (s.co j) = inHand (Function.update (Function.update s.co w .sendWoken) k _ j) ∧
        (Function.update (Function.update s.co w .sendWoken) k _ j).received? = none
      rw [Function.update_of_ne hj, hjw, Function.update_self, hParked]
      exact ⟨rfl, rfl⟩
    · exact Or.inl (Function.update_of_ne hjw ..)
  | resumeSender hStack hCo hW =>
    -- the resumer returns what it has in hand
    refine h.quiet h.sent rfl (quietly_update_two (.of_none (by rw [hW]; rfl) rfl rfl) ?_)
    rw [hCo]
    exact Or.inr (Or.inr ⟨rfl, rfl, rfl⟩)
  | resumeReceiver hStack hCo hW =>
    refine h.quiet h.sent rfl (quietly_update_two (.of_none (by rw [hW]; rfl) rfl rfl) ?_)
    rw [hCo]
    exact Or.inr (Or.inr ⟨rfl, rfl, rfl⟩)
  | frontEmpty => exact h.quiet h.sent rfl fun _ => .refl _
  | resumeActive => exact h.quiet h.sent rfl fun _ => .refl _

/-- **What is delivered is what `receive` returns**, and what is sent is what was passed
to `send`, for each coroutine. -/
theorem answered (h : (observed τ κ α Capacity).Reachable (s, n)) : Answered s n := by
  refine h.observed_invariant (I := Answered) ⟨fun _ => rfl, fun _ => rfl⟩ ?_
  intro s a s' n hs hI hst
  exact answered_step (waiters hs) hI hst

-- ---------------------------------------------------------------------------
-- The contract
-- ---------------------------------------------------------------------------

/-- What the channel promises about values, for coroutines on any threads that have seen
the answers `n`. -/
structure ChannelConserves (Capacity : Nat) (s : State τ κ α) (n : Answers κ α) : Prop where
  /-- The buffer is bounded. -/
  bound : s.queue.length ≤ Capacity
  /-- Every value that a sender has passed to `send` is in one place: taken out of
  `m_queue` for the one receiver noted with it, in `m_queue`, in `m_send_waiters`, or in
  the awaiter. -/
  places : ∀ k, n.sent k =
    ofSender k (s.delivered.map Prod.snd) ++ ofSender k s.queue ++ ofSender k s.sendWaiters ++
      (pending (s.co k)).toList
  /-- What was taken for a receiver is what its `receive` has returned, in that order; the
  last value may be in the hand of a receiver that is resuming a sender. -/
  received : ∀ k, takenBy k s.delivered = n.received k ++ (inHand (s.co k)).toList
  /-- What leaves `m_queue` is its front, and is noted as it leaves. -/
  leaves : ∀ a s', step Capacity s a = some s' →
    (s'.delivered = s.delivered ∧ s.queue <+: s'.queue) ∨
      ∃ k x rest, s.queue = x :: rest ∧ rest <+: s'.queue ∧
        s'.delivered = s.delivered ++ [(k, x)]
  /-- The sender with a value in `m_send_waiters` is parked there, once. -/
  parked : (s.sendWaiters.map Prod.fst).Nodup ∧
    ∀ k, k ∈ s.sendWaiters.map Prod.fst ↔ s.co k = .sendParked
  /-- Values of one sender leave `m_queue` in the order in which it sent them. -/
  order : ∀ k, ofSender k (s.delivered.map Prod.snd) <+: n.sent k

/-- Only a `receive` takes something out of `m_queue`, and it takes the front. -/
theorem leaves_front (hst : step Capacity s a = some s') :
    (s'.delivered = s.delivered ∧ s.queue <+: s'.queue) ∨
      ∃ k x rest, s.queue = x :: rest ∧ rest <+: s'.queue ∧
        s'.delivered = s.delivered ++ [(k, x)] := by
  cases (step_effect hst).1 with
  | push | pushWake => exact Or.inl ⟨rfl, List.prefix_append ..⟩
  | take hStack hCo hQueue hSend => exact Or.inr ⟨_, _, _, hQueue, List.prefix_rfl, rfl⟩
  | takeWake hStack hCo hQueue hSend => exact Or.inr ⟨_, _, _, hQueue, List.prefix_append .., rfl⟩
  | _ => exact Or.inl ⟨rfl, List.prefix_rfl⟩

/-- **Conservation and per-sender order**, for every capacity, any number of
coroutines on any number of threads, and every interleaving of the locked
regions. A run ends at a `front()` on an empty buffer, so the states are those before
one. -/
theorem channel_conserves (h : (observed τ κ α Capacity).Reachable (s, n)) :
    ChannelConserves Capacity s n := by
  have hReach : (system τ κ α Capacity).Reachable s := h.of_observed
  have hC := conserved hReach
  have hW := waiters hReach
  have hA := answered h
  have hPlaces : ∀ k, n.sent k = placed s k := fun k => (hA.sent k).trans (hC.order k)
  refine ⟨hC.bound, hPlaces, hA.received, fun a s' hst => leaves_front hst,
    ⟨hW.nodup .sender, hW.parked_iff .sender⟩, ?_⟩
  intro k
  rw [hPlaces k, placed, List.append_assoc, List.append_assoc]
  exact List.prefix_append _ _

/-- A channel of one value: the second sender parks until the first value is
taken, and the receiver returns that value after it has resumed the sender. -/
theorem channel_conserves_two :
    ∃ (s : State Bool Nat Nat) (n : Answers Nat Nat), (observed Bool Nat Nat 1).Reachable (s, n) ∧
      n.received 2 = [10] ∧ n.sent 1 = [20] ∧ s.queue = [(1, 20)] ∧ ChannelConserves 1 s n := by
  obtain ⟨⟨s, n⟩, hs, hp⟩ := System.exists_reachable_of_exec (S := observed Bool Nat Nat 1)
    (p := fun x => x.2.received 2 = [10] ∧ x.2.sent 1 = [20] ∧ x.1.queue = [(1, 20)])
    [.start false 0, .send false 10, .run false, .finish false, .start false 1, .send false 20,
      .run false, .run false, .start true 2, .receive true, .run true, .run true] (by decide)
  exact ⟨s, n, hs, hp.1, hp.2.1, hp.2.2, channel_conserves hs⟩

end EmbLinux.Channel
