import EmbLinux.Channel.Conservation

/-!
# EmbLinux — the channel on one thread

On one thread the two halves of a `co_await` are not separated: only the
coroutine on top of the stack is inside an operation, and everything below it
waits for a `resume` to return. `Serial` says what holds of the channel at each
program point of the top coroutine. Outside of hand-overs the channel is
`Balanced`: a parked receiver means an empty buffer, a parked sender a full one.
In a hand-over, between the push that wakes a receiver and the `await_resume` of
that receiver, the buffer holds the one value that goes over.

`serial` holds of every reached state, however the resumed coroutines nest.
-/

namespace EmbLinux.Channel

variable {κ α : Type*} [DecidableEq κ] {Capacity : Nat}
  {s s' : State Unit κ α} {a : Action Unit κ α} {k : κ} {rest : List κ}

-- ---------------------------------------------------------------------------
-- The invariant
-- ---------------------------------------------------------------------------

/-- Nobody is parked who could go on. -/
structure Balanced (Capacity : Nat) (s : State Unit κ α) : Prop where
  receivers : s.recvWaiters ≠ [] → s.queue = [] ∧ s.sendWaiters = []
  senders : s.sendWaiters ≠ [] → s.queue.length = Capacity

/-- The buffer holds the value of the woken receiver, and nothing else waits. -/
structure HandOver (s : State Unit κ α) : Prop where
  one : s.queue.length = 1
  nobody : s.sendWaiters = []

/-- What holds of the channel at a program point of the coroutine on top. -/
def ModeOk (Capacity : Nat) (s : State Unit κ α) : Co κ α → Prop
  | .sendSuspend _ => Balanced Capacity s ∧ s.queue.length = Capacity
  | .recvSuspend => Balanced Capacity s ∧ s.queue = []
  | .recvResume => HandOver s
  | .resuming _ w =>
    (s.co w = .recvWoken ∧ HandOver s) ∨ (s.co w = .sendWoken ∧ Balanced Capacity s)
  | _ => Balanced Capacity s

/-- On a thread's stack: started, not ended and not suspended. -/
def Active : Co κ α → Prop
  | .unstarted | .sendParked | .sendWoken | .recvParked | .recvWoken | .done => False
  | _ => True

/-- The stack of the thread: whoever is below the top runs its own code, and only
the top may be inside an operation. -/
structure Serial (Capacity : Nat) (s : State Unit κ α) : Prop where
  /-- Who is on the stack has not suspended and has not ended. -/
  active : ∀ k ∈ s.stack (), Active (s.co k)
  /-- Below the top everybody waits for a `resume` to return. -/
  below : ∀ k ∈ (s.stack ()).tail, (s.co k).isRunning = true
  /-- Who is inside an operation is on top. -/
  top : ∀ k, Active (s.co k) → (s.co k).isRunning = false → (s.stack ()).head? = some k
  nodup : (s.stack ()).Nodup
  /-- What the top may be doing, for the numbers of values and waiters. -/
  mode : ∀ k rest, s.stack () = k :: rest → ModeOk Capacity s (s.co k)
  /-- While nothing runs nobody is parked in vain. -/
  idle : s.stack () = [] → Balanced Capacity s

section

omit [DecidableEq κ]

theorem serial_init : Serial Capacity (init Unit κ α) where
  active := by simp [init]
  below := by simp [init]
  top := fun _ hActive => hActive.elim
  nodup := List.nodup_nil
  mode := by simp [init]
  idle := fun _ => ⟨fun h => absurd rfl h, fun h => absurd rfl h⟩

theorem isRunning_of {c : Co κ α} {r : Option α} (h : c = .running r) : c.isRunning = true := by
  rw [h]
  rfl

/-- A running coroutine is active. -/
theorem active_of_isRunning {c : Co κ α} (h : c.isRunning = true) : Active c := by
  cases c <;> trivial

/-- A balanced channel is what a coroutine that runs its own code needs. -/
theorem ModeOk.of_isRunning {c : Co κ α} (h : Balanced Capacity s) (hRun : c.isRunning = true) :
    ModeOk Capacity s c := by
  cases c <;> first | exact h | exact absurd hRun Bool.false_ne_true

end

-- ---------------------------------------------------------------------------
-- The stack
-- ---------------------------------------------------------------------------

omit [DecidableEq κ] in
/-- Those below the top of the stack are inside a `resume` that they called while running. -/
theorem Serial.rest_running (h : Serial Capacity s) (hStack : s.stack () = k :: rest) :
    ∀ j ∈ rest, (s.co j).isRunning = true := by
  intro j hj
  exact h.below j (by rw [hStack]; exact hj)

omit [DecidableEq κ] in
/-- No coroutine is on the stack twice. -/
theorem Serial.top_not_mem (h : Serial Capacity s) (hStack : s.stack () = k :: rest) :
    k ∉ rest := by
  have hNodup := h.nodup
  rw [hStack, List.nodup_cons] at hNodup
  exact hNodup.1

/-- The coroutine on top makes a step and stays there. -/
theorem Serial.stay (h : Serial Capacity s) (hStack : s.stack () = k :: rest) {c : Co κ α}
    (hStack' : s'.stack = s.stack) (hTop : s'.co k = c)
    (hOthers : ∀ j, j ≠ k → s'.co j = s.co j ∨ (¬ Active (s.co j) ∧ ¬ Active (s'.co j)))
    (hActive : Active c) (hMode : ModeOk Capacity s' c) : Serial Capacity s' := by
  -- a coroutine below the top is active, so it is not one that was woken
  have hRest : ∀ j ∈ rest, s'.co j = s.co j := by
    intro j hj
    have hne : j ≠ k := ne_of_mem_of_not_mem hj (h.top_not_mem hStack)
    rcases hOthers j hne with hSame | ⟨hNot, -⟩
    · exact hSame
    · exact absurd (active_of_isRunning (h.rest_running hStack j hj)) hNot
  have hRunning : ∀ j ∈ rest, (s'.co j).isRunning = true := by
    intro j hj
    rw [hRest j hj]
    exact h.rest_running hStack j hj
  refine ⟨?_, ?_, ?_, ?_, ?_, ?_⟩ <;> rw [hStack', hStack]
  · intro j hj
    rcases List.mem_cons.mp hj with rfl | hj
    · rwa [hTop]
    · exact active_of_isRunning (hRunning j hj)
  · exact hRunning
  · intro j hj hNotRunning
    by_cases hjk : j = k
    · rw [hjk, List.head?_cons]
    rcases hOthers j hjk with hSame | ⟨-, hNot⟩
    · rw [hSame] at hj hNotRunning
      rw [← hStack]
      exact h.top j hj hNotRunning
    · exact absurd hj hNot
  · rw [← hStack]
    exact h.nodup
  · intro j rest' hEq
    obtain ⟨rfl, -⟩ := List.cons.inj hEq
    rwa [hTop]
  · exact fun hEq => absurd hEq (List.cons_ne_nil k rest)

/-- A step of the coroutine on top leaves the ones below it where they are. -/
theorem Serial.rest_keeps (h : Serial Capacity s) (hStack : s.stack () = k :: rest) {c : Co κ α}
    (hCo : s'.co = Function.update s.co k c) : ∀ j ∈ rest, (s'.co j).isRunning = true := by
  intro j hj
  rcases update_cases hCo j with ⟨rfl, -⟩ | ⟨-, hSame⟩
  · exact absurd hj (h.top_not_mem hStack)
  · rw [hSame]
    exact h.rest_running hStack j hj

/-- The coroutine on top suspends or ends, and the one below goes on. -/
theorem Serial.leave (h : Serial Capacity s) (hStack : s.stack () = k :: rest) {c : Co κ α}
    (hStack' : s'.stack = Function.update s.stack () rest) (hCo : s'.co = Function.update s.co k c)
    (hNot : ¬ Active c) (hBalanced : Balanced Capacity s') : Serial Capacity s' := by
  have hRunning := h.rest_keeps hStack hCo
  refine ⟨?_, ?_, ?_, ?_, ?_, fun _ => hBalanced⟩ <;> rw [hStack', Function.update_self]
  · intro j hj
    exact active_of_isRunning (hRunning j hj)
  · intro j hj
    exact hRunning j (List.mem_of_mem_tail hj)
  · intro j hj hNotRunning
    rcases update_cases hCo j with ⟨-, hAt⟩ | ⟨hjk, hAt⟩ <;> rw [hAt] at hj
    · exact absurd hj hNot
    · -- nobody but the top was inside an operation
      rw [hAt] at hNotRunning
      have hHead := h.top j hj hNotRunning
      rw [hStack] at hHead
      exact absurd (Option.some.inj hHead).symm hjk
  · have hNodup := h.nodup
    rw [hStack] at hNodup
    exact hNodup.of_cons
  · intro j rest' hEq
    have hRun := hRunning j (by rw [hEq]; exact List.mem_cons_self)
    exact ModeOk.of_isRunning hBalanced hRun

/-- A coroutine that was not on the stack goes on top of one that runs. -/
theorem Serial.enter (h : Serial Capacity s) {w : κ} {c : Co κ α}
    (hStack' : s'.stack = Function.update s.stack () (w :: s.stack ())) (hNew : ¬ Active (s.co w))
    (hBelow : ∀ j ∈ s.stack (), (s'.co j).isRunning = true) (hTop : s'.co w = c)
    (hOthers : ∀ j, j ≠ w → j ∉ s.stack () → s'.co j = s.co j) (hActive : Active c)
    (hMode : ModeOk Capacity s' c) : Serial Capacity s' := by
  refine ⟨?_, ?_, ?_, ?_, ?_, ?_⟩ <;> rw [hStack', Function.update_self]
  · intro j hj
    rcases List.mem_cons.mp hj with rfl | hj
    · rwa [hTop]
    · exact active_of_isRunning (hBelow j hj)
  · exact hBelow
  · intro j hj hNotRunning
    by_cases hjw : j = w
    · rw [hjw, List.head?_cons]
    by_cases hMem : j ∈ s.stack ()
    · exact absurd (hBelow j hMem) (Bool.eq_false_iff.mp hNotRunning)
    · rw [hOthers j hjw hMem] at hj hNotRunning
      have hHead := h.top j hj hNotRunning
      exact absurd (List.mem_of_mem_head? hHead) hMem
  · refine List.nodup_cons.mpr ⟨?_, h.nodup⟩
    intro hMem
    exact hNew (h.active w hMem)
  · intro j rest' hEq
    obtain ⟨rfl, -⟩ := List.cons.inj hEq
    rwa [hTop]
  · exact fun hEq => absurd hEq (List.cons_ne_nil w (s.stack ()))

-- ---------------------------------------------------------------------------
-- One step
-- ---------------------------------------------------------------------------

section

omit [DecidableEq κ]

/-- What is known of the top coroutine at its program point. -/
theorem Serial.mode_top (h : Serial Capacity s) (hStack : s.stack () = k :: rest) {c : Co κ α}
    (hCo : s.co k = c) : ModeOk Capacity s c := by
  rw [← hCo]
  exact h.mode k rest hStack

/-- The channel is balanced when a coroutine that runs its own code is on top, or
none is. -/
theorem Serial.balanced (h : Serial Capacity s)
    (hTop : s.stack () = [] ∨ ∃ j rest r, s.stack () = j :: rest ∧ s.co j = .running r) :
    Balanced Capacity s := by
  rcases hTop with hEmpty | ⟨j, rest, r, hStack, hCo⟩
  · exact h.idle hEmpty
  · exact h.mode_top hStack hCo

/-- Between two operations everybody on the stack is running. -/
theorem Serial.stack_running (h : Serial Capacity s)
    (hTop : s.stack () = [] ∨ ∃ j rest r, s.stack () = j :: rest ∧ s.co j = .running r) :
    ∀ j ∈ s.stack (), (s.co j).isRunning = true := by
  intro j hj
  rcases hTop with hEmpty | ⟨i, rest, r, hStack, hCo⟩
  · rw [hEmpty] at hj
    exact absurd hj List.not_mem_nil
  · rw [hStack] at hj
    rcases List.mem_cons.mp hj with rfl | hj
    · exact isRunning_of hCo
    · exact h.rest_running hStack j hj

end

/-- The coroutine on top makes a step of its own. -/
theorem Serial.move (h : Serial Capacity s) (hStack : s.stack () = k :: rest) {c : Co κ α}
    (hStack' : s'.stack = s.stack) (hCo : s'.co = Function.update s.co k c) (hActive : Active c)
    (hMode : ModeOk Capacity s' c) : Serial Capacity s' := by
  refine h.stay hStack hStack' ?_ ?_ hActive hMode
  · rw [hCo, Function.update_self]
  · intro j hj
    exact Or.inl (by rw [hCo, Function.update_of_ne hj])

/-- The coroutine on top takes another one out of a waiter queue. -/
theorem Serial.wake (h : Serial Capacity s) (hStack : s.stack () = k :: rest) (role : Role) {w : κ}
    {r : Option α} (hParked : s.co w = role.parked) (hStack' : s'.stack = s.stack)
    (hCo : s'.co = Function.update (Function.update s.co w role.woken) k (.resuming r w))
    (hMode : ModeOk Capacity s' (.resuming r w)) : Serial Capacity s' := by
  refine h.stay (c := .resuming r w) hStack hStack' ?_ ?_ trivial hMode
  · rw [hCo, Function.update_self]
  · intro j hj
    rcases update_two_cases hCo j with ⟨hjk, -⟩ | ⟨-, hjw, hAt⟩ | ⟨-, -, hSame⟩
    · exact absurd hjk hj
    · -- the woken coroutine was suspended and still is
      refine Or.inr ?_
      rw [hAt, hjw, hParked]
      cases role <;> exact ⟨id, id⟩
    · exact Or.inl hSame

/-- The coroutine on top resumes the one that it woke. -/
theorem Serial.resume (h : Serial Capacity s) (hStack : s.stack () = k :: rest) (role : Role)
    {w : κ} {r : Option α} {c : Co κ α} (hk : s.co k = .resuming r w) (hw : s.co w = role.woken)
    (hStack' : s'.stack = Function.update s.stack () (w :: k :: rest))
    (hCo : s'.co = Function.update (Function.update s.co w c) k (.running r))
    (hActive : Active c) (hMode : ModeOk Capacity s' c) : Serial Capacity s' := by
  have hwk : w ≠ k := by
    rintro rfl
    rw [hw] at hk
    exact role.woken_ne_resuming r w hk
  have hNew : ¬ Active (s.co w) := by
    rw [hw]
    cases role <;> exact id
  refine h.enter (by rw [hStack', hStack]) hNew ?_ ?_ ?_ hActive hMode
  · intro j hj
    rcases update_two_cases hCo j with ⟨-, hAt⟩ | ⟨-, rfl, -⟩ | ⟨hjk, -, hSame⟩
    · exact isRunning_of hAt
    · exact absurd (h.active j hj) hNew
    · rw [hStack] at hj
      rw [hSame]
      exact h.rest_running hStack j ((List.mem_cons.mp hj).resolve_left hjk)
  · rw [hCo, Function.update_of_ne hwk, Function.update_self]
  · intro j hjw hj
    rcases update_two_cases hCo j with ⟨rfl, -⟩ | ⟨-, hw', -⟩ | ⟨-, -, hSame⟩
    · exact absurd (by rw [hStack]; exact List.mem_cons_self) hj
    · exact absurd hw' hjw
    · exact hSame

section

omit [DecidableEq κ]

/-- The balance is about the three queues only. -/
theorem Balanced.of_eq (h : Balanced Capacity s) (hQueue : s'.queue = s.queue)
    (hSend : s'.sendWaiters = s.sendWaiters) (hRecv : s'.recvWaiters = s.recvWaiters) :
    Balanced Capacity s' := by
  refine ⟨?_, ?_⟩
  · rw [hQueue, hSend, hRecv]
    exact h.receivers
  · rw [hQueue, hSend]
    exact h.senders

/-- With room in the buffer no sender is parked, -/
theorem Balanced.no_senders (h : Balanced Capacity s) (hRoom : s.queue.length < Capacity) :
    s.sendWaiters = [] := by
  by_contra hSome
  have hFull := h.senders hSome
  omega

/-- and with a value in it no receiver. -/
theorem Balanced.no_receivers (h : Balanced Capacity s) (hSome : 0 < s.queue.length) :
    s.recvWaiters = [] := by
  by_contra hWait
  rw [(h.receivers hWait).1] at hSome
  exact Nat.lt_irrefl 0 hSome

theorem HandOver.of_eq (h : HandOver s) (hQueue : s'.queue = s.queue)
    (hSend : s'.sendWaiters = s.sendWaiters) : HandOver s' :=
  ⟨by rw [hQueue]; exact h.one, by rw [hSend]; exact h.nobody⟩

/-- A value leaves `m_queue`, and no sender is parked. Before `await_resume` it was
the only value. -/
theorem Serial.take (h : Serial Capacity s) (hStack : s.stack () = k :: rest) (hCo : Takes (s.co k))
    {x : κ × α} {q : List (κ × α)} (hQueue : s.queue = x :: q) (hSend : s.sendWaiters = [])
    (hQueue' : s'.queue = q) (hSend' : s'.sendWaiters = s.sendWaiters)
    (hRecv' : s'.recvWaiters = s.recvWaiters) : Balanced Capacity s' := by
  refine ⟨?_, ?_⟩
  · rw [hRecv', hQueue', hSend', hSend]
    intro hWait
    refine ⟨?_, rfl⟩
    cases hAt : s.co k with
    | recvReady =>
      have hBalanced : Balanced Capacity s := h.mode_top hStack hAt
      exact absurd (hBalanced.no_receivers (by rw [hQueue]; exact Nat.succ_pos _)) hWait
    | recvResume =>
      have hOne := (h.mode_top hStack hAt).one
      rw [hQueue, List.length_cons] at hOne
      exact List.length_eq_zero_iff.mp (Nat.succ.inj hOne)
    | _ =>
      rw [hAt] at hCo
      exact hCo.elim
  · rw [hSend', hSend]
    exact fun hSome => absurd rfl hSome

/-- A value leaves `m_queue`, and the value of the first parked sender comes in.
This happens in `await_ready` only: no sender is parked in a hand-over. -/
theorem Serial.take_wake (h : Serial Capacity s) (hStack : s.stack () = k :: rest)
    (hCo : Takes (s.co k)) {x y : κ × α} {q ws : List (κ × α)} (hQueue : s.queue = x :: q)
    (hSend : s.sendWaiters = y :: ws) (hQueue' : s'.queue = q ++ [y])
    (hRecv' : s'.recvWaiters = s.recvWaiters) : Balanced Capacity s' := by
  have hBalanced : Balanced Capacity s := by
    cases hAt : s.co k with
    | recvReady => exact h.mode_top hStack hAt
    | recvResume =>
      have hNobody := (h.mode_top hStack hAt).nobody
      rw [hSend] at hNobody
      cases hNobody
    | _ =>
      rw [hAt] at hCo
      exact hCo.elim
  refine ⟨?_, ?_⟩
  · rw [hRecv', hBalanced.no_receivers (by rw [hQueue]; exact Nat.succ_pos _)]
    exact fun hSome => absurd rfl hSome
  · intro _
    rw [← hBalanced.senders (by rw [hSend]; exact List.cons_ne_nil y ws), hQueue', hQueue]
    simp

/-- `await_resume` runs in a hand-over only. -/
theorem Serial.front (h : Serial Capacity s) (hCo : s.co k = .recvResume) : s.queue ≠ [] := by
  have hHead := h.top k (by rw [hCo]; trivial) (by rw [hCo]; rfl)
  obtain ⟨rest, hStack⟩ := List.head?_eq_some_iff.mp hHead
  have hOne := (h.mode_top hStack hCo).one
  exact List.ne_nil_of_length_pos (by omega)

end

/-- Each step keeps the balance, as no other thread comes between the two halves of an
operation. -/
theorem serial_step (hCap : 1 ≤ Capacity) (hWaiters : Waiters s)
    (hBound : s.queue.length ≤ Capacity) (h : Serial Capacity s)
    (hst : step Capacity s a = some s') :
    Serial Capacity s' := by
  cases (step_effect hst).1 with
  | @start t k hNew hTop =>
    have hRunning := h.stack_running hTop
    have hBalanced := h.balanced hTop
    have hNot : ¬ Active (s.co k) := by
      rw [hNew]
      exact id
    have hKeep : ∀ j, j ≠ k → Function.update s.co k (.running none) j = s.co j :=
      fun j hj => Function.update_of_ne hj ..
    refine h.enter (w := k) (c := .running none) rfl hNot ?_ (Function.update_self ..)
      (fun j hj _ => hKeep j hj) trivial (hBalanced.of_eq rfl rfl rfl)
    intro j hj
    have hne : j ≠ k := by
      rintro rfl
      exact hNot (h.active j hj)
    show (Function.update s.co k (.running none) j).isRunning = true
    rw [hKeep j hne]
    exact hRunning j hj
  | @send t k rest r value hStack hCo =>
    exact h.move hStack rfl rfl trivial ((h.mode_top hStack hCo).of_eq rfl rfl rfl)
  | @receive t k rest r hStack hCo =>
    exact h.move hStack rfl rfl trivial ((h.mode_top hStack hCo).of_eq rfl rfl rfl)
  | @finish t k rest r hStack hCo =>
    exact h.leave hStack rfl rfl id ((h.mode_top hStack hCo).of_eq rfl rfl rfl)
  | @push t k rest value hStack hCo hRoom hRecv =>
    have hBalanced : Balanced Capacity s := h.mode_top hStack hCo
    -- beside a free place no sender is parked
    have hSend := hBalanced.no_senders hRoom
    exact h.move hStack rfl rfl trivial ⟨fun hSome => absurd hRecv hSome,
      fun hSome => absurd hSend hSome⟩
  | @pushWake t k rest value w ws hStack hCo hRoom hRecv =>
    have hBalanced : Balanced Capacity s := h.mode_top hStack hCo
    obtain ⟨hQueue, hSend⟩ := hBalanced.receivers (by rw [hRecv]; exact List.cons_ne_nil w ws)
    have hParked := hWaiters.front_receiver hRecv
    have hne : w ≠ k := ne_of_apply_ne s.co (by simp [hCo, hParked])
    -- the buffer was empty, so the value pushed is the one that goes over
    refine h.wake hStack .receiver hParked rfl rfl (Or.inl ⟨?_, ?_, hSend⟩)
    · exact (Function.update_of_ne hne ..).trans (Function.update_self ..)
    · show (s.queue ++ [(k, value)]).length = 1
      rw [hQueue]
      rfl
  | @full t k rest value hStack hCo hFull =>
    have hBalanced : Balanced Capacity s := h.mode_top hStack hCo
    exact h.move hStack rfl rfl trivial ⟨hBalanced.of_eq rfl rfl rfl, Nat.le_antisymm hBound hFull⟩
  | @parkSender t k rest value hStack hCo =>
    obtain ⟨hBalanced, hFull⟩ := h.mode_top hStack hCo
    -- the buffer has been full since `await_ready`: on one thread nothing came between
    have hRecv := hBalanced.no_receivers (by omega)
    exact h.leave hStack rfl rfl id ⟨fun hSome => absurd hRecv hSome,
      fun _ => hFull⟩
  | @take t k rest x q hStack hCo hQueue hSend =>
    exact h.move hStack rfl rfl trivial (h.take hStack hCo hQueue hSend rfl rfl rfl)
  | @takeWake t k rest x q w value ws hStack hCo hQueue hSend =>
    have hParked := hWaiters.front_sender hSend
    have hne : w ≠ k := by
      rintro rfl
      rw [hParked] at hCo
      exact hCo
    refine h.wake hStack .sender hParked rfl rfl (Or.inr ⟨?_, ?_⟩)
    · exact (Function.update_of_ne hne ..).trans (Function.update_self ..)
    · exact h.take_wake hStack hCo hQueue hSend rfl rfl
  | @empty t k rest hStack hCo hQueue =>
    have hBalanced : Balanced Capacity s := h.mode_top hStack hCo
    exact h.move hStack rfl rfl trivial ⟨hBalanced.of_eq rfl rfl rfl, hQueue⟩
  | @parkReceiver t k rest hStack hCo =>
    obtain ⟨hBalanced, hQueue⟩ := h.mode_top hStack hCo
    -- an empty buffer is not a full one, as the capacity is positive
    have hSend := hBalanced.no_senders (by rw [hQueue]; exact hCap)
    exact h.leave hStack rfl rfl id ⟨fun _ => ⟨hQueue, hSend⟩,
      fun hSome => absurd hSend hSome⟩
  | @resumeSender t k rest r w hStack hCo hW =>
    -- a woken sender has been served already
    rcases h.mode_top hStack hCo with ⟨hOther, -⟩ | ⟨-, hBalanced⟩
    · rw [hW] at hOther
      cases hOther
    · exact h.resume hStack .sender hCo hW rfl rfl trivial
        (hBalanced.of_eq rfl rfl rfl)
  | @resumeReceiver t k rest r w hStack hCo hW =>
    -- a woken receiver still has to take its value
    rcases h.mode_top hStack hCo with ⟨-, hHand⟩ | ⟨hOther, -⟩
    · exact h.resume hStack .receiver hCo hW rfl rfl trivial
        (hHand.of_eq rfl rfl)
    · rw [hW] at hOther
      cases hOther
  -- the two faults do not happen
  | @frontEmpty t k rest hStack hCo hQueue => exact absurd hQueue (h.front hCo)
  | @resumeActive t k rest r w hStack hCo hSend hRecv =>
    exact absurd (hWaiters.resumable hCo hSend) hRecv

/-- In every state of a channel on one thread. -/
theorem serial (hCap : 1 ≤ Capacity) (h : (system Unit κ α Capacity).Reachable s) :
    Serial Capacity s :=
  h.invariant (I := Serial Capacity) serial_init fun _ _ _ hReach hI _ hst =>
    serial_step hCap (waiters hReach) (conserved hReach).bound hI hst

end EmbLinux.Channel
