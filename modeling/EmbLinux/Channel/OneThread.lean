import EmbLinux.Lib.Fifo
import EmbLinux.Channel.Serial

/-!
# EmbLinux — the contract of the channel on one thread

`simulates_fifo`: the buffer, the parked senders and the awaiter of a send in
progress are one first-in first-out queue, whichever of its routes a value
takes. `serial_contract` collects what the channel promises to the coroutines of
one thread.

What one thread excludes is that a region of one coroutine falls between two regions of another
one which the source runs without a suspension. `Serial` says so: the stack of coroutines, whose
top is the only one that moves.
-/

namespace EmbLinux.Channel

variable {κ α : Type*} [DecidableEq κ] {Capacity : Nat}
  {s s' : State Unit κ α} {a : Action Unit κ α} {k : κ} {rest : List κ}

-- ---------------------------------------------------------------------------
-- Order: the channel refines a queue
-- ---------------------------------------------------------------------------

/-- The value that the coroutine on top is sending, in the awaiter. -/
def State.inAwaiter (s : State Unit κ α) : List (κ × α) :=
  match s.stack () with
  | [] => []
  | k :: _ => ((pending (s.co k)).map fun value => (k, value)).toList

section

omit [DecidableEq κ]

/-- The value in an awaiter is that of the running coroutine, -/
theorem inAwaiter_cons (hStack : s.stack () = k :: rest) :
    s.inAwaiter = ((pending (s.co k)).map fun value => (k, value)).toList := by
  rw [State.inAwaiter, hStack]

/-- if it is sending, -/
theorem inAwaiter_some (hStack : s.stack () = k :: rest) {value : α}
    (hSome : pending (s.co k) = some value) : s.inAwaiter = [(k, value)] := by
  rw [inAwaiter_cons hStack, hSome]
  rfl

/-- and none otherwise. -/
theorem inAwaiter_none (hStack : s.stack () = k :: rest) (hNone : pending (s.co k) = none) :
    s.inAwaiter = [] := by
  rw [inAwaiter_cons hStack, hNone]
  rfl

/-- Nothing is in an awaiter while coroutines run their own code. -/
theorem inAwaiter_running (h : ∀ j ∈ s.stack (), (s.co j).isRunning = true) :
    s.inAwaiter = [] := by
  cases hStack : s.stack () with
  | nil => rw [State.inAwaiter, hStack]
  | cons k rest =>
    have hRun := h k (by rw [hStack]; exact List.mem_cons_self)
    refine inAwaiter_none hStack ?_
    cases hAt : s.co k <;> rw [hAt] at hRun <;> first | rfl | cases hRun

end

/-- The queue that the channel stands for: the buffer, then the parked senders,
then the awaiter. -/
structure Represents (s : State Unit κ α) (q : Fifo (κ × α)) : Prop where
  items : q.items = s.queue ++ s.sendWaiters ++ s.inAwaiter
  pushed : q.pushed = s.sent
  popped : q.popped = s.delivered.map Prod.snd

/-- What the abstract queue does in a step of the channel. -/
def Matched (q : Fifo (κ × α)) (s' : State Unit κ α) : Prop :=
  ∃ ops q', (Fifo.system (κ × α) fun _ => true).exec q ops = some q' ∧ Represents s' q'

variable {q : Fifo (κ × α)}

section

omit [DecidableEq κ]

/-- The abstract queue rests. -/
theorem Represents.idle (hR : Represents s q) (hSent : s'.sent = s.sent)
    (hDelivered : s'.delivered = s.delivered)
    (hItems : s'.queue ++ s'.sendWaiters ++ s'.inAwaiter =
      s.queue ++ s.sendWaiters ++ s.inAwaiter) :
    Matched q s' :=
  ⟨[], q, rfl, by rw [hItems]; exact hR.items, by rw [hSent]; exact hR.pushed,
    by rw [hDelivered]; exact hR.popped⟩

/-- No value moves, and the coroutine on top stays there. -/
theorem Represents.stay (hR : Represents s q) (hStack : s.stack () = k :: rest)
    (hStack' : s'.stack = s.stack) (hSent : s'.sent = s.sent)
    (hDelivered : s'.delivered = s.delivered) (hQueue : s'.queue = s.queue)
    (hSend : s'.sendWaiters = s.sendWaiters) (hPending : pending (s'.co k) = pending (s.co k)) :
    Matched q s' := by
  refine hR.idle hSent hDelivered ?_
  have hAwaiter : s'.inAwaiter = s.inAwaiter := by
    rw [inAwaiter_cons hStack, ← hPending]
    exact inAwaiter_cons (by rw [hStack', hStack])
  rw [hQueue, hSend, hAwaiter]

/-- No value moves, and no coroutine is sending one. -/
theorem Represents.still (hR : Represents s q) (hSent : s'.sent = s.sent)
    (hDelivered : s'.delivered = s.delivered) (hQueue : s'.queue = s.queue)
    (hSend : s'.sendWaiters = s.sendWaiters) (hBefore : s.inAwaiter = [])
    (hAfter : s'.inAwaiter = []) : Matched q s' :=
  hR.idle hSent hDelivered (by rw [hQueue, hSend, hAfter, hBefore])

/-- A `co_await send` begins. -/
theorem Represents.send (hR : Represents s q) (hStack : s.stack () = k :: rest) {value : α}
    (hBefore : pending (s.co k) = none) (hStack' : s'.stack = s.stack)
    (hAfter : pending (s'.co k) = some value) (hQueue : s'.queue = s.queue)
    (hSend : s'.sendWaiters = s.sendWaiters) (hSent : s'.sent = s.sent ++ [(k, value)])
    (hDelivered : s'.delivered = s.delivered) : Matched q s' := by
  have hAfter := inAwaiter_some (s := s') (by rw [hStack', hStack]) hAfter
  refine ⟨[.push (k, value)], _, Fifo.exec_push rfl, ?_, ?_, ?_⟩
  · rw [hQueue, hSend, hAfter, hR.items, inAwaiter_none hStack hBefore, List.append_nil]
  · rw [hSent, hR.pushed]
  · rw [hDelivered]
    exact hR.popped

/-- The value goes from the awaiter to the end of the buffer, past no parked
sender. -/
theorem Represents.push (hR : Represents s q) (hStack : s.stack () = k :: rest) {value : α}
    (hBefore : pending (s.co k) = some value) (hNobody : s.sendWaiters = [])
    (hStack' : s'.stack = s.stack) (hAfter : pending (s'.co k) = none)
    (hQueue : s'.queue = s.queue ++ [(k, value)]) (hSend : s'.sendWaiters = s.sendWaiters)
    (hSent : s'.sent = s.sent) (hDelivered : s'.delivered = s.delivered) : Matched q s' := by
  have hAfter := inAwaiter_none (s := s') (by rw [hStack', hStack]) hAfter
  refine hR.idle hSent hDelivered ?_
  rw [hQueue, hSend, hNobody, inAwaiter_some hStack hBefore, hAfter]
  simp

/-- A value is delivered: the abstract queue pops. -/
theorem Represents.pop (hR : Represents s q) (hStack : s.stack () = k :: rest)
    (hCo : Takes (s.co k)) {x : κ × α} {l : List (κ × α)} (hQueue : s.queue = x :: l)
    (hStack' : s'.stack = s.stack) (hAfter : pending (s'.co k) = none)
    (hItems : s'.queue ++ s'.sendWaiters = l ++ s.sendWaiters) (hSent : s'.sent = s.sent)
    (hDelivered : s'.delivered = s.delivered ++ [(k, x)]) : Matched q s' := by
  have hBefore := inAwaiter_none hStack (pending_of_takes hCo)
  have hAfter := inAwaiter_none (s := s') (by rw [hStack', hStack]) hAfter
  have hFront : q.items = x :: (l ++ s.sendWaiters) := by
    rw [hR.items, hBefore, hQueue, List.append_nil, List.cons_append]
  refine ⟨[.pop], _, Fifo.exec_pop hFront, ?_, ?_, ?_⟩
  · rw [hAfter, List.append_nil, hItems]
  · rw [hSent]
    exact hR.pushed
  · rw [hDelivered, List.map_append, hR.popped]
    rfl

end

/-- The coroutine on top resumes the one that it woke. -/
theorem Represents.resume (hR : Represents s q) (hStack : s.stack () = k :: rest) {r : Option α}
    {w : κ} {c c' : Co κ α} (hCo : s.co k = .resuming r w) (hne : w ≠ k)
    (hStack' : s'.stack = Function.update s.stack () (w :: k :: rest))
    (hCo' : s'.co = Function.update (Function.update s.co w c) k c') (hNone : pending c = none)
    (hSent : s'.sent = s.sent) (hDelivered : s'.delivered = s.delivered)
    (hQueue : s'.queue = s.queue) (hSend : s'.sendWaiters = s.sendWaiters) : Matched q s' := by
  refine hR.still hSent hDelivered hQueue hSend (inAwaiter_none hStack (by rw [hCo]; rfl)) ?_
  have hEntered : s'.stack () = w :: k :: rest := by rw [hStack', Function.update_self]
  refine inAwaiter_none hEntered ?_
  rw [hCo', Function.update_of_ne hne, Function.update_self, hNone]

/-- The coroutine on top suspends or ends. -/
theorem Serial.inAwaiter_leave (h : Serial Capacity s) (hStack : s.stack () = k :: rest)
    (hStack' : s'.stack = Function.update s.stack () rest) {c : Co κ α}
    (hCo : s'.co = Function.update s.co k c) : s'.inAwaiter = [] := by
  refine inAwaiter_running ?_
  rw [hStack', Function.update_self]
  exact h.rest_keeps hStack hCo

/-- Each step does what the FIFO queue of the sent values does, or nothing. -/
theorem matched_step (h : Serial Capacity s) (hR : Represents s q)
    (hst : step Capacity s a = some s') : Matched q s' := by
  have hSelf : ∀ (co : κ → Co κ α) k (c : Co κ α), pending (Function.update co k c k) = pending c :=
    fun co k c => congrArg pending (Function.update_self k c co)
  cases (step_effect hst).1 with
  | @start t k hNew hTop =>
    -- a new coroutine starts on top of one that sends nothing
    have hStack' : Function.update s.stack () (k :: s.stack ()) () = k :: s.stack () :=
      Function.update_self ..
    exact hR.still rfl rfl rfl rfl (inAwaiter_running (h.stack_running hTop))
      (inAwaiter_none hStack' (hSelf s.co k _))
  | @send t k rest r value hStack hCo =>
    exact hR.send hStack (by rw [hCo]; rfl) rfl (hSelf s.co k _) rfl rfl rfl rfl
  | @receive t k rest r hStack hCo =>
    exact hR.stay hStack rfl rfl rfl rfl rfl (by rw [hCo]; exact hSelf s.co k _)
  | @finish t k rest r hStack hCo =>
    exact hR.still rfl rfl rfl rfl (inAwaiter_none hStack (by rw [hCo]; rfl))
      (h.inAwaiter_leave hStack rfl rfl)
  | @push t k rest value hStack hCo hRoom hRecv =>
    have hBalanced : Balanced Capacity s := h.mode_top hStack hCo
    exact hR.push hStack (by rw [hCo]; rfl) (hBalanced.no_senders hRoom) rfl (hSelf s.co k _)
      rfl rfl rfl rfl
  | @pushWake t k rest value w ws hStack hCo hRoom hRecv =>
    have hBalanced : Balanced Capacity s := h.mode_top hStack hCo
    exact hR.push hStack (by rw [hCo]; rfl) (hBalanced.no_senders hRoom) rfl (hSelf _ k _)
      rfl rfl rfl rfl
  | @full t k rest value hStack hCo hFull =>
    exact hR.stay hStack rfl rfl rfl rfl rfl (by rw [hCo]; exact hSelf s.co k _)
  | @parkSender t k rest value hStack hCo =>
    have hBefore : s.inAwaiter = [(k, value)] := inAwaiter_some hStack (by rw [hCo]; rfl)
    -- the value goes from the awaiter to the end of the parked senders
    refine hR.idle rfl rfl ?_
    rw [hBefore, h.inAwaiter_leave hStack rfl rfl, List.append_nil]
    exact (List.append_assoc ..).symm
  | @take t k rest x l hStack hCo hQueue hSend =>
    exact hR.pop hStack hCo hQueue rfl (hSelf s.co k _) rfl rfl rfl
  | @takeWake t k rest x l w value ws hStack hCo hQueue hSend =>
    -- the value of the first parked sender is the next one after the buffer
    refine hR.pop hStack hCo hQueue rfl (hSelf _ k _) ?_ rfl rfl
    show l ++ [(w, value)] ++ ws = l ++ s.sendWaiters
    rw [hSend, List.append_assoc, List.singleton_append]
  | @empty t k rest hStack hCo hQueue =>
    exact hR.stay hStack rfl rfl rfl rfl rfl (by rw [hCo]; exact hSelf s.co k _)
  | @parkReceiver t k rest hStack hCo =>
    exact hR.still rfl rfl rfl rfl (inAwaiter_none hStack (by rw [hCo]; rfl))
      (h.inAwaiter_leave hStack rfl rfl)
  | @resumeSender t k rest r w hStack hCo hW =>
    have hne : w ≠ k := ne_of_apply_ne s.co (by simp [hCo, hW])
    exact hR.resume hStack hCo hne rfl rfl rfl rfl rfl rfl rfl
  | @resumeReceiver t k rest r w hStack hCo hW =>
    have hne : w ≠ k := ne_of_apply_ne s.co (by simp [hCo, hW])
    exact hR.resume hStack hCo hne rfl rfl rfl rfl rfl rfl rfl
  | frontEmpty => exact hR.idle rfl rfl rfl
  | resumeActive => exact hR.idle rfl rfl rfl

/-- On one thread the channel is a first-in first-out queue. -/
theorem simulates_fifo (hCap : 1 ≤ Capacity) (h : (system Unit κ α Capacity).Reachable s) :
    ∃ q, (Fifo.system (κ × α) fun _ => true).Reachable q ∧ Represents s q := by
  -- the simulation runs along the reached states, which `Serial` describes
  have hStrong : (system Unit κ α Capacity).ReachableWhere (fun s _ => Serial Capacity s) s :=
    (h.strengthen (I := fun _ => True) trivial
      fun _ _ _ hReach _ _ _ => ⟨serial hCap hReach.reachable, trivial⟩).1
  refine hStrong.simulate (R := Represents) ⟨rfl, rfl, rfl⟩ ?_
  intro s a s' q _ hR hok hst
  exact matched_step hok hR hst

-- ---------------------------------------------------------------------------
-- The contract
-- ---------------------------------------------------------------------------

/-- No channel operation is in progress: coroutines run their own code, or none
runs. -/
def Quiet (s : State Unit κ α) : Prop :=
  s.stack () = [] ∨ ∃ k rest r, s.stack () = k :: rest ∧ s.co k = .running r

/-- The call that resumes `w` is the next step, and no other step comes first. -/
structure ResumedNext (Capacity : Nat) (s : State Unit κ α) (w : κ) : Prop where
  enabled : ∃ a s', step Capacity s a = some s'
  resumes : ∀ a s', step Capacity s a = some s' → s'.resumes w = s.resumes w + 1

/-- What the channel promises to the coroutines of one thread. -/
structure SerialContract (Capacity : Nat) (s : State Unit κ α) : Prop where
  /-- Values are dequeued in the order of the sends, each at most once; the others
  are in the buffer, with a parked sender, or in the awaiter of the send that the
  coroutine on top is executing. -/
  order : s.sent = s.delivered.map Prod.snd ++ s.queue ++ s.sendWaiters ++ s.inAwaiter
  /-- What was dequeued for a receiver is what its `receive` has returned, and what was
  sent is what was passed to `send`. -/
  answers : ∀ n, (observed Unit κ α Capacity).Reachable (s, n) → Answered s n
  /-- A value that is not dequeued waits in the buffer or with a parked sender. -/
  waiting : Quiet s → s.inAwaiter = []
  bound : s.queue.length ≤ Capacity
  /-- `await_resume` never pops an empty buffer. -/
  front : (∀ k, s.co k = .recvResume → s.queue ≠ []) ∧ s.fault = false
  /-- The waiter queues hold the parked coroutines, each once. -/
  parked : ∀ role, (s.waiting role).Nodup ∧ ∀ k, k ∈ s.waiting role ↔ s.co k = role.parked
  /-- A coroutine is resumed once for each time that it parked, except that the last
  resume is still due while it is suspended. -/
  counted : ∀ k, s.parks k = s.resumes k + (s.co k).suspended
  /-- A coroutine taken out of a waiter queue is resumed. -/
  resumed : ∀ role w, s.co w = Role.woken role → ResumedNext Capacity s w
  receivers : Quiet s → (∃ k, s.co k = .recvParked) → s.queue = [] ∧ ∀ k, s.co k ≠ .sendParked
  senders : Quiet s → (∃ k, s.co k = .sendParked) → s.queue.length = Capacity

/-- The waker of a woken coroutine is on top, and `resume` is what it does next. -/
theorem Serial.resumedNext (hWaiters : Waiters s) (hFault : s.fault = false)
    (h : Serial Capacity s) {role : Role} {w : κ} (hw : s.co w = role.woken) :
    ResumedNext Capacity s w := by
  obtain ⟨k, r, hCo⟩ := hWaiters.waker role w hw
  have hHead := h.top k (by rw [hCo]; trivial) (by rw [hCo]; rfl)
  obtain ⟨rest, hStack⟩ := List.head?_eq_some_iff.mp hHead
  have hRun : step Capacity s (.run ()) = some (s.resume () k r w) := by
    simp [step, hFault, hStack, run, hCo]
  refine ⟨⟨_, _, hRun⟩, ?_⟩
  intro a s' hst
  -- on top is a coroutine that is inside an operation: only `run` is enabled
  cases (step_effect hst).1 with
  | start hNew hTop =>
    rcases hTop with hEmpty | ⟨j, rest', r', hStack', hRunning⟩
    · rw [hEmpty] at hStack
      cases hStack
    · rw [hStack'] at hStack
      obtain ⟨rfl, -⟩ := List.cons.inj hStack
      rw [hCo] at hRunning
      cases hRunning
  | resumeSender hStack' hCo' hW | resumeReceiver hStack' hCo' hW =>
    obtain ⟨rfl, -⟩ := List.cons.inj (hStack.symm.trans hStack')
    obtain ⟨-, rfl⟩ := Co.resuming.inj (hCo.symm.trans hCo')
    exact Function.update_self ..
  | take hStack' hCo' | takeWake hStack' hCo' =>
    obtain ⟨rfl, -⟩ := List.cons.inj (hStack.symm.trans hStack')
    rw [hCo] at hCo'
    exact hCo'.elim
  | resumeActive hStack' hCo' hSend hRecv =>
    obtain ⟨rfl, -⟩ := List.cons.inj (hStack.symm.trans hStack')
    obtain ⟨-, rfl⟩ := Co.resuming.inj (hCo.symm.trans hCo')
    cases role with
    | sender => exact absurd hw hSend
    | receiver => exact absurd hw hRecv
  | _ hStack' hCo' =>
    obtain ⟨rfl, -⟩ := List.cons.inj (hStack.symm.trans hStack')
    rw [hCo] at hCo'
    cases hCo'

/-- On one thread no run faults. -/
theorem noFault (hCap : 1 ≤ Capacity) (h : (system Unit κ α Capacity).Reachable s) :
    s.fault = false := by
  refine h.invariant (I := fun s => s.fault = false) rfl ?_
  intro s a s' hReach hI _ hst
  cases (step_effect hst).1 with
  | frontEmpty hStack hCo hQueue => exact absurd hQueue ((serial hCap hReach).front hCo)
  | resumeActive hStack hCo hSend hRecv =>
    exact absurd ((waiters hReach).resumable hCo hSend) hRecv
  | _ => exact hI

/-- **The channel on one thread**, for every capacity of at least one, any coroutines, and any
programs of sends and receives, however the resumed coroutines nest. `hCap` excludes the channel
without a buffer, in which no `send` ever has room; destruction of a suspended coroutine is the
subject of the module on it. -/
theorem serial_contract (hCap : 1 ≤ Capacity) (h : (system Unit κ α Capacity).Reachable s) :
    SerialContract Capacity s := by
  have hW := waiters h
  have hS := serial hCap h
  have hFault := noFault hCap h
  obtain ⟨q, hq, hR⟩ := simulates_fifo hCap h
  refine ⟨?_, fun n => answered, ?_, (conserved h).bound, ⟨fun k hk => hS.front hk, hFault⟩, ?_,
    hW.counted, ?_, ?_, ?_⟩
  · have hOrder := Fifo.pushed_eq hq
    rw [hR.pushed, hR.popped, hR.items] at hOrder
    rw [hOrder, List.append_assoc, List.append_assoc, List.append_assoc]
  · intro hQuiet
    exact inAwaiter_running (hS.stack_running hQuiet)
  · exact fun role => ⟨hW.nodup role, hW.parked_iff role⟩
  · exact fun role w hw => hS.resumedNext hW hFault hw
  · rintro hQuiet ⟨k, hk⟩
    have hMem : k ∈ s.recvWaiters := (hW.parked_iff .receiver k).mpr hk
    obtain ⟨hNil, hSend⟩ := (hS.balanced hQuiet).receivers (List.ne_nil_of_mem hMem)
    refine ⟨hNil, ?_⟩
    intro j hj
    have hMem : j ∈ s.sendWaiters.map Prod.fst := (hW.parked_iff .sender j).mpr hj
    rw [hSend] at hMem
    cases hMem
  · rintro hQuiet ⟨k, hk⟩
    have hMem : k ∈ s.sendWaiters.map Prod.fst := (hW.parked_iff .sender k).mpr hk
    refine (hS.balanced hQuiet).senders ?_
    intro hNil
    rw [hNil] at hMem
    cases hMem

/-- Receiver 0 parks twice and is resumed inside sender 1, which fills the buffer
and parks; receiver 2 makes room for its value and resumes it. -/
theorem serial_contract_routes :
    ∃ s : State Unit (Fin 3) Nat, (system Unit (Fin 3) Nat 1).Reachable s ∧
      s.delivered = [(0, (1, 10)), (0, (1, 20)), (2, (1, 30))] ∧ s.queue = [(1, 40)] ∧
      s.stack () = [1, 2] ∧ SerialContract 1 s := by
  obtain ⟨s, hs, hp⟩ := System.exists_reachable_of_exec (S := system Unit (Fin 3) Nat 1)
    (p := fun s => s.delivered = [(0, (1, 10)), (0, (1, 20)), (2, (1, 30))] ∧
      s.queue = [(1, 40)] ∧ s.stack () = [1, 2])
    [.start () 0, .receive (), .run (), .run (), .start () 1, .send () 10, .run (), .run (),
      .run (), .receive (), .run (), .run (), .send () 20, .run (), .run (), .run (),
      .finish (), .send () 30, .run (), .send () 40, .run (), .run (), .start () 2,
      .receive (), .run (), .run ()] (by decide)
  exact ⟨s, hs, hp.1, hp.2.1, hp.2.2, serial_contract (Nat.le_refl 1) hs⟩

end EmbLinux.Channel
