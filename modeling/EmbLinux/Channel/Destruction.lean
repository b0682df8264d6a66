import EmbLinux.Channel.Waiters

/-!
# EmbLinux — parked coroutines that are destroyed

`~Task` and `Task::operator=` destroy a suspended coroutine wherever it is suspended. The
channel of one thread is modelled together with the coroutines that were destroyed while they
were parked in it; nothing takes their handles out of `m_send_waiters` and `m_recv_waiters`.

* `destroyed_left_alone` — a run is safe as long as each region that takes a waiter out finds
  one that still exists; any other step leads to `resume` on a destroyed coroutine, and to
  nothing else;
* `destroyed_receiver_resumed` — two parked receivers, the first one destroyed.
-/

namespace EmbLinux.Channel

variable {κ α : Type*} [DecidableEq κ] {Capacity : Nat} {s s' : State Unit κ α}
  {a : Action Unit κ α} {k w : κ}

-- ---------------------------------------------------------------------------
-- Waiters that a step takes out or resumes
-- ---------------------------------------------------------------------------

/-- The coroutine is in one of the two waiter queues. -/
def Co.isParked : Co κ α → Bool
  | .sendParked | .recvParked => true
  | _ => false

/-- The channel operation that goes on in the step, from where it stands. -/
def State.operation? (s : State Unit κ α) : Action Unit κ α → Option (Co κ α)
  | .run _ => (s.stack ()).head?.map s.co
  | _ => none

/-- The receiver that a `send` takes out of `m_recv_waiters`. -/
def State.wokenReceiver? (Capacity : Nat) (s : State Unit κ α) (a : Action Unit κ α) : Option κ :=
  match s.operation? a with
  | some (.sendReady _) => if s.queue.length < Capacity then s.recvWaiters.head? else none
  | _ => none

/-- The sender that a `receive` takes out of `m_send_waiters`. -/
def State.wokenSender? (s : State Unit κ α) (a : Action Unit κ α) : Option κ :=
  match s.operation? a with
  | some .recvReady | some .recvResume =>
    if s.queue.isEmpty then none else (s.sendWaiters.map Prod.fst).head?
  | _ => none

/-- The coroutine that `to_resume.resume()` is called on. -/
def State.resumed? (s : State Unit κ α) (a : Action Unit κ α) : Option κ :=
  match s.operation? a with
  | some (.resuming _ w) => some w
  | _ => none

section

omit [DecidableEq κ]

/-- A coroutine is resumed by the one that took it out of its queue. -/
theorem resuming_of_resumed (h : s.resumed? a = some w) :
    a = .run () ∧ ∃ k rest r, s.stack () = k :: rest ∧ s.co k = .resuming r w := by
  unfold State.resumed? at h
  split at h
  · next w' hOperation =>
    obtain rfl := Option.some.inj h
    cases a with
    | run t =>
      obtain ⟨k, hHead, hCo⟩ := Option.map_eq_some_iff.mp hOperation
      obtain ⟨rest, hStack⟩ := List.head?_eq_some_iff.mp hHead
      exact ⟨rfl, k, rest, _, hStack, hCo⟩
    | start | send | receive | finish => cases hOperation
  · cases h

/-- A parked coroutine is none that takes a step. -/
theorem ne_of_isParked (hParked : (s.co k).isParked = true) {j : κ} {c : Co κ α} (hCo : s.co j = c)
    (hNot : c.isParked = false) : k ≠ j := by
  rintro rfl
  rw [hCo, hNot] at hParked
  cases hParked

/-- Nor is one that takes a value. -/
theorem isParked_of_takes {c : Co κ α} (h : Takes c) : c.isParked = false := by
  cases c <;> first | rfl | exact h.elim

end

/-- A parked coroutine stays parked until it is taken out. -/
theorem isParked_step (hst : step Capacity s a = some s') (hParked : (s.co k).isParked = true)
    (hReceiver : s.wokenReceiver? Capacity a ≠ some k) (hSender : s.wokenSender? a ≠ some k) :
    (s'.co k).isParked = true := by
  have hOther : ∀ {j : κ} {c c' : Co κ α}, s.co j = c → c.isParked = false →
      (Function.update s.co j c' k).isParked = true := by
    intro j c c' hCo hNot
    rwa [Function.update_of_ne (ne_of_isParked hParked hCo hNot)]
  have hTwo : ∀ {j i : κ} {c c' d : Co κ α}, s.co j = c → c.isParked = false → k ≠ i →
      (Function.update (Function.update s.co i d) j c' k).isParked = true := by
    intro j i c c' d hCo hNot hne
    rwa [Function.update_of_ne (ne_of_isParked hParked hCo hNot), Function.update_of_ne hne]
  cases (step_effect hst).1 with
  | start hNew => exact hOther hNew rfl
  | send hStack hCo | receive hStack hCo | finish hStack hCo | push hStack hCo | full hStack hCo
  | parkSender hStack hCo | empty hStack hCo | parkReceiver hStack hCo => exact hOther hCo rfl
  | @pushWake t j rest value i ws hStack hCo hRoom hRecv =>
    refine hTwo hCo rfl ?_
    rintro rfl
    exact hReceiver (by simp [State.wokenReceiver?, State.operation?, hStack, hCo, hRoom, hRecv])
  | take hStack hCo => exact hOther rfl (isParked_of_takes hCo)
  | @takeWake t j rest x q i value ws hStack hCo hQueue hSend =>
    refine hTwo rfl (isParked_of_takes hCo) ?_
    rintro rfl
    refine hSender ?_
    cases hAt : s.co j <;> rw [hAt] at hCo <;> first
      | exact hCo.elim
      | simp [State.wokenSender?, State.operation?, hStack, hAt, hQueue, hSend]
  | resumeSender hStack hCo hW | resumeReceiver hStack hCo hW =>
    exact hTwo hCo rfl (ne_of_isParked hParked hW rfl)
  | frontEmpty | resumeActive => exact hParked

/-- Whoever is taken out is resumed by the coroutine on top. -/
theorem resuming_of_woken (hst : step Capacity s a = some s')
    (hWoken : s.wokenReceiver? Capacity a = some w ∨ s.wokenSender? a = some w) :
    ∃ k rest r, s'.stack () = k :: rest ∧ s'.co k = .resuming r w := by
  cases (step_effect hst).1 with
  | start | send | receive | finish =>
    simp [State.wokenReceiver?, State.wokenSender?, State.operation?] at hWoken
  | @pushWake t j rest value i ws hStack hCo hRoom hRecv =>
    have hFront : i = w := by
      simpa [State.wokenReceiver?, State.wokenSender?, State.operation?, hStack, hCo, hRoom, hRecv]
        using hWoken
    exact ⟨j, rest, none, hStack, hFront ▸ Function.update_self ..⟩
  | @takeWake t j rest x q i value ws hStack hCo hQueue hSend =>
    have hFront : i = w := by
      cases hAt : s.co j <;> rw [hAt] at hCo <;> first
        | exact hCo.elim
        | simpa [State.wokenReceiver?, State.wokenSender?, State.operation?, hStack, hAt, hQueue,
            hSend] using hWoken
    exact ⟨j, rest, some x.2, hStack, hFront ▸ Function.update_self ..⟩
  | @take t j rest x q hStack hCo hQueue hSend =>
    cases hAt : s.co j <;> rw [hAt] at hCo <;> first
      | exact hCo.elim
      | simp [State.wokenReceiver?, State.wokenSender?, State.operation?, hStack, hAt, hQueue,
          hSend] at hWoken
  | push hStack hCo hRoom hRecv =>
    simp [State.wokenReceiver?, State.wokenSender?, State.operation?, hStack, hCo, hRecv] at hWoken
  | full hStack hCo hFull =>
    simp [State.wokenReceiver?, State.wokenSender?, State.operation?, hStack, hCo,
      Nat.not_lt_of_le hFull] at hWoken
  | frontEmpty hStack hCo hQueue =>
    simp [State.wokenReceiver?, State.wokenSender?, State.operation?, hStack, hCo, hQueue] at hWoken
  | empty hStack hCo hQueue =>
    simp [State.wokenReceiver?, State.wokenSender?, State.operation?, hStack, hCo, hQueue] at hWoken
  | parkSender hStack hCo | parkReceiver hStack hCo | resumeSender hStack hCo
  | resumeReceiver hStack hCo | resumeActive hStack hCo =>
    simp [State.wokenReceiver?, State.wokenSender?, State.operation?, hStack, hCo] at hWoken

/-- While a coroutine is about to resume another one, nothing else can happen. -/
theorem action_of_resuming {rest : List κ} {r : Option α} (hStack : s.stack () = k :: rest)
    (hCo : s.co k = .resuming r w) (hst : step Capacity s a = some s') : a = .run () := by
  cases (step_effect hst).1 with
  | start hNew hTop =>
    rcases hTop with hEmpty | ⟨j, rest', r', hStack', hRunning⟩
    · cases hEmpty.symm.trans hStack
    · cases hStack'.symm.trans hStack
      cases hRunning.symm.trans hCo
  | send hStack' hRunning | receive hStack' hRunning | finish hStack' hRunning =>
    cases hStack'.symm.trans hStack
    cases hRunning.symm.trans hCo
  | _ => rfl

-- ---------------------------------------------------------------------------
-- The channel and the frames of its coroutines
-- ---------------------------------------------------------------------------

/-- `touched`: `resume` was called on a destroyed coroutine; such a run stops. `misled`: a
`send` took a destroyed receiver out while another one was parked. -/
structure Frames (κ α : Type*) where
  channel : State Unit κ α
  destroyed : κ → Bool
  touched : Bool
  misled : Bool

/-- A step of the channel, or the destruction of a suspended coroutine. -/
inductive FrameAction (κ α : Type*)
  | channel (a : Action Unit κ α)
  | destroy (k : κ)

namespace Frames

variable {f f' : Frames κ α} {b : FrameAction κ α}

/-- The code of a coroutine is running, or the code below all of them. -/
def CodeRuns (f : Frames κ α) : Prop :=
  (f.channel.stack ()).isEmpty = true ∨ (f.channel.runningTop ()).isSome = true

instance codeRunsDecidable (f : Frames κ α) : Decidable f.CodeRuns :=
  inferInstanceAs (Decidable (_ ∨ _))

/-- The value of a `send` goes to a destroyed receiver, and another receiver stays parked. -/
def misleads (Capacity : Nat) (f : Frames κ α) (a : Action Unit κ α) : Bool :=
  (f.channel.wokenReceiver? Capacity a).any f.destroyed &&
    f.channel.recvWaiters.any fun k => !f.destroyed k

/-- A destruction is possible while code of the program runs; it tells the channel nothing.
After a resumption of a destroyed frame nothing is known. -/
def step (Capacity : Nat) (f : Frames κ α) : FrameAction κ α → Option (Frames κ α)
  | .destroy k =>
    if f.touched = false ∧ f.CodeRuns ∧ (f.channel.co k).isParked = true then
      some { f with destroyed := Function.update f.destroyed k true }
    else none
  | .channel a =>
    if f.touched then none
    else if (f.channel.resumed? a).any f.destroyed then some { f with touched := true }
    else (Channel.step Capacity f.channel a).map fun s =>
      { f with channel := s, misled := f.misled || f.misleads Capacity a }

def init (κ α : Type*) : Frames κ α where
  channel := Channel.init Unit κ α
  destroyed := fun _ => false
  touched := false
  misled := false

/-- A channel whose coroutines may be destroyed while they are parked. -/
def system (κ α : Type*) [DecidableEq κ] (Capacity : Nat) :
    System (Frames κ α) (FrameAction κ α) where
  init := init κ α
  step := step Capacity

/-- The waiter that the step takes out exists: the first of `m_recv_waiters` at a `send` that
has room, the first of `m_send_waiters` at a `receive` that has a value. -/
def WakesExisting (Capacity : Nat) (f : Frames κ α) : FrameAction κ α → Prop
  | .channel a =>
    ∀ w, f.channel.wokenReceiver? Capacity a = some w ∨ f.channel.wokenSender? a = some w →
      f.destroyed w = false
  | .destroy _ => True

/-- No destroyed frame was resumed, and no value or wake-up went to one. -/
structure Safe (f : Frames κ α) : Prop where
  /-- No resumption of a destroyed frame. -/
  untouched : f.touched = false
  /-- Nothing was handed to a destroyed coroutine. -/
  notMisled : f.misled = false

/-- The next step, and there is no other one, calls `resume` on a destroyed coroutine. -/
structure Doomed (Capacity : Nat) (f : Frames κ α) : Prop where
  enabled : ∃ b f', step Capacity f b = some f'
  touches : ∀ b f', step Capacity f b = some f' → f'.touched = true

-- ---------------------------------------------------------------------------
-- The invariant
-- ---------------------------------------------------------------------------

/-- What a step does. -/
theorem step_cases (hst : step Capacity f b = some f') :
    (∃ k, b = .destroy k ∧ f.CodeRuns ∧ (f.channel.co k).isParked = true ∧
      f' = { f with destroyed := Function.update f.destroyed k true }) ∨
    (∃ a w, b = .channel a ∧ f.channel.resumed? a = some w ∧ f.destroyed w = true ∧
      f' = { f with touched := true }) ∨
    (∃ a s, b = .channel a ∧ f.touched = false ∧ Channel.step Capacity f.channel a = some s ∧
      f' = { f with channel := s, misled := f.misled || f.misleads Capacity a }) := by
  cases b with
  | destroy k =>
    simp only [step] at hst
    split at hst
    · next h =>
      cases hst
      exact Or.inl ⟨k, rfl, h.2.1, h.2.2, rfl⟩
    · cases hst
  | channel a =>
    simp only [step] at hst
    split at hst
    · cases hst
    next hTouched =>
    split at hst
    · next hDead =>
      cases hst
      obtain ⟨w, hw, hDestroyed⟩ := (Option.any_eq_true _ _).mp hDead
      exact Or.inr (Or.inl ⟨a, w, rfl, hw, hDestroyed, rfl⟩)
    · obtain ⟨s, hs, rfl⟩ := Option.map_eq_some_iff.mp hst
      exact Or.inr (Or.inr ⟨a, s, rfl, by simpa using hTouched, hs, rfl⟩)

/-- A destroyed coroutine is in a waiter queue still. -/
structure Inv (Capacity : Nat) (f : Frames κ α) : Prop extends Safe f where
  reachable : (Channel.system Unit κ α Capacity).Reachable f.channel
  parked : ∀ k, f.destroyed k = true → (f.channel.co k).isParked = true

/-- `resume` is called on a woken coroutine, and no woken one was destroyed. -/
theorem Inv.resumed_exists (h : Inv Capacity f) (hw : f.channel.resumed? a = some w) :
    f.destroyed w = false := by
  obtain ⟨-, k, rest, r, -, hCo⟩ := resuming_of_resumed hw
  obtain ⟨role, hWoken⟩ := (waiters h.reachable).woken k r w hCo
  by_contra hDead
  have hParked := h.parked w (by simpa using hDead)
  rw [hWoken] at hParked
  cases role <;> cases hParked

/-- Nobody is destroyed yet. -/
theorem inv_init : Inv Capacity (init κ α) :=
  ⟨⟨rfl, rfl⟩, .init, fun _ h => by cases h⟩

/-- A coroutine that is taken out of a queue exists, so the one that is resumed later exists as
well: nobody destroys it in between, as it is no longer parked. -/
theorem inv_step (h : Inv Capacity f) (hok : WakesExisting Capacity f b)
    (hst : step Capacity f b = some f') : Inv Capacity f' := by
  rcases step_cases hst with ⟨k, rfl, -, hParked, rfl⟩ | ⟨a, w, rfl, hw, hDead, rfl⟩ |
    ⟨a, s, rfl, -, hs, rfl⟩
  · refine ⟨⟨h.untouched, h.notMisled⟩, h.reachable, fun j hj => ?_⟩
    change Function.update f.destroyed k true j = true at hj
    rcases update_at f.destroyed k true j with ⟨rfl, -⟩ | ⟨-, hSame⟩
    · exact hParked
    · exact h.parked j (hSame ▸ hj)
  · rw [h.resumed_exists hw] at hDead
    cases hDead
  · have hTaken : ∀ w, f.channel.wokenReceiver? Capacity a = some w ∨
        f.channel.wokenSender? a = some w → f.destroyed w = false := hok
    refine ⟨⟨h.untouched, ?_⟩, h.reachable.act a trivial hs, fun k hk => ?_⟩
    · have hNobody : (f.channel.wokenReceiver? Capacity a).any f.destroyed = false := by
        refine Bool.eq_false_iff.mpr fun hAny => ?_
        obtain ⟨w, hw, hDead⟩ := (Option.any_eq_true _ _).mp hAny
        rw [hTaken w (Or.inl hw)] at hDead
        cases hDead
      show (f.misled || f.misleads Capacity a) = false
      rw [h.notMisled, misleads, hNobody]
      rfl
    · have hNot : ∀ {o : Option κ}, (∀ w, o = some w → f.destroyed w = false) → o ≠ some k := by
        intro o hAll ho
        rw [hAll k ho] at hk
        cases hk
      exact isParked_step hs (h.parked k hk) (hNot fun w hw => hTaken w (Or.inl hw))
        (hNot fun w hw => hTaken w (Or.inr hw))

/-- In the runs that meet the condition. -/
theorem inv_reachable (h : (system κ α Capacity).ReachableWhere (WakesExisting Capacity) f) :
    Inv Capacity f :=
  h.invariant (I := Inv Capacity) inv_init fun _ _ _ _ hInv hok hst => inv_step hInv hok hst

-- ---------------------------------------------------------------------------
-- The contract
-- ---------------------------------------------------------------------------

/-- When the frame that is about to be resumed was destroyed, the next step of this coroutine
touches it. -/
theorem doomed_of_resuming (hTouched : f.touched = false) {rest : List κ} {r : Option α}
    (hStack : f.channel.stack () = k :: rest) (hCo : f.channel.co k = .resuming r w)
    (hDead : f.destroyed w = true) : Doomed Capacity f := by
  have hResumed : (f.channel.resumed? (.run ())).any f.destroyed = true := by
    simp [State.resumed?, State.operation?, hStack, hCo, hDead]
  refine ⟨⟨.channel (.run ()), { f with touched := true }, ?_⟩, fun b f' hst => ?_⟩
  · simp [step, hTouched, hResumed]
  · rcases step_cases hst with ⟨j, rfl, hRuns, -⟩ | ⟨a, w', -, -, -, rfl⟩ | ⟨a, s, rfl, -, hs, -⟩
    · rcases hRuns with hEmpty | hRunning
      · rw [hStack] at hEmpty
        cases hEmpty
      · simp [State.runningTop, hStack, hCo, Co.isRunning] at hRunning
    · rfl
    · obtain rfl := action_of_resuming hStack hCo hs
      simp only [step, hTouched, hResumed] at hst
      cases hst
      rfl

/-- **Destroyed coroutines are left alone**, for every capacity and any coroutines, sends,
receives and destructions, in the runs that take only existing coroutines out of the waiter
queues. A step that takes out another one leads to a state from which the channel is going to
resume a destroyed frame (`Doomed`), so the condition is exact. -/
theorem destroyed_left_alone
    (h : (system κ α Capacity).ReachableWhere (WakesExisting Capacity) f) :
    Safe f ∧ ∀ b f', step Capacity f b = some f' → ¬ WakesExisting Capacity f b →
      Doomed Capacity f' := by
  have hInv := inv_reachable h
  refine ⟨hInv.toSafe, fun b f' hst hNot => ?_⟩
  rcases step_cases hst with
    ⟨k, rfl, -⟩ | ⟨a, w, rfl, hw, hDead, -⟩ | ⟨a, s, rfl, hTouched, hs, rfl⟩
  · exact absurd trivial hNot
  · rw [hInv.resumed_exists hw] at hDead
    cases hDead
  · simp only [WakesExisting, not_forall] at hNot
    obtain ⟨w, hWoken, hDead⟩ := hNot
    obtain ⟨k, rest, r, hStack, hCo⟩ := resuming_of_woken hs hWoken
    exact doomed_of_resuming hTouched hStack hCo (by simpa using hDead)

/-- The step condition as it is evaluated. -/
def wakesExisting (Capacity : Nat) (f : Frames κ α) : FrameAction κ α → Bool
  | .channel a =>
    (f.channel.wokenReceiver? Capacity a).all (fun w => !f.destroyed w) &&
      (f.channel.wokenSender? a).all fun w => !f.destroyed w
  | .destroy _ => true

omit [DecidableEq κ] in
/-- What is evaluated is the condition. -/
theorem wakesExisting_of_check (h : wakesExisting Capacity f b = true) :
    WakesExisting Capacity f b := by
  cases b with
  | destroy k => trivial
  | channel a =>
    intro w hw
    simp only [wakesExisting, Bool.and_eq_true] at h
    rcases hw with hw | hw
    · simpa [hw] using h.1
    · simpa [hw] using h.2

/-- Receivers 0 and 1 park, 1 is destroyed, and the value goes to 0. -/
theorem destroyed_left_alone_second :
    ∃ f : Frames (Fin 3) Nat,
      (system (Fin 3) Nat 1).ReachableWhere (WakesExisting 1) f ∧ f.destroyed 1 = true ∧
        f.channel.delivered = [(0, (2, 7))] ∧ Safe f := by
  obtain ⟨f, hf, hDestroyed, hDelivered⟩ := System.exists_reachableWhere_of_exec
    (S := system (Fin 3) Nat 1) (c := wakesExisting 1) (fun _ _ => wakesExisting_of_check)
    (p := fun f => f.destroyed 1 = true ∧ f.channel.delivered = [(0, (2, 7))])
    [.channel (.start () 0), .channel (.receive ()), .channel (.run ()), .channel (.run ()),
      .channel (.start () 1), .channel (.receive ()), .channel (.run ()), .channel (.run ()),
      .destroy 1, .channel (.start () 2), .channel (.send () 7), .channel (.run ()),
      .channel (.run ()), .channel (.run ())] (by decide +kernel)
  exact ⟨f, hf, hDestroyed, hDelivered, (destroyed_left_alone hf).1⟩

/-- Receivers 0 and 1 park, 0 is destroyed, and `send` hands its value over to it. -/
theorem destroyed_receiver_resumed :
    ¬ ∀ f : Frames (Fin 3) Nat, (system (Fin 3) Nat 1).Reachable f →
      f.touched = false ∧ f.misled = false := by
  intro hAll
  obtain ⟨f, hf, hTouched, -⟩ := System.exists_reachable_of_exec (S := system (Fin 3) Nat 1)
    (p := fun f => f.touched = true ∧ f.misled = true)
    [.channel (.start () 0), .channel (.receive ()), .channel (.run ()), .channel (.run ()),
      .channel (.start () 1), .channel (.receive ()), .channel (.run ()), .channel (.run ()),
      .destroy 0, .channel (.start () 2), .channel (.send () 7), .channel (.run ()),
      .channel (.run ())] (by decide +kernel)
  rw [(hAll f hf).1] at hTouched
  cases hTouched

end Frames

end EmbLinux.Channel
