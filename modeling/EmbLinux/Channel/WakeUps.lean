import EmbLinux.Lib.Count
import EmbLinux.Channel.Ledger
import EmbLinux.Channel.Waiters

/-!
# EmbLinux — wake-ups of the channel across threads

`await_ready` decides to suspend in one region and `await_suspend` parks in
another, and a woken receiver takes its value in a third. In between, other
threads use the channel. `ledger_step` relates each step of the channel to an
entry in the `Ledger`, and the two results are read off there:

* `no_lost_wake_up` — nobody stays parked beside a value or a free place, in
  every run whose coroutines park in time (`InTime`);
* `woken_receiver_finds_value` — `front()` is never called on an empty queue,
  in every run whose `await_ready` takes no claimed value (`Spare`).

Each is followed by a run that does not keep to the condition and goes wrong.
-/

namespace EmbLinux.Channel

variable {τ κ α : Type*} [DecidableEq τ] [DecidableEq κ] {Capacity : Nat}
  {s s' : State τ κ α} {a : Action τ κ α} {t : τ} {k : κ}

-- ---------------------------------------------------------------------------
-- The ledger of a channel
-- ---------------------------------------------------------------------------

/-- A receiver taken out of `m_recv_waiters` that has not run `await_resume`. -/
def Claims : Co κ α → Prop
  | .recvWoken | .recvResume => True
  | _ => False

/-- The numbers of a state of the channel. -/
noncomputable def State.ledger (s : State τ κ α) : Ledger :=
  ⟨s.queue.length, s.sendWaiters.length, s.recvWaiters.length, count Claims s.co⟩

/-- The entry that a step makes. -/
def State.entry (Capacity : Nat) (s : State τ κ α) : Action τ κ α → Entry
  | .run t =>
    match s.stack t with
    | [] => .nothing
    | k :: _ =>
      match s.co k with
      | .sendReady _ =>
        if s.queue.length < Capacity then
          if s.recvWaiters.isEmpty then .push else .pushWake
        else .nothing
      | .sendSuspend _ => .parkSender
      | .recvSuspend => .parkReceiver
      | .recvReady => if s.queue.isEmpty then .nothing else .take
      | .recvResume => if s.queue.isEmpty then .nothing else .claim
      | _ => .nothing
  | _ => .nothing

/-- Only finitely many coroutines have a claim. -/
def FinitelyMany (s : State τ κ α) : Prop :=
  {k | Claims (s.co k)}.Finite

omit [DecidableEq τ] [DecidableEq κ] in
/-- No coroutine has started. -/
theorem finitelyMany_init : FinitelyMany (init τ κ α) := by
  have hNone : {k | Claims ((init τ κ α).co k)} = ∅ :=
    Set.eq_empty_of_forall_notMem fun _ hk => hk
  rw [FinitelyMany, hNone]
  exact Set.finite_empty

/-- A step starts one coroutine at most. -/
theorem finitelyMany_step (h : FinitelyMany s) (hst : step Capacity s a = some s') :
    FinitelyMany s' := by
  cases (step_effect hst).1 with
  | frontEmpty => exact h
  | resumeActive => exact h
  | pushWake => exact finite_update (p := Claims) (finite_update (p := Claims) h)
  | takeWake => exact finite_update (p := Claims) (finite_update (p := Claims) h)
  | resumeSender => exact finite_update (p := Claims) (finite_update (p := Claims) h)
  | resumeReceiver => exact finite_update (p := Claims) (finite_update (p := Claims) h)
  | _ => exact finite_update (p := Claims) h

/-- So the claims can be counted in every state. -/
theorem finitelyMany (h : (system τ κ α Capacity).Reachable s) : FinitelyMany s :=
  h.invariant (I := FinitelyMany) finitelyMany_init
    fun _ _ _ _ hI _ hst => finitelyMany_step hI hst

/-- One coroutine moves and keeps its claim, or keeps having none. -/
theorem claims_update {co : κ → Co κ α} {c : Co κ α} (h : Claims c ↔ Claims (co k)) :
    count Claims (Function.update co k c) = count Claims co :=
  count_update_of_iff h

/-- The same for two coroutines. -/
theorem claims_update_two {co : κ → Co κ α} {w : κ} {c c' : Co κ α} (hw : Claims c ↔ Claims (co w))
    (hk : Claims c' ↔ Claims (co k)) (hne : k ≠ w) :
    count Claims (Function.update (Function.update co w c) k c') = count Claims co := by
  rw [claims_update, claims_update hw]
  rwa [Function.update_of_ne hne]

omit [DecidableEq τ] [DecidableEq κ] in
/-- A step that changes no number. -/
theorem ledger_same (hEntry : s.entry Capacity a = .nothing) (hQueue : s'.queue = s.queue)
    (hSend : s'.sendWaiters = s.sendWaiters) (hRecv : s'.recvWaiters = s.recvWaiters)
    (hClaims : count Claims s'.co = count Claims s.co) :
    s.ledger.step Capacity (s.entry Capacity a) = some s'.ledger := by
  rw [hEntry]
  show some s.ledger = some s'.ledger
  rw [State.ledger, State.ledger, hQueue, hSend, hRecv, hClaims]

omit [DecidableEq τ] [DecidableEq κ] in
/-- The region of a receiver that takes the front of `m_queue`: `removed` is what
`m_queue` and `m_send_waiters` become. -/
theorem ledger_remove {x : κ × α} {q : List (κ × α)} (hQueue : s.queue = x :: q)
    (hRemoved : (s.sendWaiters = [] ∧ s'.queue = q ∧ s'.sendWaiters = []) ∨
      ∃ y ws, s.sendWaiters = y :: ws ∧ s'.queue = q ++ [y] ∧ s'.sendWaiters = ws)
    (hRecv : s'.recvWaiters = s.recvWaiters) :
    { s.ledger.remove with claims := count Claims s'.co } = s'.ledger := by
  rcases hRemoved with ⟨hNone, hQueue', hSend'⟩ | ⟨y, ws, hSome, hQueue', hSend'⟩
  · simp [Ledger.remove, State.ledger, hQueue, hNone, hQueue', hSend', hRecv]
  · simp [Ledger.remove, State.ledger, hQueue, hSome, hQueue', hSend', hRecv]

omit [DecidableEq τ] in
/-- A region that takes a value is one `take` or `claim` of the ledger, whether or not a parked
sender refills the buffer. -/
theorem ledger_take {rest : List κ} {x : κ × α} {q : List (κ × α)} {c : Co κ α} {co : κ → Co κ α}
    (hFin : {j | Claims (co j)}.Finite) (hStack : s.stack t = k :: rest) (hCo : Takes (s.co k))
    (hQueue : s.queue = x :: q)
    (hRemoved : (s.sendWaiters = [] ∧ s'.queue = q ∧ s'.sendWaiters = []) ∨
      ∃ y ws, s.sendWaiters = y :: ws ∧ s'.queue = q ++ [y] ∧ s'.sendWaiters = ws)
    (hRecv : s'.recvWaiters = s.recvWaiters) (hSame : co k = s.co k)
    (hCount : count Claims co = count Claims s.co) (hCo' : s'.co = Function.update co k c)
    (hc : ¬ Claims c) :
    s.ledger.step Capacity (s.entry Capacity (.run t)) = some s'.ledger := by
  have hRemove := ledger_remove hQueue hRemoved hRecv
  have hValues : 0 < s.ledger.values := by simp [State.ledger, hQueue]
  cases hAt : s.co k with
  | recvReady =>
    have hEntry : s.entry Capacity (.run t) = .take := by
      simp [State.entry, hStack, hAt, hQueue]
    have hClaims : count Claims s'.co = s.ledger.claims := by
      rw [hCo', claims_update, hCount]
      · rfl
      · rw [hSame, hAt]
        exact iff_of_false hc id
    rw [hEntry, Ledger.step, if_pos hValues, ← hRemove, hClaims]
    -- the claims stay as they are, whether or not a sender is parked
    simp only [Ledger.remove]
    split <;> rfl
  | recvResume =>
    have hEntry : s.entry Capacity (.run t) = .claim := by
      simp [State.entry, hStack, hAt, hQueue]
    have hHere : Claims (co k) := by
      rw [hSame, hAt]
      trivial
    -- a receiver that takes its value gives up its claim
    have hLeave := count_update_leave (p := Claims) hFin hHere hc
    rw [← hCo', hCount] at hLeave
    have hClaims : count Claims s'.co = s.ledger.claims - 1 := by
      show _ = count Claims s.co - 1
      omega
    have hPos : 0 < s.ledger.claims := by
      show 0 < count Claims s.co
      omega
    rw [hEntry, Ledger.step, if_pos ⟨hValues, hPos⟩, ← hRemove, hClaims]
  | _ =>
    rw [hAt] at hCo
    exact hCo.elim

/-- Every step of the channel is the entry of that step in its ledger. -/
theorem ledger_step (hWaiters : Waiters s) (hFin : FinitelyMany s)
    (hst : step Capacity s a = some s') :
    s.ledger.step Capacity (s.entry Capacity a) = some s'.ledger := by
  cases (step_effect hst).1 with
  | start hNew hTop =>
    exact ledger_same rfl rfl rfl rfl (claims_update (by rw [hNew]; exact Iff.rfl))
  | send hStack hCo =>
    exact ledger_same rfl rfl rfl rfl (claims_update (by rw [hCo]; exact Iff.rfl))
  | receive hStack hCo =>
    exact ledger_same rfl rfl rfl rfl (claims_update (by rw [hCo]; exact Iff.rfl))
  | finish hStack hCo =>
    exact ledger_same rfl rfl rfl rfl (claims_update (by rw [hCo]; exact Iff.rfl))
  | full hStack hCo hFull =>
    exact ledger_same (by simp [State.entry, hStack, hCo, Nat.not_lt.mpr hFull]) rfl rfl rfl
      (claims_update (by rw [hCo]; exact Iff.rfl))
  | empty hStack hCo hQueue =>
    exact ledger_same (by simp [State.entry, hStack, hCo, hQueue]) rfl rfl rfl
      (claims_update (by rw [hCo]; exact Iff.rfl))
  | frontEmpty hStack hCo hQueue =>
    exact ledger_same (by simp [State.entry, hStack, hCo, hQueue]) rfl rfl rfl rfl
  | resumeActive hStack hCo =>
    exact ledger_same (by simp [State.entry, hStack, hCo]) rfl rfl rfl rfl
  | @resumeSender t k rest r w hStack hCo hW =>
    have hne : k ≠ w := ne_of_apply_ne s.co (by simp [hCo, hW])
    exact ledger_same (by simp [State.entry, hStack, hCo]) rfl rfl rfl
      (claims_update_two (by rw [hW]; exact Iff.rfl) (by rw [hCo]; exact Iff.rfl) hne)
  | @resumeReceiver t k rest r w hStack hCo hW =>
    have hne : k ≠ w := ne_of_apply_ne s.co (by simp [hCo, hW])
    exact ledger_same (by simp [State.entry, hStack, hCo]) rfl rfl rfl
      (claims_update_two (by rw [hW]; exact Iff.rfl) (by rw [hCo]; exact Iff.rfl) hne)
  | @parkSender t k rest value hStack hCo =>
    have hEntry : s.entry Capacity (.run t) = .parkSender := by simp [State.entry, hStack, hCo]
    have hClaims : count Claims (Function.update s.co k .sendParked) = count Claims s.co :=
      claims_update (by rw [hCo]; exact Iff.rfl)
    rw [hEntry]
    simp [Ledger.step, State.ledger, State.park, State.setStack, State.setCo, hClaims]
  | @parkReceiver t k rest hStack hCo =>
    have hEntry : s.entry Capacity (.run t) = .parkReceiver := by simp [State.entry, hStack, hCo]
    have hClaims : count Claims (Function.update s.co k .recvParked) = count Claims s.co :=
      claims_update (by rw [hCo]; exact Iff.rfl)
    rw [hEntry]
    simp [Ledger.step, State.ledger, State.park, State.setStack, State.setCo, hClaims]
  | @push t k rest value hStack hCo hRoom hRecv =>
    have hEntry : s.entry Capacity (.run t) = .push := by
      simp [State.entry, hStack, hCo, hRoom, hRecv]
    have hClaims : count Claims (Function.update s.co k (.running none)) = count Claims s.co :=
      claims_update (by rw [hCo]; exact Iff.rfl)
    rw [hEntry]
    simp [Ledger.step, State.ledger, State.setCo, hClaims, hRoom, hRecv]
  | @pushWake t k rest value w ws hStack hCo hRoom hRecv =>
    have hEntry : s.entry Capacity (.run t) = .pushWake := by
      simp [State.entry, hStack, hCo, hRoom, hRecv]
    have hParked := hWaiters.front_receiver hRecv
    have hne : k ≠ w := ne_of_apply_ne s.co (by simp [hCo, hParked])
    -- the woken receiver gets a claim
    have hClaims : count Claims (Function.update (Function.update s.co w .recvWoken) k
        (.resuming none w)) = count Claims s.co + 1 := by
      have hEnter := count_update_enter (p := Claims) (f := s.co) (i := w) (b := .recvWoken) hFin
        (by rw [hParked]; exact id) trivial
      rw [← hEnter]
      refine claims_update ?_
      rw [Function.update_of_ne hne, hCo]
      exact Iff.rfl
    rw [hEntry]
    simp [Ledger.step, State.ledger, State.setCo, hClaims, hRoom, hRecv]
  | @take t k rest x q hStack hCo hQueue hSend =>
    exact ledger_take hFin hStack hCo hQueue (Or.inl ⟨hSend, rfl, hSend⟩) rfl rfl rfl rfl id
  | @takeWake t k rest x q w value ws hStack hCo hQueue hSend =>
    have hParked := hWaiters.front_sender hSend
    have hne : k ≠ w := by
      rintro rfl
      rw [hParked] at hCo
      exact hCo
    exact ledger_take (finite_update (p := Claims) hFin) hStack hCo hQueue
      (Or.inr ⟨(w, value), ws, hSend, rfl, rfl⟩) rfl (Function.update_of_ne hne ..)
      (claims_update (by rw [hParked]; exact Iff.rfl)) rfl id

/-- The ledger of a channel is a ledger's run, under the same step conditions. -/
theorem ledger_run {ok : Ledger → Entry → Prop}
    (h : (system τ κ α Capacity).ReachableWhere
      (fun s a => ok s.ledger (s.entry Capacity a)) s) :
    (Ledger.system Capacity).ReachableWhere ok s.ledger := by
  refine h.map (I := fun s => Waiters s ∧ FinitelyMany s) State.ledger ?_ ?_ ?_
  · show State.ledger (init τ κ α) = ⟨0, 0, 0, 0⟩
    have hNone : count Claims (init τ κ α).co = 0 := count_eq_zero fun _ hk => hk
    rw [State.ledger, hNone]
    rfl
  · intro s hReach
    exact ⟨waiters hReach.reachable, finitelyMany hReach.reachable⟩
  · intro s a s' hInv hok hst
    exact ⟨s.entry Capacity a, hok, ledger_step hInv.1 hInv.2 hst⟩

-- ---------------------------------------------------------------------------
-- No lost wake-up
-- ---------------------------------------------------------------------------

/-- The step condition: a coroutine that parks does so in time. -/
def ParksInTime (Capacity : Nat) (s : State τ κ α) (a : Action τ κ α) : Prop :=
  Ledger.InTime Capacity s.ledger (s.entry Capacity a)

/-- Between its `await_ready` and its `await_suspend`, or taken out of a waiter
queue and not yet resumed, or before its `await_resume`. -/
def Midway : Co κ α → Prop
  | .sendSuspend _ | .recvSuspend | .sendWoken | .recvWoken | .recvResume => True
  | _ => False

instance : DecidablePred (Midway : Co κ α → Prop)
  | .sendSuspend _ | .recvSuspend | .sendWoken | .recvWoken | .recvResume => isTrue trivial
  | .unstarted | .running _ | .sendReady _ | .sendParked | .recvReady | .recvParked
  | .resuming _ _ | .done => isFalse id

/-- No receiver is parked beside a value, and no sender beside a free place. -/
structure NoLostWakeUp (Capacity : Nat) (s : State τ κ α) : Prop where
  receivers : (∃ k, s.co k = .recvParked) → s.queue = []
  senders : (∃ k, s.co k = .sendParked) → ¬ s.queue.length < Capacity

/-- **No lost wake-up.** When no operation is part-way, nobody is parked who could go on, if
coroutines park in time. The threads are any number and the regions of the spinlock may
interleave in any way; `ParksInTime` excludes the step of an `await_suspend` that parks although
its `await_ready` would now succeed, which the code does not test again. -/
theorem no_lost_wake_up (h : (system τ κ α Capacity).ReachableWhere (ParksInTime Capacity) s)
    (hQuiet : ∀ k, ¬ Midway (s.co k)) : NoLostWakeUp Capacity s := by
  have hWaiters := waiters h.reachable
  have hSettled := Ledger.settled (ledger_run h)
  -- in a quiet state nobody has a claim
  have hNoClaim : s.ledger.claims = 0 := by
    refine count_eq_zero fun k hk => hQuiet k ?_
    cases hAt : s.co k <;> rw [hAt] at hk <;> trivial
  refine ⟨?_, ?_⟩
  · rintro ⟨k, hk⟩
    have hMem : k ∈ s.recvWaiters := (hWaiters.parked_iff .receiver k).mpr hk
    have hSome : 0 < s.ledger.receivers := List.length_pos_of_mem hMem
    have hLe := hSettled.receivers hSome
    rw [hNoClaim] at hLe
    have hNil : s.queue.length = 0 := by
      have : s.queue.length + s.sendWaiters.length ≤ 0 := hLe
      omega
    exact List.length_eq_zero_iff.mp hNil
  · rintro ⟨k, hk⟩
    have hMem : k ∈ s.sendWaiters.map Prod.fst := (hWaiters.parked_iff .sender k).mpr hk
    have hSome : 0 < s.ledger.senders := by
      have := List.length_pos_of_mem hMem
      rwa [List.length_map] at this
    have hFull : s.queue.length = Capacity := hSettled.senders (by rw [hNoClaim]; exact hSome)
    omega

/-- A receiver parks at an empty channel, a sender at a full one. -/
def parksPlainly (Capacity : Nat) (s : State τ κ α) (a : Action τ κ α) : Bool :=
  match s.entry Capacity a with
  | .parkReceiver => s.queue.isEmpty && s.sendWaiters.isEmpty
  | .parkSender => s.queue.length == Capacity && s.recvWaiters.isEmpty
  | _ => true

omit [DecidableEq τ] [DecidableEq κ] in
/-- What is evaluated is enough for the condition. -/
theorem parksInTime_of_plainly (Capacity : Nat) (s : State τ κ α) (a : Action τ κ α)
    (h : parksPlainly Capacity s a = true) : ParksInTime Capacity s a := by
  unfold parksPlainly at h
  unfold ParksInTime
  split at h
  · next hEntry =>
    rw [hEntry]
    obtain ⟨hQueue, hSend⟩ := Bool.and_eq_true_iff.mp h
    rw [List.isEmpty_iff] at hQueue hSend
    show s.queue.length + s.sendWaiters.length ≤ _
    rw [hQueue, hSend]
    exact Nat.zero_le _
  · next hEntry =>
    rw [hEntry]
    obtain ⟨hFull, hRecv⟩ := Bool.and_eq_true_iff.mp h
    rw [List.isEmpty_iff] at hRecv
    refine ⟨fun _ => eq_of_beq hFull, ?_⟩
    intro hSome
    have : 0 < s.recvWaiters.length := hSome
    rw [hRecv] at this
    exact absurd this (Nat.lt_irrefl 0)
  · next hReceiver hSender =>
    cases hEntry : s.entry Capacity a with
    | parkReceiver => exact absurd hEntry hReceiver
    | parkSender => exact absurd hEntry hSender
    | _ => trivial

/-- A receiver that parked and was woken, and a sender parked at the full buffer. -/
theorem no_lost_wake_up_full :
    ∃ s : State Bool (Fin 3) Nat, (system Bool (Fin 3) Nat 1).ReachableWhere (ParksInTime 1) s ∧
      s.delivered = [(0, (1, 10))] ∧ s.co 2 = .sendParked ∧ NoLostWakeUp 1 s := by
  obtain ⟨s, hs, hp⟩ := System.exists_reachableWhere_of_exec (S := system Bool (Fin 3) Nat 1)
    (p := fun s => s.delivered = [(0, (1, 10))] ∧ s.co 2 = .sendParked ∧ ∀ k, ¬ Midway (s.co k))
    (parksInTime_of_plainly 1)
    [.start true 0, .receive true, .run true, .run true, .start false 1, .send false 10,
      .run false, .run false, .run false, .finish false, .send false 20, .run false,
      .start true 2, .send true 30, .run true, .run true] (by decide)
  exact ⟨s, hs, hp.1, hp.2.1, no_lost_wake_up hs hp.2.2⟩

/-- A receiver finds the buffer empty, a sender pushes a value while nobody is
parked, and the receiver parks beside it. -/
theorem receiver_parks_beside_value :
    ∃ s : State Bool Bool Nat, (system Bool Bool Nat 1).Reachable s ∧
      (∀ k, ¬ Midway (s.co k)) ∧ s.co true = .recvParked ∧ s.queue = [(false, 10)] ∧
      ¬ NoLostWakeUp 1 s := by
  obtain ⟨s, hs, hQuiet, hParked, hQueue⟩ := System.exists_reachable_of_exec
    (S := system Bool Bool Nat 1)
    (p := fun s => (∀ k, ¬ Midway (s.co k)) ∧ s.co true = .recvParked ∧ s.queue = [(false, 10)])
    [.start true true, .receive true, .run true, .start false false, .send false 10, .run false,
      .run true] (by decide)
  refine ⟨s, hs, hQuiet, hParked, hQueue, ?_⟩
  intro hNoLost
  have hNil := hNoLost.receivers ⟨true, hParked⟩
  rw [hQueue] at hNil
  cases hNil

-- ---------------------------------------------------------------------------
-- A woken receiver finds a value
-- ---------------------------------------------------------------------------

/-- The step condition: `await_ready` takes no value that a woken receiver
claims. -/
def LeavesClaimed (Capacity : Nat) (s : State τ κ α) (a : Action τ κ α) : Prop :=
  Ledger.Spare s.ledger (s.entry Capacity a)

/-- The region of `await_resume` finds a value, and never faulted. -/
structure WokenFindsValue (s : State τ κ α) : Prop where
  front : ∀ k, s.co k = .recvResume → s.queue ≠ []
  noFault : s.fault = false

omit [DecidableEq τ] [DecidableEq κ] in
/-- A woken receiver is a claim, and the first claim finds its value in the buffer. -/
theorem front_of_covered (hFin : FinitelyMany s) (hCovered : Ledger.Covered s.ledger)
    (hk : s.co k = .recvResume) : s.queue ≠ [] := by
  have hPos : 0 < s.ledger.claims :=
    count_pos (p := Claims) (f := s.co) hFin (by rw [hk]; trivial)
  have hValues : 0 < s.queue.length := hCovered.front hPos
  exact List.ne_nil_of_length_pos hValues

/-- **A woken receiver finds a value**, if no receiver takes a claimed one. What is excluded is
an `await_ready` that runs between the resumption of a parked receiver and its `await_resume`
and takes the value that was meant for it; everything else may interleave. -/
theorem woken_receiver_finds_value
    (h : (system τ κ α Capacity).ReachableWhere (LeavesClaimed Capacity) s) :
    WokenFindsValue s := by
  refine ⟨fun k hk =>
    front_of_covered (finitelyMany h.reachable) (Ledger.covered (ledger_run h)) hk, ?_⟩
  refine h.invariant (I := fun s => s.fault = false) rfl ?_
  intro s a s' hReach hI hok hst
  cases (step_effect hst).1 with
  | frontEmpty hStack hCo hQueue =>
    have hCovered := Ledger.covered (ledger_run hReach)
    exact absurd hQueue (front_of_covered (finitelyMany hReach.reachable) hCovered hCo)
  | resumeActive hStack hCo hSend hRecv =>
    exact absurd ((waiters hReach.reachable).resumable hCo hSend) hRecv
  | _ => exact hI

/-- No receiver takes a value in `await_ready`. -/
def takesNothing (Capacity : Nat) (s : State τ κ α) (a : Action τ κ α) : Bool :=
  s.entry Capacity a != .take

omit [DecidableEq τ] [DecidableEq κ] in
/-- What is evaluated is enough for the condition. -/
theorem leavesClaimed_of_takesNothing (Capacity : Nat) (s : State τ κ α) (a : Action τ κ α)
    (h : takesNothing Capacity s a = true) : LeavesClaimed Capacity s a := by
  unfold LeavesClaimed
  cases hEntry : s.entry Capacity a with
  | take => simp [takesNothing, hEntry] at h
  | _ => trivial

/-- A receiver that was parked and resumed, before its `await_resume`. -/
theorem woken_receiver_finds_value_resumed :
    ∃ s : State Bool Bool Nat,
      (system Bool Bool Nat 1).ReachableWhere (LeavesClaimed 1) s ∧ s.co true = .recvResume ∧
      s.queue = [(false, 10)] ∧ WokenFindsValue s := by
  obtain ⟨s, hs, hp⟩ := System.exists_reachableWhere_of_exec (S := system Bool Bool Nat 1)
    (p := fun s => s.co true = .recvResume ∧ s.queue = [(false, 10)])
    (leavesClaimed_of_takesNothing 1)
    [.start true true, .receive true, .run true, .run true, .start false false, .send false 10,
      .run false, .run false] (by decide)
  exact ⟨s, hs, hp.1, hp.2, woken_receiver_finds_value hs⟩

/-- A sender pushes a value and wakes the parked receiver 0; before that one runs
its `await_resume`, receiver 2 takes the value in its `await_ready`. -/
theorem claimed_value_taken :
    ∃ s : State Bool (Fin 3) Nat, (system Bool (Fin 3) Nat 1).Reachable s ∧
      s.co 0 = .recvResume ∧ s.queue = [] ∧ s.fault = true ∧ ¬ WokenFindsValue s := by
  obtain ⟨s, hs, hResume, hQueue, hFault⟩ := System.exists_reachable_of_exec
    (S := system Bool (Fin 3) Nat 1)
    (p := fun s => s.co 0 = .recvResume ∧ s.queue = [] ∧ s.fault = true)
    [.start true 0, .receive true, .run true, .run true, .start false 1, .send false 10,
      .run false, .start true 2, .receive true, .run true, .run false, .run false] (by decide)
  refine ⟨s, hs, hResume, hQueue, hFault, ?_⟩
  intro hFinds
  exact hFinds.front 0 hResume hQueue

end EmbLinux.Channel
