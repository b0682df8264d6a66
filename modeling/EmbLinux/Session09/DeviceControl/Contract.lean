import EmbLinux.Session09.DeviceControl.Sessions

/-!
# EmbLinux — the contract of `/device_shm`

* `device_control_contract` — with the programs in order, no process does what POSIX leaves
  undefined, the commands and the reports are those of a register, whatever sessions there
  are, and no process waits for ever;
* `order_needed` — a device that starts before its controller is ready, a second controller,
  and a controller that leaves with a device attached can each lead to a fault.

The order is what a user of the two programs keeps, and `InOrder` says it in full. It excludes
kills and an `shm_unlink` that fails: each can leave an initialized mutex under the name, which
the next controller would initialize again.

## Results

* `session_reachable` (`DeviceControl.Sessions`) — the phases, from which all of this follows.
* `Session.noFault` — in none of them a process is at an undefined step.
* `moves_effect` — each step is matched by the register: a command at its store, a report at its
  load.
* `early_device_fault`, `second_controller_fault` and `early_leave_fault` — one schedule for each
  way to break the order.
-/

namespace EmbLinux.Session09.DeviceControl

-- ---------------------------------------------------------------------------
-- No fault
-- ---------------------------------------------------------------------------

variable {τ : Type*} [DecidableEq τ] {s s' : State τ} {t u c : τ} {a : Action τ} {ok : Bool}
  {o p : Nat} {l : Pc} {q : Int}

section

omit [DecidableEq τ]

/-- A process outside needs nothing of the memory. -/
theorem Pc.Outside.needs (h : l.Outside) : l.Needs t s.shm := by
  cases l <;> simp_all [Pc.Outside, Pc.controls, Pc.attached, Pc.Needs]

/-- The mutex is locked by the process in a critical section. -/
theorem Open.locked (h : Open s c o) (hHolds : (s.pc t).holds = true) :
    (s.shm o).mutex = .locked t := by
  have hOwner := (h.guards t).mpr hHolds
  rcases Mutex.eq_of_live h.live with ⟨-, hNone⟩ | ⟨u, hLocked, hSome⟩
  · rw [hNone] at hOwner
    cases hOwner
  · rw [hSome] at hOwner
    rw [hLocked, Option.some.inj hOwner]

/-- It is free, or another process is in its critical section. -/
theorem Open.free_or (h : Open s c o) (hOut : (s.pc t).holds = false) :
    (s.shm o).mutex = .free ∨ ∃ u, u ≠ t ∧ (s.pc u).holds = true := by
  rcases Mutex.eq_of_live h.live with ⟨hFree, -⟩ | ⟨u, -, hSome⟩
  · exact Or.inl hFree
  · have hHolds : (s.pc u).holds = true := (h.guards u).mp hSome
    refine Or.inr ⟨u, ?_, hHolds⟩
    rintro rfl
    rw [hOut] at hHolds
    cases hHolds

/-- Nobody is in a critical section when the controller destroys the mutex. -/
theorem Open.free_of_destroy (h : Open s c o) (hpc : s.pc c = .destroy p) :
    (s.shm o).mutex = .free := by
  refine (h.free_or (t := c) (by rw [hpc]; rfl)).resolve_right ?_
  rintro ⟨u, huc, hHolds⟩
  rcases Pc.object_of_holds hHolds with hControls | hAttached
  · exact hControls (h.others u huc)
  · exact hAttached (h.nobody (by rw [hpc]; rfl) u)

end

/-- In a session nobody does what is not defined. -/
theorem Session.noFault (h : Session s) (t : τ) : ¬ Fault s t := by
  unfold Fault
  rw [not_not]
  cases h with
  | closed hOutside hMutex => exact (hOutside t).needs
  | @opening c o sized hPrepares hName hSized hMutex hOutside =>
    by_cases htc : t = c
    · subst htc
      cases hpc : s.pc t <;> simp_all [Pc.prepares, Pc.Needs]
    · exact (hOutside t htc).needs
  | @working c o hOpen =>
    have hWorks := hOpen.works
    by_cases htc : t = c
    · subst htc
      cases hpc : s.pc t with
      | lock p command | store p command =>
        obtain rfl : p = o := by simpa [hpc, Pc.works] using hWorks
        simp [Pc.Needs, hOpen.sized, hOpen.live]
      | unlock p command =>
        obtain rfl : p = o := by simpa [hpc, Pc.works] using hWorks
        exact ⟨hOpen.sized, hOpen.locked (by rw [hpc]; rfl)⟩
      | destroy p =>
        obtain rfl : p = o := by simpa [hpc, Pc.works] using hWorks
        exact ⟨hOpen.sized, hOpen.free_of_destroy hpc⟩
      | initMutex p | lockRead p | read p => simp [hpc, Pc.works] at hWorks
      | unlockRead p status => simp [hpc, Pc.works] at hWorks
      | _ => trivial
    · have hControls := hOpen.others t htc
      have hAttached := hOpen.attached t
      cases hpc : s.pc t with
      | lockRead p | read p =>
        obtain ⟨rfl, -⟩ := hAttached p (by rw [hpc]; rfl)
        simp [Pc.Needs, hOpen.sized, hOpen.live]
      | unlockRead p status =>
        obtain ⟨rfl, -⟩ := hAttached p (by rw [hpc]; rfl)
        exact ⟨hOpen.sized, hOpen.locked (by rw [hpc]; rfl)⟩
      | initMutex p | destroy p => simp [hpc, Pc.controls] at hControls
      | lock p command | store p command | unlock p command =>
        simp [hpc, Pc.controls] at hControls
      | _ => trivial
  | @closing c o success hpc hOutside =>
    by_cases htc : t = c
    · rw [htc, hpc]
      trivial
    · exact (hOutside t htc).needs

-- ---------------------------------------------------------------------------
-- The register
-- ---------------------------------------------------------------------------

/-- The object has the status that was set last. -/
def Pc.shows : Pc → Option Nat
  | .ask o | .unlock o _ | .destroy o => some o
  | .lock o command | .store o command => if command = .reset then none else some o
  | _ => none

/-- The register that the history is about is the status in the object of the session. -/
def Shows (s : State τ) (q : Int) : Prop :=
  ∀ c o, (s.pc c).shows = some o → (s.shm o).status = q

/-- Where a process stands in its command or its poll. -/
def Pc.stage : Pc → Stage Op Ret
  | .lock _ command | .store _ command => .pending (.set command.status)
  | .unlock _ _ => .done .done
  | .lockRead _ | .read _ => .pending .get
  | .unlockRead _ status => .done (.got status)
  | _ => .idle

/-- What a process still owes: a command, a report, or nothing. -/
def stage (s : State τ) (t : τ) : Stage Op Ret := (s.pc t).stage

/-- A controller in its loop has set the status, -/
theorem Pc.shows_of_serves (h : l.serves = some o) : l.shows = some o := by
  cases l <;> simp_all [Pc.serves, Pc.shows]

/-- and one that has set it controls the object. -/
theorem Pc.controls_of_shows (h : l.shows = some o) : l.controls = some o := by
  cases l <;> simp_all [Pc.shows, Pc.controls]

/-- A place at which nothing has to be shown. -/
theorem Pc.shows_of_none {m : Pc} (hNone : l.shows = none) :
    ∀ o, l.shows = some o → m.shows = some o := by
  intro o hNew
  rw [hNone] at hNew
  cases hNew

/-- A step changes the stage of its own process, -/
theorem stage_update (hPc : s'.pc = Function.update s.pc t l) :
    stage s' = Function.update (stage s) t l.stage := by
  unfold stage
  rw [hPc, part_update Pc.stage]

/-- and which object is shown only by its own process. -/
theorem shows_update (hPc : s'.pc = Function.update s.pc t l) (hu : (s'.pc u).shows = some p) :
    (u = t ∧ l.shows = some p) ∨ (u ≠ t ∧ (s.pc u).shows = some p) := by
  rcases update_cases hPc u with ⟨hut, hAt⟩ | ⟨hut, hAt⟩ <;> rw [hAt] at hu
  · exact Or.inl ⟨hut, hu⟩
  · exact Or.inr ⟨hut, hu⟩

/-- A step that stores no status. -/
theorem Shows.move (h : Shows s q) (hPc : s'.pc = Function.update s.pc t l)
    (hShows : ∀ o, l.shows = some o → (s.pc t).shows = some o)
    (hStatus : ∀ o, (s'.shm o).status = (s.shm o).status) : Shows s' q := by
  intro c o hc
  rw [hStatus]
  rcases shows_update hPc hc with ⟨rfl, hNew⟩ | ⟨-, hOld⟩
  · exact h c o (hShows o hNew)
  · exact h c o hOld

/-- A step that neither begins nor ends an operation. -/
theorem moves_same (h : Shows s' q) (hPc : s'.pc = Function.update s.pc t l)
    (hStage : l.stage = (s.pc t).stage) (hCalls : calls a = none) (hRets : rets s a s' = none) :
    ∃ q', Shows s' q' ∧
      Moves register (stage s) q (calls a) (rets s a s') (stage s') q' := by
  refine ⟨q, h, ?_⟩
  have hSame : stage s' = stage s := by
    rw [stage_update hPc, hStage]
    exact Function.update_eq_self t (stage s)
  rw [hSame, hCalls, hRets]
  exact .stay

/-- A step that is neither a call nor an answer nor a store. -/
theorem moves_stay (h : Shows s q) (hPc : s'.pc = Function.update s.pc t l)
    (hShows : ∀ o, l.shows = some o → (s.pc t).shows = some o)
    (hStatus : ∀ o, (s'.shm o).status = (s.shm o).status) (hStage : l.stage = (s.pc t).stage)
    (hCalls : calls a = none) (hRets : rets s a s' = none) :
    ∃ q', Shows s' q' ∧
      Moves register (stage s) q (calls a) (rets s a s') (stage s') q' :=
  moves_same (h.move hPc hShows hStatus) hPc hStage hCalls hRets

omit [DecidableEq τ] in
/-- Locking and unlocking leave the status. -/
theorem status_setShm {m : Shm τ} (h : m.status = (s.shm o).status) (p : Nat) :
    ((s.setShm o m).shm p).status = (s.shm p).status := by
  have hAt : (s.setShm o m).shm = Function.update s.shm o m := rfl
  rcases update_cases hAt p with ⟨rfl, hp⟩ | ⟨-, hp⟩ <;> rw [hp]
  exact h

/-- One controller at most. -/
theorem Session.only (h : Session s) (ht : (s.pc t).controls = some o)
    (hu : (s.pc u).controls = some p) : u = t := by
  have hOutside : ∀ {c : τ}, (∀ v, v ≠ c → (s.pc v).Outside) → u = t := by
    intro c hOthers
    have hIs : ∀ {v : τ} {p : Nat}, (s.pc v).controls = some p → v = c := by
      intro v p hv
      by_contra hvc
      rw [(hOthers v hvc).1] at hv
      cases hv
    rw [hIs ht, hIs hu]
  cases h with
  | closed hNobody _ => exact hOutside (c := t) fun v _ => hNobody v
  | opening _ _ _ _ hOthers => exact hOutside hOthers
  | working hOpen => rw [(hOpen.eq_of_controls hu).1, (hOpen.eq_of_controls ht).1]
  | closing _ hOthers => exact hOutside hOthers

/-- What a device reads is what was set last. -/
theorem Session.status_read (h : Session s) (hShows : Shows s q)
    (hAttached : (s.pc t).attached = some o) : (s.shm o).status = q := by
  obtain ⟨c, hOpen⟩ := h.of_attached hAttached
  exact hShows c o (Pc.shows_of_serves (hOpen.ne_of_attached hAttached).2.2)

/-- A process calls an operation. -/
theorem moves_call (h : Shows s q) {r : Op} (hPc : s'.pc = Function.update s.pc t l)
    (hShows : ∀ o, l.shows = some o → (s.pc t).shows = some o) (hShm : s'.shm = s.shm)
    (hIdle : (s.pc t).stage = .idle) (hPending : l.stage = .pending r)
    (hCalls : calls a = some (t, r)) : ∃ q', Shows s' q' ∧
      Moves register (stage s) q (calls a) (rets s a s') (stage s') q' := by
  refine ⟨q, h.move hPc hShows fun o => by rw [hShm], ?_⟩
  rw [hCalls, stage_update hPc, hPending]
  exact .call hIdle

/-- An operation is answered. -/
theorem moves_ret (h : Shows s q) {result : Ret} (hPc : s'.pc = Function.update s.pc t l)
    (hShows : ∀ o, l.shows = some o → (s.pc t).shows = some o)
    (hStatus : ∀ o, (s'.shm o).status = (s.shm o).status)
    (hDone : (s.pc t).stage = .done result) (hIdle : l.stage = .idle)
    (hCalls : calls a = none) (hRets : rets s a s' = some (t, result)) : ∃ q', Shows s' q' ∧
      Moves register (stage s) q (calls a) (rets s a s') (stage s') q' := by
  refine ⟨q, h.move hPc hShows hStatus, ?_⟩
  rw [hCalls, hRets, stage_update hPc, hIdle]
  exact .ret hDone

/-- A status is stored or read. -/
theorem stage_pending {r : Op} (hPc : s'.pc = Function.update s.pc t l)
    (hPending : (s.pc t).stage = .pending r)
    (hDone : l.stage = .done (register.apply q r).2) (hCalls : calls a = none)
    (hRets : rets s a s' = none) : Moves register (stage s) q (calls a) (rets s a s') (stage s')
      (register.apply q r).1 := by
  rw [hCalls, hRets, stage_update hPc, hDone]
  exact .effect_only (O := register) hPending

/-- Every step in order is matched by the register: a command takes effect at its store, a
report at its load, both under the mutex. -/
theorem moves_effect (hSession : Session s) (hShows : Shows s q) (hok : InOrder s a)
    (h : Effect s a s') : ∃ q', Shows s' q' ∧
      Moves register (stage s) q (calls a) (rets s a s') (stage s') q' := by
  cases h with
  | @notOpened t program ok hIdle =>
    exact moves_stay hShows rfl (Pc.shows_of_none rfl) (fun _ => rfl) (by rw [hIdle]; rfl) rfl rfl
  | @opened t program ok p hIdle hName =>
    refine moves_stay (l := program.entry p) hShows rfl ?_ (fun _ => rfl) ?_ rfl rfl
    · cases program <;> exact Pc.shows_of_none rfl
    · rw [hIdle]
      cases program <;> rfl
  -- `InOrder`: a new object is created when no controller is there
  | @created t ok hIdle hName =>
    refine moves_same (t := t) (l := .truncate s.objects) ?_ rfl (by rw [hIdle]; rfl) rfl rfl
    intro u o hu
    have hNobody : (s.pc u).shows ≠ some o := by
      intro hOld
      have hControls := Pc.controls_of_shows hOld
      rw [hok u] at hControls
      cases hControls
    rcases shows_update (s := s) (t := t) (l := .truncate s.objects) rfl hu with
      ⟨-, hNew⟩ | ⟨-, hOld⟩
    · cases hNew
    · exact absurd hOld hNobody
  | @reset t o hpc =>
    exact moves_call hShows rfl (Pc.shows_of_none rfl) rfl (by rw [hpc]; rfl) rfl rfl
  | @leave t o input hpc hLeaves =>
    refine moves_stay hShows rfl ?_ (fun _ => rfl) (by rw [hpc]; rfl) (if_pos hLeaves) rfl
    intro p hp
    rw [hpc]
    exact hp
  | @command t o input command hpc hLeaves hParse =>
    refine moves_call (r := .set command.status) hShows rfl ?_ rfl (by rw [hpc]; rfl) rfl ?_
    · intro p hp
      rw [hpc]
      simp only [Pc.shows, Option.ite_none_left_eq_some] at hp ⊢
      exact hp.2
    · simp [calls, hLeaves, hParse]
  | @invalid t o input hpc hLeaves hParse =>
    refine moves_stay hShows rfl ?_ (fun _ => rfl) (by rw [hpc]) ?_ rfl
    · intro p hp
      rw [hpc]
      exact hp
    · simp [calls, hLeaves, hParse]
  | @poll t o hpc hRunning =>
    exact moves_call hShows rfl (Pc.shows_of_none rfl) rfl (by rw [hpc]; rfl) rfl rfl
  -- a command takes effect
  | @store t ok o command hpc =>
    have hStatus : ((s.setShm o { s.shm o with status := command.status }).shm o).status =
        command.status := by simp [State.setShm]
    refine ⟨command.status, ?_, ?_⟩
    · intro u p hu
      rcases shows_update (s := s) (t := t) (l := .unlock o command) rfl hu with
        ⟨-, hNew⟩ | ⟨hut, hOld⟩
      · obtain rfl : o = p := Option.some.inj hNew
        exact hStatus
      · have hOnly := hSession.only (t := t) (o := o) (by rw [hpc]; rfl) (Pc.controls_of_shows hOld)
        exact absurd hOnly hut
    · exact stage_pending (r := .set command.status) rfl (by rw [hpc]; rfl) rfl rfl
        (by simp [rets, hpc])
  -- and a report
  | @read t ok o hpc =>
    have hStatus := hSession.status_read hShows (t := t) (o := o) (by rw [hpc]; rfl)
    refine ⟨q, hShows.move rfl (Pc.shows_of_none rfl) fun _ => rfl, ?_⟩
    exact stage_pending (r := .get) rfl (by rw [hpc]; rfl) (by rw [hStatus]; rfl) rfl
      (by simp [rets, hpc])
  -- both are answered when the mutex is unlocked
  | @unlock t ok o command hpc =>
    refine moves_ret hShows rfl ?_ ?_ (by rw [hpc]; rfl) rfl rfl (by simp [rets, hpc])
    · intro p hp
      rw [hpc]
      exact hp
    · exact status_setShm rfl
  | @unlockRead t ok o status hpc =>
    exact moves_ret hShows rfl (Pc.shows_of_none rfl) (status_setShm rfl) (by rw [hpc]; rfl) rfl
      rfl (by simp [rets, hpc])
  | @lock t ok o command hpc hFree =>
    refine moves_stay hShows rfl ?_ (status_setShm rfl) (by rw [hpc]; rfl) rfl (by simp [rets, hpc])
    intro p hp
    rw [hpc]
    exact hp
  | @lockRead t ok o hpc hFree =>
    exact moves_stay hShows rfl (Pc.shows_of_none rfl) (status_setShm rfl) (by rw [hpc]; rfl) rfl
      (by simp [rets, hpc])
  | @truncate t o hpc =>
    exact moves_stay hShows rfl (Pc.shows_of_none rfl) (status_setShm rfl) (by rw [hpc]; rfl) rfl
      (by simp [rets, hpc])
  | @initMutex t o hpc =>
    exact moves_stay hShows rfl (Pc.shows_of_none rfl) (status_setShm rfl) (by rw [hpc]; rfl) rfl
      (by simp [rets, hpc])
  | @destroy t ok o hpc =>
    exact moves_stay hShows rfl (Pc.shows_of_none rfl) (status_setShm rfl) (by rw [hpc]; rfl) rfl
      (by simp [rets, hpc])
  -- nothing of the rest is seen by a user
  | @map t o hpc | @initAttr t o hpc | @destroyAttr t o hpc | @mapDevice t o hpc =>
    exact moves_stay hShows rfl (Pc.shows_of_none rfl) (fun _ => rfl) (by rw [hpc]; rfl) rfl
      (by simp [rets, hpc])
  | @endLoop t ok o hpc | @unmap t ok o hpc =>
    exact moves_stay hShows rfl (Pc.shows_of_none rfl) (fun _ => rfl) (by rw [hpc]; rfl) rfl
      (by simp [rets, hpc])
  | @unlink t ok o success hpc =>
    exact moves_stay hShows rfl (Pc.shows_of_none rfl) (fun _ => rfl) (by rw [hpc]; rfl) rfl
      (by simp [rets, hpc])
  | @fail t o hpc =>
    refine moves_stay (t := t) hShows rfl (Pc.shows_of_none rfl) (fun _ => rfl) ?_ rfl ?_ <;>
      rcases hpc with hpc | hpc | hpc <;> simp [rets, hpc, Pc.stage]
  | @undo t o hpc =>
    refine moves_stay (t := t) hShows rfl (Pc.shows_of_none rfl) (fun _ => rfl) ?_ rfl ?_ <;>
      rcases hpc with hpc | hpc | hpc <;> simp [rets, hpc, Pc.stage]
  | @interrupt t hRunning => exact ⟨q, hShows, .stay⟩
  -- a kill is not in order
  | kill => exact hok.elim

-- ---------------------------------------------------------------------------
-- The contract
-- ---------------------------------------------------------------------------

/-- The process has started and has not exited. -/
def Pc.isLive : Pc → Bool
  | .idle | .exited _ => false
  | _ => true

/-- The process can go on. -/
def GoesOn (s : State τ) (t : τ) : Prop :=
  ∃ a : Action τ, a.process = t ∧ InOrder s a ∧ (step s a).isSome = true

/-- A process that makes a step goes on. -/
theorem goesOn_run {b : Bool} (hUnlinks : (s.pc t).unlinks = true → b = true)
    (h : (run s t b).isSome = true) : GoesOn s t :=
  ⟨.run t b, rfl, hUnlinks, h⟩

/-- The process is at the mutex of the object, or in a critical section. -/
def Pc.uses : Pc → Option Nat
  | .lock o _ | .store o _ | .unlock o _ | .lockRead o | .read o | .unlockRead o _ => some o
  | _ => none

/-- An object that is used is that of an open session. -/
theorem Session.open_of_uses (h : Session s) (hUses : (s.pc t).uses = some o) :
    ∃ c, Open s c o := by
  have hObject : (s.pc t).controls = some o ∨ (s.pc t).attached = some o := by
    cases hpc : s.pc t <;> simp_all [Pc.uses, Pc.controls, Pc.attached]
  rcases hObject with hControls | hAttached
  · rcases h.of_controls hControls with ⟨b, hPrepares, -⟩ | hOpen | ⟨b, hpc⟩
    · cases hpc : s.pc t <;> simp_all [Pc.prepares, Pc.uses]
    · exact ⟨t, hOpen⟩
    · rw [hpc] at hUses
      cases hUses
  · exact h.of_attached hAttached

/-- A process without a fault can go on, or waits for the mutex. -/
theorem goesOn_or (hNeeds : ¬ Fault s t) (hLive : (s.pc t).isLive = true) : GoesOn s t ∨
    ∃ o, (s.pc t).uses = some o ∧ (s.pc t).holds = false ∧ (s.shm o).mutex ≠ .free := by
  unfold Fault at hNeeds
  rw [not_not] at hNeeds
  cases hpc : s.pc t <;> rw [hpc] at hNeeds hLive
  case idle => cases hLive
  case exited => cases hLive
  case ready o => exact Or.inl ⟨.reset t, rfl, trivial, by simp [step, hpc]⟩
  case ask o =>
    have hStays : InOrder s (.enter t (some [])) := by
      intro hLeaves
      cases hLeaves
    exact Or.inl ⟨.enter t (some []), rfl, hStays, by simp [step, hpc]⟩
  case loop o =>
    cases hRunning : s.keepRunning t
    · exact Or.inl (goesOn_run (b := true) (fun _ => rfl) (by simp [run, hpc, hRunning]))
    · exact Or.inl ⟨.poll t, rfl, trivial, by simp [step, hpc, hRunning]⟩
  case lock o command =>
    by_cases hFree : (s.shm o).mutex = .free
    · exact Or.inl (goesOn_run (b := true) (fun _ => rfl)
        (by simp [run, hpc, lock, hFree, hNeeds.1]))
    · exact Or.inr ⟨o, rfl, rfl, hFree⟩
  case lockRead o =>
    by_cases hFree : (s.shm o).mutex = .free
    · exact Or.inl (goesOn_run (b := true) (fun _ => rfl)
        (by simp [run, hpc, lock, hFree, hNeeds.1]))
    · exact Or.inr ⟨o, rfl, rfl, hFree⟩
  case initMutex o =>
    refine Or.inl (goesOn_run (b := true) (fun _ => rfl) ?_)
    obtain ⟨hSized, hMutex⟩ := hNeeds
    cases hm : (s.shm o).mutex <;> simp_all [run, Mutex.isLive]
  all_goals
    refine Or.inl (goesOn_run (b := true) (fun _ => rfl) ?_)
    simp_all [run, unlock, Pc.Needs]

/-- The owner of the mutex can go on. -/
theorem holder_runs (hNeeds : ¬ Fault s t) (hHolds : (s.pc t).holds = true) :
    (run s t true).isSome = true := by
  unfold Fault at hNeeds
  rw [not_not] at hNeeds
  cases hpc : s.pc t <;> simp_all [Pc.holds, run, unlock, Pc.Needs]

/-- So whoever cannot waits for it. -/
theorem Session.goesOn (h : Session s) (hLive : (s.pc t).isLive = true) : GoesOn s t ∨
    ∃ u, u ≠ t ∧ (s.pc u).holds = true ∧ (run s u true).isSome = true := by
  refine (goesOn_or (h.noFault t) hLive).imp_right ?_
  rintro ⟨o, hUses, hOut, hLocked⟩
  obtain ⟨c, hOpen⟩ := h.open_of_uses hUses
  obtain ⟨u, hut, hHolds⟩ := (hOpen.free_or hOut).resolve_left hLocked
  exact ⟨u, hut, hHolds, holder_runs (h.noFault u) hHolds⟩

/-- Two owners are one. -/
theorem Session.exclusive (h : Session s) (ht : (s.pc t).holds = true)
    (hu : (s.pc u).holds = true) : t = u := by
  obtain ⟨o, hUses⟩ : ∃ o, (s.pc t).uses = some o := by
    cases hpc : s.pc t <;> simp_all [Pc.holds, Pc.uses]
  obtain ⟨c, hOpen⟩ := h.open_of_uses hUses
  exact hOpen.guards.unique ht hu

/-- A step starts its own process only, -/
theorem idle_update (hPc : s'.pc = Function.update s.pc t l) (hStarted : l ≠ .idle)
    (hu : s'.pc u = .idle) : s.pc u = .idle := by
  rcases update_cases hPc u with ⟨-, hAt⟩ | ⟨-, hAt⟩ <;> rw [hAt] at hu
  · exact absurd hu hStarted
  · exact hu

/-- so what has not started is as it was. -/
theorem Effect.idle (h : Effect s a s') (hu : s'.pc u = .idle) :
    s.pc u = .idle ∧ s'.keepRunning u = s.keepRunning u := by
  cases h
  case opened t program ok o hIdle hName =>
    exact ⟨idle_update rfl (by cases program <;> simp [Program.entry]) hu, rfl⟩
  case interrupt t hRunning =>
    refine ⟨hu, Function.update_of_ne ?_ ..⟩
    rintro rfl
    exact hRunning hu
  all_goals exact ⟨idle_update rfl (by simp) hu, rfl⟩

/-- Nobody interrupts a process that has not started. -/
theorem idle_running (h : (system τ).ReachableWhere InOrder s) (hIdle : s.pc t = .idle) :
    s.keepRunning t = true := by
  refine h.invariant (I := fun s => ∀ t, s.pc t = .idle → s.keepRunning t = true)
    (fun _ _ => rfl) ?_ t hIdle
  intro s a s' _ hI _ hst u hu
  obtain ⟨hOld, hKept⟩ := (step_effect hst).idle hu
  rw [hKept]
  exact hI u hOld

/-- A controller that works has an open session. -/
theorem Session.open_of_works (h : Session s) (hWorks : (s.pc t).works = some o) :
    Open s t o := by
  rcases h.of_controls (Pc.controls_of_works hWorks).1 with ⟨b, hPrepares, -⟩ | hOpen | ⟨b, hpc⟩
  · cases hpc : s.pc t <;> simp_all [Pc.prepares, Pc.works]
  · exact hOpen
  · rw [hpc] at hWorks
    cases hWorks

/-- A device that starts before the mutex is initialized. -/
theorem early_device_fault (hName : s.name = some o) (hMutex : (s.shm o).mutex.isLive = false)
    (hIdle : s.pc u = .idle) (hRunning : s.keepRunning u = true) :
    ∃ s', (system τ).exec s [.start u .device true, .run u true, .poll u] = some s' ∧
      Fault s' u := by
  obtain ⟨s', hRun, hpc, hShm⟩ : ∃ s',
      (system τ).exec s [.start u .device true, .run u true, .poll u] = some s' ∧
      s'.pc u = .lockRead o ∧ s'.shm = s.shm := by
    simp [System.exec_cons, system, step, start, run, hIdle, hName, hRunning, Program.openShm,
      Program.entry, State.setPc, State.print]
  refine ⟨s', hRun, ?_⟩
  simp [Fault, hpc, hShm, Pc.Needs, hMutex]

/-- A second controller. -/
theorem second_controller_fault (hOpen : Open s t o) (hIdle : s.pc u = .idle) :
    ∃ s', (system τ).exec s [.start u .controller true, .run u true, .run u true, .run u true] =
      some s' ∧ Fault s' u := by
  have hName := hOpen.name
  obtain ⟨s', hRun, hpc, hMutex⟩ : ∃ s', (system τ).exec s
      [.start u .controller true, .run u true, .run u true, .run u true] = some s' ∧
      s'.pc u = .initMutex o ∧ (s'.shm o).mutex = (s.shm o).mutex := by
    simp [System.exec_cons, system, step, start, run, hIdle, hName, Program.openShm,
      Program.entry, State.setPc, State.setShm]
  refine ⟨s', hRun, ?_⟩
  simp [Fault, hpc, hMutex, Pc.Needs, hOpen.live]

/-- What the controller and the device do after the controller has left its loop. -/
def Leaving (t u : τ) (a : Action τ) : Prop :=
  a = .run t true ∨ a = .run u true ∨ a = .poll u

/-- A controller that leaves with a device attached. -/
theorem early_leave_fault (hOpen : Open s t o) (hpc : s.pc t = .ask o)
    (hAttached : (s.pc u).attached = some p) (hEnd : s.pc u ≠ .unmap p)
    (hRunning : s.keepRunning u = true) :
    ∃ as s', (∀ a ∈ as, Leaving t u a) ∧
      (system τ).exec s (.enter t none :: as) = some s' ∧ (Fault s' t ∨ Fault s' u) := by
  obtain ⟨hut, rfl, -⟩ := hOpen.ne_of_attached hAttached
  by_cases hFree : (s.shm p).mutex = .free
  · have hSized := hOpen.sized
    -- the device goes on to the lock of the mutex that the controller has destroyed
    have hOut : (s.pc u).holds = false := by
      by_contra hHolds
      rw [Bool.not_eq_false] at hHolds
      rw [hOpen.locked hHolds] at hFree
      cases hFree
    have hRun : ∃ as s', (∀ a ∈ as, Leaving t u a) ∧
        (system τ).exec s (.enter t none :: .run t true :: as) = some s' ∧
        s'.pc u = .lockRead p ∧ (s'.shm p).mutex = .destroyed := by
      cases hu : s.pc u with
      | mapDevice o =>
        obtain rfl : o = p := by simpa [hu, Pc.attached] using hAttached
        refine ⟨[.run u true, .poll u], ?_⟩
        simp [Leaving, System.exec_cons, system, step, enter, leaves, run, hpc, hu, hSized, hFree,
          hRunning,
          State.setPc, State.print, State.setMutex, State.setShm, hut, Function.update_of_ne]
      | loop o =>
        obtain rfl : o = p := by simpa [hu, Pc.attached] using hAttached
        refine ⟨[.poll u], ?_⟩
        simp [Leaving, System.exec_cons, system, step, enter, leaves, run, hpc, hu, hSized, hFree,
          hRunning,
          State.setPc, State.print, State.setMutex, State.setShm, hut, Function.update_of_ne]
      | lockRead o =>
        obtain rfl : o = p := by simpa [hu, Pc.attached] using hAttached
        refine ⟨[], ?_⟩
        simp [System.exec_cons, system, step, enter, leaves, run, hpc, hu, hSized, hFree,
          State.setPc, State.print, State.setMutex, State.setShm, hut, Function.update_of_ne]
      | _ => simp_all [Pc.attached, Pc.holds]
    obtain ⟨as, s', hOnly, hExec, hAt, hMutex⟩ := hRun
    refine ⟨.run t true :: as, s', ?_, hExec, Or.inr ?_⟩
    · exact List.forall_mem_cons.mpr ⟨Or.inl rfl, hOnly⟩
    · simp [Fault, hAt, Pc.Needs, hMutex, Mutex.isLive]
  · refine ⟨[], (s.print t .goodbye).setPc t (.destroy p), List.forall_mem_nil _, ?_, Or.inl ?_⟩
    · simp [System.exec_cons, system, step, enter, leaves, hpc]
    · simp [Fault, Pc.Needs, hFree]

/-- **The order is needed**: from every state that is reached in order, a process that does not
keep it has a schedule to a fault, in which only the processes named here take a step, -/
theorem order_needed (h : (system τ).ReachableWhere InOrder s) (t u : τ) :
    -- a device that starts while controller `t` prepares the object,
    (∀ o b, (s.pc t).prepares = some (o, b) → s.pc u = .idle →
      ∃ s', (system τ).exec s [.start u .device true, .run u true, .poll u] = some s' ∧
        Fault s' u) ∧
    -- a second controller that starts while `t` works on it,
    (∀ o, (s.pc t).works = some o → s.pc u = .idle →
      ∃ s', (system τ).exec s [.start u .controller true, .run u true, .run u true, .run u true] =
        some s' ∧ Fault s' u) ∧
    -- and a controller `t` that leaves its loop while device `u` goes on.
    (∀ o p, s.pc t = .ask o → (s.pc u).attached = some p → s.pc u ≠ .unmap p →
      s.keepRunning u = true →
      ∃ as s', (∀ a ∈ as, Leaving t u a) ∧
        (system τ).exec s (.enter t none :: as) = some s' ∧ (Fault s' t ∨ Fault s' u)) := by
  have hSession := session_reachable h
  refine ⟨?_, ?_, ?_⟩
  · intro o b hPrepares hIdle
    have hControls := (Pc.controls_of_prepares hPrepares).1
    rcases hSession.of_controls hControls with ⟨_, -, hName, hMutex⟩ | hOpen | ⟨_, hpc⟩
    · exact early_device_fault hName hMutex hIdle (idle_running h hIdle)
    · have hWorks := hOpen.works
      cases hpc : s.pc t <;> simp_all [Pc.prepares, Pc.works]
    · rw [hpc] at hPrepares
      cases hPrepares
  · intro o hWorks hIdle
    exact second_controller_fault (hSession.open_of_works hWorks) hIdle
  · intro o p hpc hAttached hEnd hRunning
    exact early_leave_fault (hSession.open_of_works (by rw [hpc]; rfl)) hpc hAttached hEnd hRunning

/-- A controller leaves its loop, and a device is in its own. -/
theorem order_needed_leave :
    ∃ s : State Bool, (system Bool).ReachableWhere InOrder s ∧ s.pc false = .ask 0 ∧
      s.pc true = .loop 0 ∧
      ∃ as s', (∀ a ∈ as, Leaving false true a) ∧
        (system Bool).exec s (.enter false none :: as) = some s' ∧
        (Fault s' false ∨ Fault s' true) := by
  obtain ⟨s, hs, hpc, hLoop, hRunning⟩ := System.exists_reachableWhere_of_exec
    (S := system Bool) (c := fun s a => decide (InOrder s a)) (fun _ _ => of_decide_eq_true)
    (p := fun s => s.pc false = .ask 0 ∧ s.pc true = .loop 0 ∧ s.keepRunning true = true)
    (List.flatten [[Action.start false .controller true], List.replicate 5 (.run false true),
      [.reset false], List.replicate 3 (.run false true),
      [.start true .device true, .run true true]])
    (by decide +kernel)
  exact ⟨s, hs, hpc, hLoop, (order_needed hs false true).2.2 0 0 hpc (by rw [hLoop]; rfl)
    (by simp [hLoop]) hRunning⟩

end EmbLinux.Session09.DeviceControl
