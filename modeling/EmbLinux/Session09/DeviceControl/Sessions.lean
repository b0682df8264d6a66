import EmbLinux.Lib.Mutex
import EmbLinux.Session09.DeviceControl.Steps

/-!
# EmbLinux — the sessions of `/device_shm`

A session is the life of one controller: it opens an object and prepares it, works on it with
the devices that are attached, and takes its name away. With the programs in order, each
reachable state is in one of these phases (`session_reachable`), and no process is at a fault
in any of them.
-/

namespace EmbLinux.Session09.DeviceControl

-- ---------------------------------------------------------------------------
-- The phases
-- ---------------------------------------------------------------------------

/-- The process has no object open. -/
def Pc.Outside (pc : Pc) : Prop := pc.controls = none ∧ pc.attached = none

/-- Before the initialization of the mutex; the flag says that the object has its size. -/
def Pc.prepares : Pc → Option (Nat × Bool)
  | .truncate o => some (o, false)
  | .map o | .initAttr o | .initMutex o => some (o, true)
  | _ => none

/-- From the initialization of the mutex to its destruction. -/
def Pc.works : Pc → Option Nat
  | .destroyAttr o | .ready o | .lock o _ | .store o _ | .unlock o _ | .ask o | .destroy o => some o
  | _ => none

/-- In a critical section. -/
def Pc.holds : Pc → Bool
  | .store _ _ | .unlock _ _ | .read _ | .unlockRead _ _ => true
  | _ => false

/-- The process that has locked the mutex. -/
def Mutex.owner : Mutex τ → Option τ
  | .locked t => some t
  | _ => none

/-- Controller `c` works on object `o`, and so do all devices. -/
structure Open (s : State τ) (c : τ) (o : Nat) : Prop where
  /-- The controller of the session works on the object, -/
  works : (s.pc c).works = some o
  /-- whose name is there, -/
  name : s.name = some o
  sized : (s.shm o).sized = true
  /-- and whose mutex is initialized. -/
  live : (s.shm o).mutex.isLive = true
  /-- The owner of the mutex is the process in a critical section. -/
  guards : Guards (s.shm o).mutex.owner fun t => (s.pc t).holds
  /-- There is no other controller, -/
  others : ∀ t, t ≠ c → (s.pc t).controls = none
  /-- and who is attached is attached to this object. -/
  attached : ∀ t p, (s.pc t).attached = some p → p = o ∧ (s.pc c).serves = some o

/-- Between two controllers; a controller that prepares its object, or works with it, beside
devices; a controller that is about to remove the name. -/
inductive Session (s : State τ) : Prop
  | closed (hOutside : ∀ t, (s.pc t).Outside)
      (hMutex : ∀ o, s.name = some o → (s.shm o).mutex.isLive = false)
  | opening {c : τ} {o : Nat} {b : Bool} (hPrepares : (s.pc c).prepares = some (o, b))
      (hName : s.name = some o) (hSized : b = true → (s.shm o).sized = true)
      (hMutex : (s.shm o).mutex.isLive = false) (hOutside : ∀ t, t ≠ c → (s.pc t).Outside)
  | working {c : τ} {o : Nat} (hOpen : Open s c o)
  | closing {c : τ} {o : Nat} {b : Bool} (hpc : s.pc c = .unlink o b)
      (hOutside : ∀ t, t ≠ c → (s.pc t).Outside)

/-- The process that an action is of. -/
def Action.process : Action τ → τ
  | .start t _ _ | .reset t | .enter t _ | .poll t | .run t _ | .interrupt t | .kill t => t

variable {τ : Type*} [DecidableEq τ] {s s' : State τ} {t u c : τ} {a : Action τ} {ok : Bool}
  {o p : Nat} {l : Pc} {m : Mutex τ}

-- ---------------------------------------------------------------------------
-- The objects
-- ---------------------------------------------------------------------------

@[simp] theorem setPc_pc : (s.setPc t l).pc = Function.update s.pc t l := rfl

@[simp] theorem setPc_shm : (s.setPc t l).shm = s.shm := rfl

@[simp] theorem setPc_name : (s.setPc t l).name = s.name := rfl

section

omit [DecidableEq τ]

@[simp] theorem print_shm {line : Line} : (s.print t line).shm = s.shm := rfl

@[simp] theorem print_pc {line : Line} : (s.print t line).pc = s.pc := rfl

@[simp] theorem setMutex_self : (s.setMutex o m).shm o = { s.shm o with mutex := m } :=
  Function.update_self ..

@[simp] theorem setMutex_pc : (s.setMutex o m).pc = s.pc := rfl

/-- Nobody owns a free mutex. -/
theorem Mutex.owner_of_free (h : m = .free) : m.owner = none := by
  rw [h]
  rfl

/-- A live mutex is free, or locked by its owner. -/
theorem Mutex.eq_of_live (h : m.isLive = true) : m = .free ∧ m.owner = none ∨
    ∃ t, m = .locked t ∧ m.owner = some t := by
  cases m with
  | uninitialized => cases h
  | free => exact Or.inl ⟨rfl, rfl⟩
  | locked t => exact Or.inr ⟨t, rfl, rfl⟩
  | destroyed => cases h

end

/-- A controller that works controls its object and is no device, -/
theorem Pc.controls_of_works (h : l.works = some o) : l.controls = some o ∧ l.attached = none := by
  cases l <;> simp_all [Pc.works, Pc.controls, Pc.attached]

/-- nor is one that prepares it, -/
theorem Pc.controls_of_prepares {sized : Bool} (h : l.prepares = some (o, sized)) :
    l.controls = some o ∧ l.attached = none ∧ l.serves = none ∧ l.holds = false := by
  cases l <;> simp_all [Pc.prepares, Pc.controls, Pc.attached, Pc.serves, Pc.holds]

/-- and one in its loop controls it as well. -/
theorem Pc.controls_of_serves (h : l.serves = some o) : l.controls = some o := by
  cases l <;> simp_all [Pc.serves, Pc.controls]

/-- A critical section is one of the controller or of a device. -/
theorem Pc.object_of_holds (h : l.holds = true) : l.controls ≠ none ∨ l.attached ≠ none := by
  cases l <;> simp_all [Pc.holds, Pc.controls, Pc.attached]

/-- A process outside holds no mutex. -/
theorem Pc.Outside.holds (h : l.Outside) : l.holds = false := by
  cases hHolds : l.holds with
  | false => rfl
  | true => rcases Pc.object_of_holds hHolds with h' | h' <;> simp_all [Pc.Outside]

-- ---------------------------------------------------------------------------
-- The steps
-- ---------------------------------------------------------------------------

/-- A process that has no object open starts, or takes note of an interrupt. -/
theorem Effect.of_outside (h : Effect s a s') (hok : InOrder s a)
    (hOutside : (s.pc a.process).Outside) : (∃ program ok, a = .start a.process program ok) ∨
      ∃ k, s' = { s with keepRunning := k } := by
  cases h
  case notOpened t program ok hIdle => exact Or.inl ⟨program, ok, rfl⟩
  case opened t program ok o hIdle hName => exact Or.inl ⟨program, ok, rfl⟩
  case created t ok hIdle hName => exact Or.inl ⟨.controller, ok, rfl⟩
  case interrupt t => exact Or.inr ⟨_, rfl⟩
  case kill t => exact hok.elim
  case fail t o hpc =>
    rcases hpc with hpc | hpc | hpc <;>
      simp_all [Pc.Outside, Action.process, Pc.controls, Pc.attached]
  case undo t o hpc =>
    rcases hpc with hpc | hpc | hpc <;>
      simp_all [Pc.Outside, Action.process, Pc.controls, Pc.attached]
  all_goals simp_all [Pc.Outside, Action.process, Pc.controls, Pc.attached]

omit [DecidableEq τ] in
/-- Beside a controller that is not in its loop no process starts. -/
theorem not_start {program : Program} (hControls : (s.pc c).controls ≠ none)
    (hServes : ∀ u, (s.pc u).serves = none) : ¬ InOrder s (.start t program ok) := by
  intro hok
  cases program with
  | controller => exact hControls (hok c)
  | device =>
    obtain ⟨u, hu⟩ := hok
    rw [hServes u] at hu
    cases hu

/-- No process outside serves. -/
theorem serves_of_outside (h : ∀ t, t ≠ c → (s.pc t).Outside) (hServes : (s.pc c).serves = none)
    (u : τ) : (s.pc u).serves = none := by
  by_cases hu : u = c
  · rw [hu, hServes]
  · cases hSome : (s.pc u).serves with
    | none => rfl
    | some o =>
      have hControls := Pc.controls_of_serves hSome
      rw [(h u hu).1] at hControls
      cases hControls

omit [DecidableEq τ] in
/-- The session is not touched. -/
theorem Session.congr (h : Session s) (hPc : s'.pc = s.pc) (hShm : s'.shm = s.shm)
    (hName : s'.name = s.name) : Session s' := by
  cases h with
  | closed hOutside hMutex => exact .closed (hPc ▸ hOutside) (hShm ▸ hName ▸ hMutex)
  | opening hPrepares hName' hSized hMutex hOutside =>
    exact .opening (hPc ▸ hPrepares) (hName ▸ hName') (hShm ▸ hSized) (hShm ▸ hMutex)
      (hPc ▸ hOutside)
  | working hOpen =>
    exact .working ⟨hPc ▸ hOpen.works, hName ▸ hOpen.name, hShm ▸ hOpen.sized, hShm ▸ hOpen.live,
      hPc ▸ hShm ▸ hOpen.guards, hPc ▸ hOpen.others, hPc ▸ hOpen.attached⟩
  | closing hpc hOutside => exact .closing (hPc ▸ hpc) (hPc ▸ hOutside)

/-- A step of the controller leaves the others outside, -/
theorem outside_update (hOutside : ∀ t, t ≠ c → (s.pc t).Outside)
    (hPc : s'.pc = Function.update s.pc c l) (t : τ) (ht : t ≠ c) : (s'.pc t).Outside := by
  rw [hPc, Function.update_of_ne ht]
  exact hOutside t ht

/-- and if it exits, all are. -/
theorem outside_all (hOutside : ∀ t, t ≠ c → (s.pc t).Outside)
    (hPc : s'.pc = Function.update s.pc c l) (hExit : l.Outside) (t : τ) : (s'.pc t).Outside := by
  by_cases ht : t = c
  · rw [hPc, ht, Function.update_self]
    exact hExit
  · exact outside_update hOutside hPc t ht

/-- **Opening.** The step of a process when nobody has an object open. -/
theorem closed_effect (hOutside : ∀ t, (s.pc t).Outside)
    (hMutex : ∀ o, s.name = some o → (s.shm o).mutex.isLive = false) (hok : InOrder s a)
    (h : Effect s a s') : Session s' := by
  rcases h.of_outside hok (hOutside _) with ⟨program, ok, ha⟩ | ⟨k, rfl⟩
  · have hOthers : ∀ u, u ≠ a.process → (s.pc u).Outside := fun u _ => hOutside u
    rw [ha] at h hok
    cases program with
    | device =>
      obtain ⟨u, hu⟩ := hok
      obtain ⟨o, ho⟩ := Option.isSome_iff_exists.mp hu
      have hControls := Pc.controls_of_serves ho
      rw [(hOutside u).1] at hControls
      cases hControls
    | controller =>
      cases h with
      | notOpened hIdle => exact .closed (outside_all hOthers rfl ⟨rfl, rfl⟩) hMutex
      | @opened _ _ _ o hIdle hName =>
        refine .opening (c := a.process) (o := o) (b := false) ?_ hName nofun (hMutex o hName)
          (outside_update hOthers rfl)
        rw [setPc_pc, Function.update_self]
        rfl
      | created hIdle hName =>
        refine .opening (c := a.process) (o := s.objects) (b := false) ?_ rfl nofun ?_
          (outside_update hOthers rfl)
        · rw [setPc_pc, Function.update_self]
          rfl
        · simp [State.setPc, State.setShm, Mutex.isLive]
  · exact .closed hOutside hMutex

/-- Beside a controller that is not in its loop the others do nothing. -/
theorem effect_of_other (hOutside : ∀ t, t ≠ c → (s.pc t).Outside)
    (hControls : (s.pc c).controls ≠ none) (hServes : (s.pc c).serves = none) (hok : InOrder s a)
    (h : Effect s a s') : a.process = c ∨ ∃ k, s' = { s with keepRunning := k } := by
  by_cases hac : a.process = c
  · exact Or.inl hac
  · refine Or.inr ((h.of_outside hok (hOutside _ hac)).resolve_left ?_)
    rintro ⟨program, ok, ha⟩
    rw [ha] at hok
    exact not_start hControls (serves_of_outside hOutside hServes) hok

/-- The exit of the last controller closes the session. -/
theorem Session.exit (hName : s.name = some o) (hMutex : (s.shm o).mutex.isLive = false)
    (hOutside : ∀ t, t ≠ c → (s.pc t).Outside) (success : Bool) :
    Session (s.setPc c (.exited success)) := by
  refine .closed (outside_all hOutside rfl ⟨rfl, rfl⟩) ?_
  intro o' hName'
  obtain rfl : o = o' := Option.some.inj (hName.symm.trans hName')
  exact hMutex

/-- Nobody else has the object open when its mutex is initialized. -/
theorem open_initMutex (hName : s.name = some o)
    (hSized : (s.shm o).sized = true) (hOutside : ∀ t, t ≠ c → (s.pc t).Outside) :
    Open ((s.setMutex o .free).setPc c (.destroyAttr o)) c o where
  works := by
    rw [setPc_pc, Function.update_self]
    rfl
  name := hName
  sized := by simpa using hSized
  live := by
    rw [setPc_shm, setMutex_self]
    rfl
  guards := by
    intro t
    have hNot : ((Function.update s.pc c (.destroyAttr o)) t).holds = false := by
      rcases update_at s.pc c (.destroyAttr o) t with ⟨-, ht⟩ | ⟨htc, ht⟩ <;> rw [ht]
      · rfl
      · exact (hOutside t htc).holds
    simp [Mutex.owner, hNot]
  others := fun t ht => (outside_update (s := s) hOutside rfl t ht).1
  attached := by
    intro t p hp
    by_cases htc : t = c
    · rw [htc, setPc_pc, Function.update_self] at hp
      cases hp
    · rw [(outside_update (s := s) hOutside rfl t htc).2] at hp
      cases hp

/-- **Preparing.** -/
theorem opening_effect {sized : Bool} (hPrepares : (s.pc c).prepares = some (o, sized))
    (hName : s.name = some o) (hSized : sized = true → (s.shm o).sized = true)
    (hMutex : (s.shm o).mutex.isLive = false) (hOutside : ∀ t, t ≠ c → (s.pc t).Outside)
    (hok : InOrder s a) (h : Effect s a s') : Session s' := by
  have hSession : Session s := .opening hPrepares hName hSized hMutex hOutside
  obtain ⟨hControls, hAttached, hServes, -⟩ := Pc.controls_of_prepares hPrepares
  rcases effect_of_other hOutside (by simp [hControls]) hServes hok h with hc | ⟨k, rfl⟩
  · subst hc
    cases h
    case fail t o' hpc =>
      exact .exit hName hMutex hOutside false
    case truncate t o' hpc =>
      simp only [Action.process, hpc, Pc.prepares, Option.some.injEq, Prod.mk.injEq] at hPrepares
      obtain ⟨rfl, rfl⟩ := hPrepares
      refine .opening (c := t) (o := o') (b := true) ?_ hName ?_ ?_ (outside_update hOutside rfl)
      · simp [Pc.prepares]
      · simp [State.setPc, State.setShm]
      · simpa [State.setPc, State.setShm] using hMutex
    case map t o' hpc =>
      simp only [Action.process, hpc, Pc.prepares, Option.some.injEq, Prod.mk.injEq] at hPrepares
      obtain ⟨rfl, rfl⟩ := hPrepares
      refine .opening (c := t) (o := o') (b := true) ?_ hName hSized hMutex
        (outside_update hOutside rfl)
      simp [Pc.prepares]
    case initAttr t o' hpc =>
      simp only [Action.process, hpc, Pc.prepares, Option.some.injEq, Prod.mk.injEq] at hPrepares
      obtain ⟨rfl, rfl⟩ := hPrepares
      refine .opening (c := t) (o := o') (b := true) ?_ hName hSized hMutex
        (outside_update hOutside rfl)
      simp [Pc.prepares]
    case initMutex t o' hpc =>
      simp only [Action.process, hpc, Pc.prepares, Option.some.injEq, Prod.mk.injEq] at hPrepares
      obtain ⟨rfl, rfl⟩ := hPrepares
      exact .working (open_initMutex hName (hSized rfl) hOutside)
    case undo t o' hpc =>
      exact .closing (c := t) (o := o') (b := false) (by simp) (outside_update hOutside rfl)
    case interrupt t => exact hSession.congr rfl rfl rfl
    case kill t => exact hok.elim
    all_goals simp_all [Action.process, Pc.prepares]
  · exact hSession.congr rfl rfl rfl

/-- **Closing.** -/
theorem closing_effect {success : Bool} (hpc : s.pc c = .unlink o success)
    (hOutside : ∀ t, t ≠ c → (s.pc t).Outside) (hok : InOrder s a) (h : Effect s a s') :
    Session s' := by
  have hSession : Session s := .closing hpc hOutside
  rcases effect_of_other hOutside (by simp [hpc, Pc.controls]) (by simp [hpc, Pc.serves]) hok h with
    hc | ⟨k, rfl⟩
  · subst hc
    cases h
    case unlink t ok o' success' hpc' =>
      have hOk : ok = true := hok (by rw [hpc']; rfl)
      refine .closed (outside_all hOutside rfl ⟨rfl, rfl⟩) ?_
      intro o'' hName
      simp [hOk] at hName
    case fail t o' hpc' =>
      rcases hpc' with hpc' | hpc' | hpc' <;> simp_all [Action.process]
    case undo t o' hpc' =>
      rcases hpc' with hpc' | hpc' | hpc' <;> simp_all [Action.process]
    case interrupt t => exact hSession.congr rfl rfl rfl
    case kill t => exact hok.elim
    all_goals simp_all [Action.process]
  · exact hSession.congr rfl rfl rfl

-- ---------------------------------------------------------------------------
-- Working
-- ---------------------------------------------------------------------------

/-- The controller goes on. -/
theorem Open.own (h : Open s c o) (hPc : s'.pc = Function.update s.pc c l)
    (hWorks : l.works = some o)
    (hServes : l.serves = some o ∨ ∀ u, (s.pc u).attached = none)
    (hName : s'.name = s.name) (hSized : (s'.shm o).sized = true)
    (hLive : (s'.shm o).mutex.isLive = true)
    (hMove : LockMove c (s.shm o).mutex.owner (s'.shm o).mutex.owner (s.pc c).holds l.holds) :
    Open s' c o where
  works := by rw [hPc, Function.update_self, hWorks]
  name := hName.trans h.name
  sized := hSized
  live := hLive
  guards := h.guards.move_part hPc hMove
  others := by
    intro t ht
    rw [hPc, Function.update_of_ne ht]
    exact h.others t ht
  attached := by
    intro t p hp
    rcases update_cases hPc t with ⟨-, ht⟩ | ⟨-, ht⟩ <;> rw [ht] at hp
    · rw [(Pc.controls_of_works hWorks).2] at hp
      cases hp
    · rcases hServes with hServes | hNobody
      · refine ⟨(h.attached t p hp).1, ?_⟩
        rw [hPc, Function.update_self, hServes]
      · rw [hNobody t] at hp
        cases hp

/-- Another process goes on. -/
theorem Open.device (h : Open s c o) (htc : t ≠ c) (hPc : s'.pc = Function.update s.pc t l)
    (hControls : l.controls = none)
    (hAttached : ∀ p, l.attached = some p → p = o ∧ (s.pc c).serves = some o)
    (hName : s'.name = s.name) (hSized : (s'.shm o).sized = true)
    (hLive : (s'.shm o).mutex.isLive = true)
    (hMove : LockMove t (s.shm o).mutex.owner (s'.shm o).mutex.owner (s.pc t).holds l.holds) :
    Open s' c o := by
  have hc : s'.pc c = s.pc c := by rw [hPc, Function.update_of_ne (Ne.symm htc)]
  refine ⟨hc ▸ h.works, hName.trans h.name, hSized, hLive, h.guards.move_part hPc hMove, ?_, ?_⟩
  · exact fun u hu => by
      rcases update_cases hPc u with ⟨-, hAt⟩ | ⟨-, hAt⟩ <;> rw [hAt]
      · exact hControls
      · exact h.others u hu
  · intro u p hp
    rw [hc]
    rcases update_cases hPc u with ⟨-, hAt⟩ | ⟨-, hAt⟩ <;> rw [hAt] at hp
    · exact hAttached p hp
    · exact h.attached u p hp

omit [DecidableEq τ] in
/-- Before the first command nobody is attached. -/
theorem Open.nobody (h : Open s c o) (hServes : (s.pc c).serves = none) (u : τ) :
    (s.pc u).attached = none := by
  cases hAttached : (s.pc u).attached with
  | none => rfl
  | some p =>
    have hSome := (h.attached u p hAttached).2
    rw [hServes] at hSome
    cases hSome

/-- The controller is done with the object. -/
theorem Open.close (h : Open s c o) (hNobody : ∀ u, (s.pc u).attached = none) {success : Bool}
    (hPc : s'.pc = Function.update s.pc c (.unlink o success)) : Session s' := by
  refine .closing (c := c) (o := o) (b := success) ?_ ?_
  · rw [hPc, Function.update_self]
  · intro t ht
    rw [hPc, Function.update_of_ne ht]
    exact ⟨h.others t ht, hNobody t⟩

/-- The controller is the process that controls. -/
theorem Open.eq_of_controls (h : Open s c o) (hControls : (s.pc t).controls = some p) :
    t = c ∧ p = o := by
  by_cases htc : t = c
  · subst htc
    rw [(Pc.controls_of_works h.works).1] at hControls
    exact ⟨rfl, (Option.some.inj hControls).symm⟩
  · rw [h.others t htc] at hControls
    cases hControls

omit [DecidableEq τ] in
/-- A device is not the controller. -/
theorem Open.ne_of_attached (h : Open s c o) (hAttached : (s.pc t).attached = some p) :
    t ≠ c ∧ p = o ∧ (s.pc c).serves = some o := by
  refine ⟨?_, h.attached t p hAttached⟩
  rintro rfl
  rw [(Pc.controls_of_works h.works).2] at hAttached
  cases hAttached

/-- A step of the controller that changes no object keeps the session open, -/
theorem Open.ownStay (h : Open s c o) (hPc : s'.pc = Function.update s.pc c l)
    (hWorks : l.works = some o)
    (hServes : l.serves = some o ∨ ∀ u, (s.pc u).attached = none) (hName : s'.name = s.name)
    (hShm : s'.shm = s.shm) (hSame : (s.pc c).holds = l.holds) : Session s' := by
  refine .working (h.own hPc hWorks hServes hName (hShm ▸ h.sized) (hShm ▸ h.live) ?_)
  rw [hShm, hSame]
  exact .keep

/-- and so does one of a device. -/
theorem Open.deviceStay (h : Open s c o) (htc : t ≠ c) (hPc : s'.pc = Function.update s.pc t l)
    (hControls : l.controls = none)
    (hAttached : ∀ p, l.attached = some p → p = o ∧ (s.pc c).serves = some o)
    (hName : s'.name = s.name) (hShm : s'.shm = s.shm) (hSame : (s.pc t).holds = l.holds) :
    Session s' := by
  refine .working (h.device htc hPc hControls hAttached hName (hShm ▸ h.sized) (hShm ▸ h.live) ?_)
  rw [hShm, hSame]
  exact .keep

/-- No input is the reset that the controller begins with. -/
theorem parse_ne_reset {input : List Char} {command : Command} (h : parse input = some command) :
    command ≠ .reset := by
  unfold parse at h
  rintro rfl
  split at h
  · cases h
  · split at h <;> cases h

/-- The process locks the mutex. -/
theorem locks (hFree : (s.shm o).mutex = .free) : LockMove t (s.shm o).mutex.owner
    (((s.setMutex o (.locked t)).setPc t l).shm o).mutex.owner (s.pc t).holds true := by
  rw [Mutex.owner_of_free hFree, setPc_shm, setMutex_self]
  exact .lock

/-- The process unlocks it. -/
theorem unlocks {line : Line} (hIn : (s.pc t).holds = true) : LockMove t (s.shm o).mutex.owner
    ((((s.setMutex o .free).print t line).setPc t l).shm o).mutex.owner (s.pc t).holds false := by
  rw [hIn, setPc_shm, print_shm, setMutex_self]
  exact .unlock

/-- The devices stay as long as the controller does not leave its loop. -/
theorem Open.keepServes (h : Open s c o) (hSame : l.serves = (s.pc c).serves) :
    l.serves = some o ∨ ∀ u, (s.pc u).attached = none := by
  cases hServes : (s.pc c).serves with
  | none => exact Or.inr (h.nobody hServes)
  | some p =>
    obtain ⟨-, rfl⟩ := h.eq_of_controls (Pc.controls_of_serves hServes)
    exact Or.inl (hSame.trans hServes)

/-- **Working: the controller.** -/
theorem open_controller (hOpen : Open s c o) (hok : InOrder s a) (h : Effect s a s')
    (hc : a.process = c) : Session s' := by
  subst hc
  have hWorks := hOpen.works
  cases h
  case reset t p hpc =>
    obtain rfl : p = o := by simpa [Action.process, hpc, Pc.works] using hWorks
    exact hOpen.ownStay rfl rfl (Or.inr (hOpen.nobody (by simp [Action.process, hpc, Pc.serves])))
      rfl rfl (by simp [Action.process, hpc, Pc.holds])
  case leave t p input hpc hLeaves =>
    obtain rfl : p = o := by simpa [Action.process, hpc, Pc.works] using hWorks
    exact hOpen.ownStay rfl rfl (Or.inr (hok hLeaves)) rfl rfl
      (by simp [Action.process, hpc, Pc.holds])
  case command t p input command hpc hLeaves hParse =>
    obtain rfl : p = o := by simpa [Action.process, hpc, Pc.works] using hWorks
    obtain ⟨text, -, hText⟩ := Option.bind_eq_some_iff.mp hParse
    exact hOpen.ownStay rfl rfl (Or.inl (if_neg (parse_ne_reset hText))) rfl rfl
      (by simp [Action.process, hpc, Pc.holds])
  case invalid t p input hpc hLeaves hParse =>
    obtain rfl : p = o := by simpa [Action.process, hpc, Pc.works] using hWorks
    exact hOpen.ownStay rfl rfl (Or.inl rfl) rfl rfl (by simp [Action.process, hpc, Pc.holds])
  case undo t p hpc =>
    rcases hpc with hpc | hpc | hpc
    · simp [Action.process, hpc, Pc.works] at hWorks
    · simp [Action.process, hpc, Pc.works] at hWorks
    · obtain rfl : p = o := by simpa [Action.process, hpc, Pc.works] using hWorks
      exact hOpen.close (hOpen.nobody (by simp [Action.process, hpc, Pc.serves])) rfl
  case destroyAttr t p hpc =>
    obtain rfl : p = o := by simpa [Action.process, hpc, Pc.works] using hWorks
    exact hOpen.ownStay rfl rfl (Or.inr (hOpen.nobody (by simp [Action.process, hpc, Pc.serves])))
      rfl rfl (by simp [Action.process, hpc, Pc.holds])
  case lock t ok p command hpc hFree =>
    obtain rfl : p = o := by simpa [Action.process, hpc, Pc.works] using hWorks
    refine .working (hOpen.own (l := .store p command) rfl rfl (hOpen.keepServes ?_) rfl ?_ ?_
      (locks hFree))
    · simp [Action.process, hpc, Pc.serves]
    · simpa using hOpen.sized
    · simp [Mutex.isLive]
  case store t ok p command hpc =>
    obtain rfl : p = o := by simpa [Action.process, hpc, Pc.works] using hWorks
    refine .working (hOpen.own (l := .unlock p command) rfl rfl (hOpen.keepServes ?_) rfl ?_ ?_ ?_)
    · simp [Action.process, hpc, Pc.serves]
    · simpa [State.setShm] using hOpen.sized
    · simpa [State.setShm] using hOpen.live
    · simp [State.setShm, Action.process, hpc, Pc.holds]
      exact .keep
  case unlock t ok p command hpc =>
    obtain rfl : p = o := by simpa [Action.process, hpc, Pc.works] using hWorks
    refine .working (hOpen.own (l := .ask p) rfl rfl (Or.inl rfl) rfl ?_ ?_ (unlocks ?_))
    · simpa using hOpen.sized
    · simp [Mutex.isLive]
    · simp [Action.process, hpc, Pc.holds]
  case destroy t ok p hpc =>
    obtain rfl : p = o := by simpa [Action.process, hpc, Pc.works] using hWorks
    exact hOpen.close (hOpen.nobody (by simp [Action.process, hpc, Pc.serves])) rfl
  case fail t p hpc =>
    rcases hpc with hpc | hpc | hpc <;> simp [Action.process, hpc, Pc.works] at hWorks
  case kill t => exact hok.elim
  case interrupt t => exact (Session.working hOpen).congr rfl rfl rfl
  all_goals simp_all [Action.process, Pc.works]

/-- A process that has no object open has started, beside the controller. -/
theorem open_start {program : Program} (hOpen : Open s c o) (hok : InOrder s (.start t program ok))
    (h : Effect s (.start t program ok) s') : Session s' := by
  have hIdle : s.pc t = .idle := by cases h <;> assumption
  have htc : t ≠ c := by
    rintro rfl
    simpa [hIdle, Pc.works] using hOpen.works
  cases h with
  | notOpened => exact hOpen.deviceStay htc rfl rfl nofun rfl rfl (by rw [hIdle]; rfl)
  | @opened _ _ _ p _ hName =>
    obtain rfl : o = p := Option.some.inj (hOpen.name.symm.trans hName)
    cases program with
    | controller =>
      have hNone := hok c
      rw [(Pc.controls_of_works hOpen.works).1] at hNone
      cases hNone
    | device =>
      obtain ⟨u, hu⟩ := hok
      obtain ⟨p, hServes⟩ := Option.isSome_iff_exists.mp hu
      obtain ⟨rfl, rfl⟩ := hOpen.eq_of_controls (Pc.controls_of_serves hServes)
      exact hOpen.deviceStay htc rfl rfl (fun q hq => ⟨(Option.some.inj hq).symm, hServes⟩) rfl rfl
        (by rw [hIdle]; rfl)
  | created _ hName =>
    rw [hOpen.name] at hName
    cases hName

/-- **Working: a device.** -/
theorem open_device (hOpen : Open s c o) (hok : InOrder s a) (h : Effect s a s')
    (hc : a.process ≠ c) : Session s' := by
  have hControls := hOpen.others _ hc
  have hDevice : ∀ p, (s.pc a.process).attached = some p → p = o ∧ (s.pc c).serves = some o :=
    hOpen.attached a.process
  cases h
  case notOpened t program ok hIdle => exact open_start hOpen hok (.notOpened hIdle)
  case opened t program ok p hIdle hName => exact open_start hOpen hok (.opened hIdle hName)
  case created t ok hIdle hName => exact open_start hOpen hok (.created hIdle hName)
  case poll t p hpc hRunning =>
    obtain ⟨rfl, hServes⟩ := hDevice p (by simp [Action.process, hpc, Pc.attached])
    exact hOpen.deviceStay hc rfl rfl (fun q hq => ⟨(Option.some.inj hq).symm, hServes⟩) rfl rfl
      (by simp [Action.process, hpc, Pc.holds])
  case fail t p hpc =>
    refine hOpen.deviceStay hc rfl rfl nofun rfl rfl ?_
    rcases hpc with hpc | hpc | hpc <;> simp [Action.process, hpc, Pc.holds]
  case mapDevice t p hpc =>
    obtain ⟨rfl, hServes⟩ := hDevice p (by simp [Action.process, hpc, Pc.attached])
    exact hOpen.deviceStay hc rfl rfl (fun q hq => ⟨(Option.some.inj hq).symm, hServes⟩) rfl rfl
      (by simp [Action.process, hpc, Pc.holds])
  case endLoop t ok p hpc =>
    obtain ⟨rfl, hServes⟩ := hDevice p (by simp [Action.process, hpc, Pc.attached])
    exact hOpen.deviceStay hc rfl rfl (fun q hq => ⟨(Option.some.inj hq).symm, hServes⟩) rfl rfl
      (by simp [Action.process, hpc, Pc.holds])
  case lockRead t ok p hpc hFree =>
    obtain ⟨rfl, hServes⟩ := hDevice p (by simp [Action.process, hpc, Pc.attached])
    refine .working (hOpen.device (l := .read p) hc rfl rfl
      (fun q hq => ⟨(Option.some.inj hq).symm, hServes⟩) rfl ?_ ?_ (locks hFree))
    · simpa using hOpen.sized
    · simp [Mutex.isLive]
  case read t ok p hpc =>
    obtain ⟨rfl, hServes⟩ := hDevice p (by simp [Action.process, hpc, Pc.attached])
    exact hOpen.deviceStay hc rfl rfl (fun q hq => ⟨(Option.some.inj hq).symm, hServes⟩) rfl rfl
      (by simp [Action.process, hpc, Pc.holds])
  case unlockRead t ok p status hpc =>
    obtain ⟨rfl, hServes⟩ := hDevice p (by simp [Action.process, hpc, Pc.attached])
    refine .working (hOpen.device (l := .loop p) hc rfl rfl
      (fun q hq => ⟨(Option.some.inj hq).symm, hServes⟩) rfl ?_ ?_ (unlocks ?_))
    · simpa using hOpen.sized
    · simp [Mutex.isLive]
    · simp [Action.process, hpc, Pc.holds]
  case unmap t ok p hpc =>
    exact hOpen.deviceStay hc rfl rfl nofun rfl rfl (by simp [Action.process, hpc, Pc.holds])
  case kill t => exact hok.elim
  case interrupt t => exact (Session.working hOpen).congr rfl rfl rfl
  case undo t p hpc =>
    rcases hpc with hpc | hpc | hpc <;> simp [Action.process, hpc, Pc.controls] at hControls
  all_goals simp_all [Action.process, Pc.controls]

/-- A case for each effect; the order of the starts and of the leaving is used where a session
opens and closes. -/
theorem session_effect (hSession : Session s) (hok : InOrder s a) (h : Effect s a s') :
    Session s' := by
  cases hSession with
  | closed hOutside hMutex => exact closed_effect hOutside hMutex hok h
  | opening hPrepares hName hSized hMutex hOutside =>
    exact opening_effect hPrepares hName hSized hMutex hOutside hok h
  | @working c o hOpen =>
    by_cases hc : a.process = c
    · exact open_controller hOpen hok h hc
    · exact open_device hOpen hok h hc
  | closing hpc hOutside => exact closing_effect hpc hOutside hok h

/-- No session. -/
theorem session_init : Session (system τ).init :=
  .closed (fun _ => ⟨rfl, rfl⟩) nofun

/-- In every run in order. -/
theorem session_reachable (h : (system τ).ReachableWhere InOrder s) : Session s :=
  h.invariant session_init fun _ _ _ _ hSession hok hst =>
    session_effect hSession hok (step_effect hst)

-- ---------------------------------------------------------------------------
-- The phase of a process
-- ---------------------------------------------------------------------------

/-- A process that has an object open is the controller of the session, or a device. -/
theorem Session.of_controls (h : Session s) (hControls : (s.pc t).controls = some o) :
    (∃ b, (s.pc t).prepares = some (o, b) ∧ s.name = some o ∧ (s.shm o).mutex.isLive = false) ∨
      Open s t o ∨ ∃ b, s.pc t = .unlink o b := by
  have hNot : ¬ (s.pc t).Outside := fun hOutside => by
    rw [hOutside.1] at hControls
    cases hControls
  cases h with
  | closed hOutside _ => exact absurd (hOutside t) hNot
  | @opening c p b hPrepares hName _ hMutex hOutside =>
    obtain rfl : t = c := by
      by_contra htc
      exact hNot (hOutside t htc)
    obtain rfl : p = o :=
      Option.some.inj ((Pc.controls_of_prepares hPrepares).1.symm.trans hControls)
    exact Or.inl ⟨b, hPrepares, hName, hMutex⟩
  | working hOpen =>
    obtain ⟨rfl, rfl⟩ := hOpen.eq_of_controls hControls
    exact Or.inr (Or.inl hOpen)
  | @closing c p b hpc hOutside =>
    obtain rfl : t = c := by
      by_contra htc
      exact hNot (hOutside t htc)
    obtain rfl : p = o := by simpa [hpc, Pc.controls] using hControls
    exact Or.inr (Or.inr ⟨b, hpc⟩)

/-- A device is attached to an open session only. -/
theorem Session.of_attached (h : Session s) (hAttached : (s.pc t).attached = some o) :
    ∃ c, Open s c o := by
  have hNot : ¬ (s.pc t).Outside := fun hOutside => by
    rw [hOutside.2] at hAttached
    cases hAttached
  cases h with
  | closed hOutside _ => exact absurd (hOutside t) hNot
  | @opening c p b hPrepares _ _ _ hOutside =>
    obtain rfl : t = c := by
      by_contra htc
      exact hNot (hOutside t htc)
    rw [(Pc.controls_of_prepares hPrepares).2.1] at hAttached
    cases hAttached
  | @working c p hOpen =>
    obtain ⟨-, rfl, -⟩ := hOpen.ne_of_attached hAttached
    exact ⟨c, hOpen⟩
  | @closing c p b hpc hOutside =>
    obtain rfl : t = c := by
      by_contra htc
      exact hNot (hOutside t htc)
    rw [hpc] at hAttached
    cases hAttached

end EmbLinux.Session09.DeviceControl
