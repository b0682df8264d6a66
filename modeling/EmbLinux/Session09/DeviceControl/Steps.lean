import EmbLinux.Session09.DeviceControl.Model

/-!
# EmbLinux — the steps of `controller.c` and `device.c`

What a step does, branch by branch.

`Effect` has one constructor for each branch, with what it requires of the object and what it
leaves; `step_effect` says that there is no other step. The invariants are proved from it, and
only the schedules of the faults are evaluated.
-/

namespace EmbLinux.Session09.DeviceControl

variable {τ : Type*} [DecidableEq τ] {s s' : State τ} {t : τ} {a : Action τ} {ok : Bool}

/-- What the steps of the processes do. -/
inductive Effect (s : State τ) : Action τ → State τ → Prop
  | notOpened {t : τ} {program : Program} {ok : Bool} (hIdle : s.pc t = .idle) :
      Effect s (.start t program ok) (s.setPc t (.exited false))
  | opened {t : τ} {program : Program} {ok : Bool} {o : Nat} (hIdle : s.pc t = .idle)
      (hName : s.name = some o) : Effect s (.start t program ok) (s.setPc t (program.entry o))
  | created {t : τ} {ok : Bool} (hIdle : s.pc t = .idle) (hName : s.name = none) :
      Effect s (.start t .controller ok) (State.setPc
        { s.setShm s.objects ⟨false, .uninitialized, 0⟩ with
          name := some s.objects, objects := s.objects + 1 } t (.truncate s.objects))
  | reset {t : τ} {o : Nat} (hpc : s.pc t = .ready o) :
      Effect s (.reset t) (s.setPc t (.lock o .reset))
  | leave {t : τ} {o : Nat} {input : Option (List Char)} (hpc : s.pc t = .ask o)
      (hLeaves : leaves input = true) :
      Effect s (.enter t input) ((s.print t .goodbye).setPc t (.destroy o))
  | command {t : τ} {o : Nat} {input : Option (List Char)} {command : Command}
      (hpc : s.pc t = .ask o) (hLeaves : leaves input = false)
      (hParse : input.bind parse = some command) :
      Effect s (.enter t input) (s.setPc t (.lock o command))
  | invalid {t : τ} {o : Nat} {input : Option (List Char)} (hpc : s.pc t = .ask o)
      (hLeaves : leaves input = false) (hParse : input.bind parse = none) :
      Effect s (.enter t input) ((s.print t .invalid).setPc t (.ask o))
  | poll {t : τ} {o : Nat} (hpc : s.pc t = .loop o) (hRunning : s.keepRunning t = true) :
      Effect s (.poll t) (s.setPc t (.lockRead o))
  | fail {t : τ} {o : Nat}
      (hpc : s.pc t = .truncate o ∨ s.pc t = .map o ∨ s.pc t = .mapDevice o) :
      Effect s (.run t false) (s.setPc t (.exited false))
  | truncate {t : τ} {o : Nat} (hpc : s.pc t = .truncate o) :
      Effect s (.run t true) ((s.setShm o { s.shm o with sized := true }).setPc t (.map o))
  | map {t : τ} {o : Nat} (hpc : s.pc t = .map o) :
      Effect s (.run t true) (s.setPc t (.initAttr o))
  | initAttr {t : τ} {o : Nat} (hpc : s.pc t = .initAttr o) :
      Effect s (.run t true) (s.setPc t (.initMutex o))
  | initMutex {t : τ} {o : Nat} (hpc : s.pc t = .initMutex o) :
      Effect s (.run t true) ((s.setMutex o .free).setPc t (.destroyAttr o))
  | undo {t : τ} {o : Nat}
      (hpc : s.pc t = .initAttr o ∨ s.pc t = .initMutex o ∨ s.pc t = .destroyAttr o) :
      Effect s (.run t false) (s.setPc t (.unlink o false))
  | destroyAttr {t : τ} {o : Nat} (hpc : s.pc t = .destroyAttr o) :
      Effect s (.run t true) (s.setPc t (.ready o))
  | lock {t : τ} {ok : Bool} {o : Nat} {command : Command} (hpc : s.pc t = .lock o command)
      (hFree : (s.shm o).mutex = .free) :
      Effect s (.run t ok) ((s.setMutex o (.locked t)).setPc t (.store o command))
  | store {t : τ} {ok : Bool} {o : Nat} {command : Command} (hpc : s.pc t = .store o command) :
      Effect s (.run t ok)
        ((s.setShm o { s.shm o with status := command.status }).setPc t (.unlock o command))
  | unlock {t : τ} {ok : Bool} {o : Nat} {command : Command} (hpc : s.pc t = .unlock o command) :
      Effect s (.run t ok) (((s.setMutex o .free).print t command.line).setPc t (.ask o))
  | destroy {t : τ} {ok : Bool} {o : Nat} (hpc : s.pc t = .destroy o) :
      Effect s (.run t ok) ((s.setMutex o .destroyed).setPc t (.unlink o true))
  | unlink {t : τ} {ok : Bool} {o : Nat} {success : Bool} (hpc : s.pc t = .unlink o success) :
      Effect s (.run t ok)
        { s.setPc t (.exited success) with name := if ok then none else s.name }
  | mapDevice {t : τ} {o : Nat} (hpc : s.pc t = .mapDevice o) :
      Effect s (.run t true) ((s.print t .attached).setPc t (.loop o))
  | endLoop {t : τ} {ok : Bool} {o : Nat} (hpc : s.pc t = .loop o) :
      Effect s (.run t ok) (s.setPc t (.unmap o))
  | lockRead {t : τ} {ok : Bool} {o : Nat} (hpc : s.pc t = .lockRead o)
      (hFree : (s.shm o).mutex = .free) :
      Effect s (.run t ok) ((s.setMutex o (.locked t)).setPc t (.read o))
  | read {t : τ} {ok : Bool} {o : Nat} (hpc : s.pc t = .read o) :
      Effect s (.run t ok) (s.setPc t (.unlockRead o (s.shm o).status))
  | unlockRead {t : τ} {ok : Bool} {o : Nat} {status : Int} (hpc : s.pc t = .unlockRead o status) :
      Effect s (.run t ok) (((s.setMutex o .free).print t (.report status)).setPc t (.loop o))
  | unmap {t : τ} {ok : Bool} {o : Nat} (hpc : s.pc t = .unmap o) :
      Effect s (.run t ok) (s.setPc t (.exited true))
  | interrupt {t : τ} (hRunning : s.pc t ≠ .idle) :
      Effect s (.interrupt t) { s with keepRunning := Function.update s.keepRunning t false }
  | kill {t : τ} : Effect s (.kill t) (s.setPc t (.exited false))

/-- What a start does, -/
theorem start_effect (program : Program) (ok : Bool) (hIdle : s.pc t = .idle) :
    Effect s (.start t program ok) (start s t program ok) := by
  unfold start
  cases ok with
  | false => exact .notOpened hIdle
  | true =>
    cases hName : s.name with
    | some o =>
      simp only [Program.openShm, hName, if_true]
      exact .opened hIdle hName
    | none =>
      cases program with
      | controller =>
        simp only [Program.openShm, hName, if_true]
        exact .created hIdle hName
      | device =>
        simp only [Program.openShm, hName, if_true]
        exact .notOpened hIdle

/-- what an entered line does, -/
theorem enter_effect {o : Nat} (input : Option (List Char)) (hpc : s.pc t = .ask o) :
    Effect s (.enter t input) (enter s t o input) := by
  unfold enter
  cases hLeaves : leaves input with
  | true => exact .leave hpc hLeaves
  | false =>
    cases hParse : input.bind parse with
    | some command => exact .command hpc hLeaves hParse
    | none => exact .invalid hpc hLeaves hParse

/-- what the next call of a process does, -/
theorem run_effect (hst : run s t ok = some s') : Effect s (.run t ok) s' := by
  unfold run at hst
  cases hpc : s.pc t <;> simp only [hpc, lock, unlock, Option.ite_none_right_eq_some,
    Option.some.injEq, reduceCtorEq] at hst
  case truncate o =>
    subst hst
    cases ok
    · exact .fail (Or.inl hpc)
    · exact .truncate hpc
  case map o =>
    subst hst
    cases ok
    · exact .fail (Or.inr (Or.inl hpc))
    · exact .map hpc
  case initAttr o =>
    subst hst
    cases ok
    · exact .undo (Or.inl hpc)
    · exact .initAttr hpc
  case initMutex o =>
    obtain ⟨-, rfl⟩ := hst
    cases ok
    · exact .undo (Or.inr (Or.inl hpc))
    · exact .initMutex hpc
  case destroyAttr o =>
    subst hst
    cases ok
    · exact .undo (Or.inr (Or.inr hpc))
    · exact .destroyAttr hpc
  case lock o command =>
    obtain ⟨⟨-, hFree⟩, rfl⟩ := hst
    exact .lock hpc hFree
  case store o command =>
    obtain ⟨-, rfl⟩ := hst
    exact .store hpc
  case unlock o command =>
    obtain ⟨-, rfl⟩ := hst
    exact .unlock hpc
  case destroy o =>
    obtain ⟨-, rfl⟩ := hst
    exact .destroy hpc
  case unlink o success => exact hst ▸ .unlink hpc
  case mapDevice o =>
    subst hst
    cases ok
    · exact .fail (Or.inr (Or.inr hpc))
    · exact .mapDevice hpc
  case loop o =>
    cases hRunning : s.keepRunning t <;> simp only [hRunning] at hst
    · exact Option.some.inj hst ▸ .endLoop hpc
    · simp at hst
  case lockRead o =>
    obtain ⟨⟨-, hFree⟩, rfl⟩ := hst
    exact .lockRead hpc hFree
  case read o =>
    obtain ⟨-, rfl⟩ := hst
    exact .read hpc
  case unlockRead o status =>
    obtain ⟨-, rfl⟩ := hst
    exact .unlockRead hpc
  case unmap o => exact hst ▸ .unmap hpc

/-- and so what one step does. -/
theorem step_effect (hst : step s a = some s') : Effect s a s' := by
  cases a with
  | start t program ok =>
    simp only [step] at hst
    split at hst
    · next hIdle => exact Option.some.inj hst ▸ start_effect program ok hIdle
    · simp at hst
  | reset t =>
    simp only [step] at hst
    split at hst
    · next o hpc => exact Option.some.inj hst ▸ .reset hpc
    · simp at hst
  | enter t input =>
    simp only [step] at hst
    split at hst
    · next o hpc => exact Option.some.inj hst ▸ enter_effect input hpc
    · simp at hst
  | poll t =>
    simp only [step] at hst
    split at hst
    · next o hpc =>
      split at hst
      · next hRunning => exact Option.some.inj hst ▸ .poll hpc hRunning
      · simp at hst
    · simp at hst
  | run t ok => exact run_effect hst
  | interrupt t =>
    simp only [step] at hst
    split at hst <;> first
      | exact Option.some.inj hst ▸ .interrupt (by simp [*])
      | simp at hst
  | kill t =>
    simp only [step] at hst
    split at hst
    · simp at hst
    · simp at hst
    · exact Option.some.inj hst ▸ .kill

end EmbLinux.Session09.DeviceControl
