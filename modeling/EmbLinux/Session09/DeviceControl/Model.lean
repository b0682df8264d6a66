import EmbLinux.Lib.Linearizable
import EmbLinux.Session09.Input
import Mathlib.Data.Fintype.Basic

/-!
# EmbLinux — `controller.c` and `device.c`

The model of any number of processes that run `controller` or `device`, with the objects that
`/device_shm` names one after the other. A step is one system call, one call on the mutex or
one access to `status`, with the line that is printed behind it; `enter` is the input that
`get_user_input` returns, and `reset` and `poll` are the steps that enter a critical section
without an input. An object that `shm_open` creates has no page before `ftruncate`;
`shm_unlink` takes only its name away.

What POSIX leaves undefined has no next step (`Fault`): an access to a page that is not
there, a call on a mutex that is not initialized or already destroyed, the initialization of
one in use, and the destruction of one that is locked. The calls on a mutex in order do not
fail. A process may be killed at any time, and the handler of the device takes note of an
interrupt, of which a controller dies.
-/

namespace EmbLinux.Session09.DeviceControl

-- ---------------------------------------------------------------------------
-- The shared memory
-- ---------------------------------------------------------------------------

/-- The `pthread_mutex_t` of an object. -/
inductive Mutex (τ : Type*)
  | uninitialized
  | free
  | locked (t : τ)
  | destroyed
  deriving DecidableEq

/-- `device_state_t`, in an object that has its size or not. -/
structure Shm (τ : Type*) where
  sized : Bool
  mutex : Mutex τ
  status : Int

/-- What a controller stores in a critical section. -/
inductive Command
  | reset
  | on
  | off
  deriving DecidableEq

/-- The status that a command stores. -/
def Command.status : Command → Int
  | .on => 1
  | .reset | .off => 0

/-- The lines that are printed. Their texts are left out. -/
inductive Line
  | ready
  | sent (command : Command)
  | invalid
  | goodbye
  | attached
  | report (status : Int)
  deriving DecidableEq

/-- What is printed behind the critical section of a command. -/
def Command.line : Command → Line
  | .reset => .ready
  | command => .sent command

-- ---------------------------------------------------------------------------
-- The processes
-- ---------------------------------------------------------------------------

/-- Where a process stands; `o` is the object that it has opened. -/
inductive Pc
  | idle
  | exited (success : Bool)
  -- the controller
  | truncate (o : Nat)
  | map (o : Nat)
  | initAttr (o : Nat)
  | initMutex (o : Nat)
  | destroyAttr (o : Nat)
  | ready (o : Nat)
  | lock (o : Nat) (command : Command)
  | store (o : Nat) (command : Command)
  | unlock (o : Nat) (command : Command)
  | ask (o : Nat)
  | destroy (o : Nat)
  | unlink (o : Nat) (success : Bool)
  -- the device
  | mapDevice (o : Nat)
  | loop (o : Nat)
  | lockRead (o : Nat)
  | read (o : Nat)
  | unlockRead (o : Nat) (status : Int)
  | unmap (o : Nat)
  deriving DecidableEq

/-- `controller.c` and `device.c`. -/
inductive Program
  | controller
  | device
  deriving DecidableEq

/-- The objects, the one that the name is for, and where each process stands. -/
structure State (τ : Type*) where
  shm : Nat → Shm τ
  name : Option Nat
  objects : Nat
  pc : τ → Pc
  keepRunning : τ → Bool
  printed : List (τ × Line)

/-- `ok` is whether the system call of the step succeeds; an input that is `none` is the end
of `stdin`. -/
inductive Action (τ : Type*)
  | start (t : τ) (program : Program) (ok : Bool)
  | reset (t : τ)
  | enter (t : τ) (input : Option (List Char))
  | poll (t : τ)
  | run (t : τ) (ok : Bool)
  | interrupt (t : τ)
  | kill (t : τ)

variable {τ : Type*} [DecidableEq τ]

def State.setPc (s : State τ) (t : τ) (pc : Pc) : State τ :=
  { s with pc := Function.update s.pc t pc }

/-- A process prints a line. -/
def State.print (s : State τ) (t : τ) (line : Line) : State τ :=
  { s with printed := s.printed ++ [(t, line)] }

/-- A change in an object, -/
def State.setShm (s : State τ) (o : Nat) (shm : Shm τ) : State τ :=
  { s with shm := Function.update s.shm o shm }

/-- and one of its mutex. -/
def State.setMutex (s : State τ) (o : Nat) (m : Mutex τ) : State τ :=
  s.setShm o { s.shm o with mutex := m }

/-- The object that `shm_open` opens, and what it makes of the names. -/
def Program.openShm (program : Program) (s : State τ) : Option (Nat × State τ) :=
  match program, s.name with
  | _, some o => some (o, s)
  | .controller, none =>
    some (s.objects, { s.setShm s.objects ⟨false, .uninitialized, 0⟩ with
      name := some s.objects, objects := s.objects + 1 })
  | .device, none => none

/-- What comes after a successful `shm_open`. -/
def Program.entry : Program → Nat → Pc
  | .controller => .truncate
  | .device => .mapDevice

/-- A process is started and opens the object. -/
def start (s : State τ) (t : τ) (program : Program) (ok : Bool) : State τ :=
  match if ok then program.openShm s else none with
  | some (o, s') => s'.setPc t (program.entry o)
  | none => s.setPc t (.exited false)

/-- The word that ends the controller. -/
def quit : List Char := "quit".toList

/-- The command of an input. -/
def parse (input : List Char) : Option Command :=
  if input = "on".toList then some .on
  else if input = "off".toList then some .off
  else none

/-- The controller leaves its loop. -/
def leaves (input : Option (List Char)) : Bool :=
  decide (input = none) || decide (input = some quit)

/-- A line is entered: a command, something invalid, or the end. -/
def enter (s : State τ) (t : τ) (o : Nat) (input : Option (List Char)) : State τ :=
  if leaves input then (s.print t .goodbye).setPc t (.destroy o)
  else match input.bind parse with
    | some command => s.setPc t (.lock o command)
    | none => (s.print t .invalid).setPc t (.ask o)

/-- `pthread_mutex_lock` -/
def lock (s : State τ) (t : τ) (o : Nat) (pc : Pc) : Option (State τ) :=
  if (s.shm o).sized ∧ (s.shm o).mutex = .free then some ((s.setMutex o (.locked t)).setPc t pc)
  else none

/-- `pthread_mutex_unlock` -/
def unlock (s : State τ) (t : τ) (o : Nat) (pc : Pc) (line : Line) : Option (State τ) :=
  if (s.shm o).sized ∧ (s.shm o).mutex = .locked t then
    some (((s.setMutex o .free).print t line).setPc t pc)
  else none

/-- The next call of a process. What is undefined is no step, and is a `Fault`. -/
def run (s : State τ) (t : τ) (ok : Bool) : Option (State τ) :=
  match s.pc t with
  | .idle | .exited _ | .ready _ | .ask _ => none
  | .truncate o =>
    some (if ok then (s.setShm o { s.shm o with sized := true }).setPc t (.map o)
      else s.setPc t (.exited false))
  | .map o => some (s.setPc t (if ok then .initAttr o else .exited false))
  | .initAttr o => some (s.setPc t (if ok then .initMutex o else .unlink o false))
  | .initMutex o =>
    if (s.shm o).sized ∧ ((s.shm o).mutex = .uninitialized ∨ (s.shm o).mutex = .destroyed) then
      some (if ok then (s.setMutex o .free).setPc t (.destroyAttr o)
        else s.setPc t (.unlink o false))
    else none
  | .destroyAttr o => some (s.setPc t (if ok then .ready o else .unlink o false))
  | .lock o command => lock s t o (.store o command)
  | .store o command =>
    if (s.shm o).sized then
      some ((s.setShm o { s.shm o with status := command.status }).setPc t (.unlock o command))
    else none
  | .unlock o command => unlock s t o (.ask o) command.line
  | .destroy o =>
    if (s.shm o).sized ∧ (s.shm o).mutex = .free then
      some ((s.setMutex o .destroyed).setPc t (.unlink o true))
    else none
  | .unlink _ success =>
    some { s.setPc t (.exited success) with name := if ok then none else s.name }
  | .mapDevice o => some (if ok then (s.print t .attached).setPc t (.loop o)
      else s.setPc t (.exited false))
  | .loop o => if s.keepRunning t then none else some (s.setPc t (.unmap o))
  | .lockRead o => lock s t o (.read o)
  | .read o =>
    if (s.shm o).sized then some (s.setPc t (.unlockRead o (s.shm o).status)) else none
  | .unlockRead o status => unlock s t o (.loop o) (.report status)
  | .unmap _ => some (s.setPc t (.exited true))

/-- A process starts, a user enters a line, a device begins a round, a signal arrives, or a
process is killed. -/
def step (s : State τ) : Action τ → Option (State τ)
  | .start t program ok =>
    match s.pc t with
    | .idle => some (start s t program ok)
    | _ => none
  | .reset t =>
    match s.pc t with
    | .ready o => some (s.setPc t (.lock o .reset))
    | _ => none
  | .enter t input =>
    match s.pc t with
    | .ask o => some (enter s t o input)
    | _ => none
  | .poll t =>
    match s.pc t with
    | .loop o => if s.keepRunning t then some (s.setPc t (.lockRead o)) else none
    | _ => none
  | .run t ok => run s t ok
  | .interrupt t =>
    match s.pc t with
    | .mapDevice _ | .loop _ | .lockRead _ | .read _ | .unlockRead _ _ | .unmap _ =>
      some { s with keepRunning := Function.update s.keepRunning t false }
    | _ => none
  | .kill t =>
    match s.pc t with
    | .idle | .exited _ => none
    | _ => some (s.setPc t (.exited false))

/-- No object and no process. -/
def system (τ : Type*) [DecidableEq τ] : System (State τ) (Action τ) where
  init := ⟨fun _ => ⟨false, .uninitialized, 0⟩, none, 0, fun _ => .idle, fun _ => true, []⟩
  step := step

-- ---------------------------------------------------------------------------
-- Faults, and the order of the programs
-- ---------------------------------------------------------------------------

/-- The mutex has been initialized and is not destroyed. -/
def Mutex.isLive : Mutex τ → Bool
  | .free | .locked _ => true
  | _ => false

/-- What POSIX asks of the object, for the next step of the process. -/
def Pc.Needs (t : τ) (shm : Nat → Shm τ) : Pc → Prop
  | .initMutex o => (shm o).sized = true ∧ (shm o).mutex.isLive = false
  | .lock o _ | .lockRead o => (shm o).sized = true ∧ (shm o).mutex.isLive = true
  | .store o _ | .read o => (shm o).sized = true
  | .unlock o _ | .unlockRead o _ => (shm o).sized = true ∧ (shm o).mutex = .locked t
  | .destroy o => (shm o).sized = true ∧ (shm o).mutex = .free
  | _ => True

/-- The next step of the process is undefined. -/
def Fault (s : State τ) (t : τ) : Prop := ¬ (s.pc t).Needs t s.shm

/-- The process runs the controller, from `shm_open` to `shm_unlink`. -/
def Pc.controls : Pc → Option Nat
  | .truncate o | .map o | .initAttr o | .initMutex o | .destroyAttr o | .ready o | .lock o _
  | .store o _ | .unlock o _ | .ask o | .destroy o | .unlink o _ => some o
  | _ => none

/-- The process runs the device. -/
def Pc.attached : Pc → Option Nat
  | .mapDevice o | .loop o | .lockRead o | .read o | .unlockRead o _ | .unmap o => some o
  | _ => none

/-- The controller is in its loop. -/
def Pc.serves : Pc → Option Nat
  | .ask o => some o
  | .lock o command | .store o command | .unlock o command =>
    if command = .reset then none else some o
  | _ => none

/-- The process calls `shm_unlink` next. -/
def Pc.unlinks : Pc → Bool
  | .unlink _ _ => true
  | _ => false

/-- One controller at a time, devices only beside a controller that is in its loop, no
process that is killed, and an object that loses its name at the end. -/
def InOrder (s : State τ) : Action τ → Prop
  | .start _ .controller _ => ∀ u, (s.pc u).controls = none
  | .start _ .device _ => ∃ u, ((s.pc u).serves).isSome = true
  | .enter _ input => leaves input = true → ∀ u, (s.pc u).attached = none
  | .run t ok => (s.pc t).unlinks = true → ok = true
  | .kill _ => False
  | _ => True

instance [Fintype τ] (s : State τ) (a : Action τ) : Decidable (InOrder s a) :=
  match a with
  | .start _ .controller _ => inferInstanceAs (Decidable (∀ u, (s.pc u).controls = none))
  | .start _ .device _ => inferInstanceAs (Decidable (∃ u, ((s.pc u).serves).isSome = true))
  | .enter _ input =>
    inferInstanceAs (Decidable (leaves input = true → ∀ u, (s.pc u).attached = none))
  | .run t ok => inferInstanceAs (Decidable ((s.pc t).unlinks = true → ok = true))
  | .kill _ => .isFalse id
  | .reset _ | .poll _ | .interrupt _ => .isTrue trivial

-- ---------------------------------------------------------------------------
-- What the processes see
-- ---------------------------------------------------------------------------

/-- The commands of the controllers, and the polls of the devices. -/
inductive Op
  | set (status : Int)
  | get
  deriving DecidableEq

/-- What a command and a report come back with. -/
inductive Ret
  | done
  | got (status : Int)
  deriving DecidableEq

/-- A register. -/
def register : Object Op Ret Int where
  init := 0
  apply q
    | .set v => (v, .done)
    | .get => (q, .got q)

/-- A command is called when it is entered, a poll when its round begins. -/
def calls : Action τ → Option (τ × Op)
  | .reset t => some (t, .set Command.reset.status)
  | .enter t input =>
    if leaves input then none
    else (input.bind parse).map fun command => (t, .set command.status)
  | .poll t => some (t, .get)
  | _ => none

/-- Both are answered when their line is printed. -/
def rets (s : State τ) (a : Action τ) (_ : State τ) : Option (τ × Ret) :=
  match a with
  | .run t _ =>
    match s.pc t with
    | .unlock _ _ => some (t, .done)
    | .unlockRead _ status => some (t, .got status)
    | _ => none
  | _ => none

end EmbLinux.Session09.DeviceControl
