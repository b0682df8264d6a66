import EmbLinux.Lib.System
import EmbLinux.Lib.Update
import EmbLinux.Session09.Input

/-!
# EmbLinux — `writer.c` and `reader.c`

The model of any number of processes that run `config-writer` or `config-reader` on one
`/tmp/device.cfg`. A step is one system call, one access to a field of the mapped file, or
one `get_user_input`, in a sequentially consistent memory; of the accesses to the arguments
of one `printf` the first comes first. A process reads its own `stdin`, which is given when
it starts. A system call may fail, and any process may be killed at any time; the handler of
the reader takes note of an interrupt.

A file that is too short for a `device_cfg_t` and not empty is the one with zeros behind its
end, as the page that it ends in is mapped. An access to the page behind an empty file is a
bus error: the process has no next step.

`printed` is history: the lines that the processes printed, without the prompts.
-/

namespace EmbLinux.Session09.DeviceConfig

-- ---------------------------------------------------------------------------
-- The file
-- ---------------------------------------------------------------------------

/-- `device_cfg_t` -/
structure DeviceCfg where
  baudRate : Int
  samplingRateHz : Int
  logLevel : Int
  deriving DecidableEq

/-- The fields of the record. -/
inductive Field
  | baud
  | rate
  | log
  deriving DecidableEq

/-- The value of a field. -/
def DeviceCfg.get (cfg : DeviceCfg) : Field → Int
  | .baud => cfg.baudRate
  | .rate => cfg.samplingRateHz
  | .log => cfg.logLevel

/-- A store to a field. -/
def DeviceCfg.set (cfg : DeviceCfg) (f : Field) (v : Int) : DeviceCfg :=
  match f with
  | .baud => { cfg with baudRate := v }
  | .rate => { cfg with samplingRateHz := v }
  | .log => { cfg with logLevel := v }

/-- What the user types to select a field. -/
def Field.word : Field → List Char
  | .baud => "baud".toList
  | .rate => "rate".toList
  | .log => "log".toList

/-- The word that ends the writer. -/
def quit : List Char := "quit".toList

/-- The field that an input selects. -/
def selected (input : List Char) : Option Field :=
  if input = Field.baud.word then some .baud
  else if input = Field.rate.word then some .rate
  else if input = Field.log.word then some .log
  else none

/-- The values that the writer takes for a field. -/
def Field.accepts : Field → Int → Bool
  | .baud, v => v == 9600 || v == 115200 || v == 460800
  | .rate, v => decide (v ≥ 1) && decide (v ≤ 1000)
  | .log, v => decide (v ≥ 0) && decide (v ≤ 3)

/-- The value that the writer gives a field of a new file. -/
def Field.default : Field → Int
  | .baud => 9600
  | .rate => 100
  | .log => 2

/-- The file: missing, shorter than a record, or a record. -/
inductive File
  | absent
  | empty
  | cfg (contents : DeviceCfg)
  deriving DecidableEq

/-- The contents that an access finds. -/
def File.contents : File → Option DeviceCfg
  | .cfg c => some c
  | _ => none

/-- The contents with zeros for what is missing. -/
def File.filled : File → DeviceCfg
  | .cfg c => c
  | _ => ⟨0, 0, 0⟩

/-- What `ftruncate` makes of an open file. -/
def File.truncate (f : File) : File := .cfg f.filled

/-- What `open` with `O_CREAT` makes of it. -/
def File.create : File → File
  | .absent => .empty
  | f => f

-- ---------------------------------------------------------------------------
-- The processes
-- ---------------------------------------------------------------------------

/-- `names[level]`; outside of the array the read is not defined. -/
def levelName (level : Int) : Option String :=
  if level = 0 then some "OFF"
  else if level = 1 then some "ERROR"
  else if level = 2 then some "INFO"
  else if level = 3 then some "DEBUG"
  else none

/-- The name that is printed for a level that has none. -/
def unknown : String := "UNKNOWN"

/-- The lines that are printed, with what is printed in them. The text around it is left out. -/
inductive Line
  | loaded
  | current (cfg : DeviceCfg)
  | updated (f : Field) (v : Int)
  | invalid (f : Field)
  | invalidField
  | polling
  | report (baud rate : Int) (log : String)
  deriving DecidableEq

inductive Pc
  | idle
  | exited (success : Bool)
  -- the writer
  | truncate
  | map
  | testDefault
  | init (f : Field)
  | initSync
  | close
  | showBaud
  | showRate (baud : Int)
  | showLog (baud rate : Int)
  | askField
  | askValue (f : Field)
  | store (f : Field) (v : Int)
  | sync (f : Field) (v : Int)
  -- the reader
  | mapRead
  | closeRead
  | loop
  | testLow
  | testHigh
  | name
  | readBaud (log : String)
  | readRate (log : String) (baud : Int)
  -- both
  | unmap
  deriving DecidableEq

/-- `writer.c` and `reader.c`. -/
inductive Program
  | writer
  | reader
  deriving DecidableEq

/-- The file, and for each process where it stands, what is left of its input and whether it is
to go on. -/
structure State (τ : Type*) where
  file : File
  pc : τ → Pc
  stdin : τ → List Char
  keepRunning : τ → Bool
  printed : List (τ × Line)

/-- `ok` is whether the system call of the step succeeds. -/
inductive Action (τ : Type*)
  | start (t : τ) (program : Program) (stdin : List Char) (ok : Bool)
  | run (t : τ) (ok : Bool)
  | interrupt (t : τ)
  | kill (t : τ)

variable {τ : Type*} [DecidableEq τ]

def State.setPc (s : State τ) (t : τ) (pc : Pc) : State τ :=
  { s with pc := Function.update s.pc t pc }

/-- A process prints a line. -/
def State.print (s : State τ) (t : τ) (line : Line) : State τ :=
  { s with printed := s.printed ++ [(t, line)] }

/-- A process has read some of its input. -/
def State.input (s : State τ) (t : τ) (rest : List Char) : State τ :=
  { s with stdin := Function.update s.stdin t rest }

/-- The three stores of the default values come one after the other. -/
def Pc.afterInit : Field → Pc
  | .baud => .init .rate
  | .rate => .init .log
  | .log => .initSync

/-- `open`: the writer creates a missing file, the reader fails. -/
def Program.openFile : Program → File → Option File
  | .writer, f => some f.create
  | .reader, .absent => none
  | .reader, f => some f

/-- What comes after a successful `open`. -/
def Program.entry : Program → Pc
  | .writer => .truncate
  | .reader => .mapRead

/-- A process is started and opens the file. -/
def start (s : State τ) (t : τ) (program : Program) (stdin : List Char) (ok : Bool) : State τ :=
  match if ok then program.openFile s.file else none with
  | some file => { (s.input t stdin).setPc t program.entry with file := file }
  | none => (s.input t stdin).setPc t (.exited false)

/-- The first input of a round of the menu. -/
def takeField (s : State τ) (t : τ) : State τ :=
  match getUserInput 256 (s.stdin t) with
  | none => s.setPc t .unmap
  | some (input, rest) =>
    if input = quit then (s.input t rest).setPc t .unmap
    else match selected input with
      | some f => (s.input t rest).setPc t (.askValue f)
      | none => ((s.input t rest).print t .invalidField).setPc t .showBaud

/-- The second one. -/
def takeValue (undefined : Int → Int) (s : State τ) (t : τ) (f : Field) : State τ :=
  match getUserInput 256 (s.stdin t) with
  | none => s.setPc t .unmap
  | some (input, rest) =>
    if f.accepts (atoi undefined input) then
      (s.input t rest).setPc t (.store f (atoi undefined input))
    else ((s.input t rest).print t (.invalid f)).setPc t .showBaud

/-- The next system call or access of a process. An access to a page that is not there is no
step. -/
def run (undefined : Int → Int) (s : State τ) (t : τ) (ok : Bool) : Option (State τ) :=
  match s.pc t with
  | .idle | .exited _ => none
  | .truncate =>
    some (if ok then { s.setPc t .map with file := s.file.truncate }
      else s.setPc t (.exited false))
  | .map => some (s.setPc t (if ok then .testDefault else .exited false))
  | .testDefault => s.file.contents.map fun c =>
      s.setPc t (if c.baudRate = 0 then .init .baud else .close)
  | .init f => s.file.contents.map fun c =>
      { s.setPc t (.afterInit f) with file := .cfg (c.set f f.default) }
  | .initSync => some (s.setPc t .close)
  | .close => some ((s.print t .loaded).setPc t .showBaud)
  | .showBaud => s.file.contents.map fun c => s.setPc t (.showRate c.baudRate)
  | .showRate baud => s.file.contents.map fun c => s.setPc t (.showLog baud c.samplingRateHz)
  | .showLog baud rate => s.file.contents.map fun c =>
      (s.print t (.current ⟨baud, rate, c.logLevel⟩)).setPc t .askField
  | .askField => some (takeField s t)
  | .askValue f => some (takeValue undefined s t f)
  | .store f v => s.file.contents.map fun c =>
      { s.setPc t (.sync f v) with file := .cfg (c.set f v) }
  | .sync f v => some ((if ok then s.print t (.updated f v) else s).setPc t .showBaud)
  | .mapRead => some (s.setPc t (if ok then .closeRead else .exited false))
  | .closeRead =>
    some (if ok then (s.print t .polling).setPc t .loop else s.setPc t (.exited false))
  | .loop => some (s.setPc t (if s.keepRunning t then .testLow else .unmap))
  | .testLow => s.file.contents.map fun c =>
      s.setPc t (if c.logLevel ≥ 0 then .testHigh else .readBaud unknown)
  | .testHigh => s.file.contents.map fun c =>
      s.setPc t (if c.logLevel ≤ 3 then .name else .readBaud unknown)
  | .name => s.file.contents.bind fun c =>
      (levelName c.logLevel).map fun log => s.setPc t (.readBaud log)
  | .readBaud log => s.file.contents.map fun c => s.setPc t (.readRate log c.baudRate)
  | .readRate log baud => s.file.contents.map fun c =>
      (s.print t (.report baud c.samplingRateHz log)).setPc t .loop
  | .unmap => some (s.setPc t (.exited ok))

/-- A process starts, goes on, gets a signal or is killed. -/
def step (undefined : Int → Int) (s : State τ) : Action τ → Option (State τ)
  | .start t program stdin ok =>
    match s.pc t with
    | .idle => some (start s t program stdin ok)
    | _ => none
  | .run t ok => run undefined s t ok
  | .interrupt t =>
    match s.pc t with
    | .idle | .exited _ => none
    | _ => some { s with keepRunning := Function.update s.keepRunning t false }
  | .kill t =>
    match s.pc t with
    | .idle | .exited _ => none
    | _ => some (s.setPc t (.exited false))

/-- The file as it was, and no process. -/
def system (τ : Type*) [DecidableEq τ] (undefined : Int → Int) (file : File) :
    System (State τ) (Action τ) where
  init := ⟨file, fun _ => .idle, fun _ => [], fun _ => true, []⟩
  step := step undefined

/-- The steps that access the mapped file. -/
def Pc.accesses : Pc → Bool
  | .testDefault | .init _ | .showBaud | .showRate _ | .showLog _ _
  | .store _ _ | .testLow | .testHigh | .name | .readBaud _ | .readRate _ _ => true
  | _ => false

/-- The process is about to access a page that is not there. -/
def BusError (s : State τ) (t : τ) : Prop :=
  (s.pc t).accesses = true ∧ s.file.contents = none

end EmbLinux.Session09.DeviceConfig
