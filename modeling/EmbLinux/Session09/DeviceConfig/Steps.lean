import EmbLinux.Session09.DeviceConfig.Model

/-!
# EmbLinux — the steps of `writer.c` and `reader.c`

What the step of a process does, branch by branch, and what becomes of the file.

`Effect` has one constructor for each branch, with the program point before and after it. A system
call may fail, and the branch then is the one that prints the error; `Turn` adds the signals, the
kills and the starts, which touch no field.
-/

namespace EmbLinux.Session09.DeviceConfig

variable {τ : Type*} [DecidableEq τ] {undefined : Int → Int} {s s' : State τ} {t : τ} {f : Field}
  {c : DeviceCfg} {v : Int}

/-- What the step of a process does, that has started and has not exited. -/
inductive Effect (undefined : Int → Int) (s : State τ) (t : τ) (ok : Bool) : State τ → Prop
  | fail (hFails : ok = false)
      (hpc : s.pc t = .truncate ∨ s.pc t = .map ∨ s.pc t = .mapRead ∨ s.pc t = .closeRead) :
      Effect undefined s t ok (s.setPc t (.exited false))
  | truncate (hpc : s.pc t = .truncate) :
      Effect undefined s t ok { s.setPc t .map with file := s.file.truncate }
  | map (hpc : s.pc t = .map) : Effect undefined s t ok (s.setPc t .testDefault)
  | uninitialized {c : DeviceCfg} (hpc : s.pc t = .testDefault) (hFile : s.file = .cfg c)
      (hZero : c.baudRate = 0) : Effect undefined s t ok (s.setPc t (.init .baud))
  | initialized {c : DeviceCfg} (hpc : s.pc t = .testDefault) (hFile : s.file = .cfg c)
      (hSet : c.baudRate ≠ 0) : Effect undefined s t ok (s.setPc t .close)
  | init {f : Field} {c : DeviceCfg} (hpc : s.pc t = .init f) (hFile : s.file = .cfg c) :
      Effect undefined s t ok { s.setPc t (.afterInit f) with file := .cfg (c.set f f.default) }
  | initSync (hpc : s.pc t = .initSync) : Effect undefined s t ok (s.setPc t .close)
  | close (hpc : s.pc t = .close) : Effect undefined s t ok ((s.print t .loaded).setPc t .showBaud)
  | showBaud {c : DeviceCfg} (hpc : s.pc t = .showBaud) (hFile : s.file = .cfg c) :
      Effect undefined s t ok (s.setPc t (.showRate c.baudRate))
  | showRate {baud : Int} {c : DeviceCfg} (hpc : s.pc t = .showRate baud)
      (hFile : s.file = .cfg c) :
      Effect undefined s t ok (s.setPc t (.showLog baud c.samplingRateHz))
  | showLog {baud rate : Int} {c : DeviceCfg} (hpc : s.pc t = .showLog baud rate)
      (hFile : s.file = .cfg c) :
      Effect undefined s t ok ((s.print t (.current ⟨baud, rate, c.logLevel⟩)).setPc t .askField)
  | endOfInput (hpc : s.pc t = .askField ∨ ∃ f, s.pc t = .askValue f)
      (hInput : getUserInput 256 (s.stdin t) = none) : Effect undefined s t ok (s.setPc t .unmap)
  | quit {rest : List Char} (hpc : s.pc t = .askField)
      (hInput : getUserInput 256 (s.stdin t) = some (DeviceConfig.quit, rest)) :
      Effect undefined s t ok ((s.input t rest).setPc t .unmap)
  | select {f : Field} {input rest : List Char} (hpc : s.pc t = .askField)
      (hInput : getUserInput 256 (s.stdin t) = some (input, rest))
      (hQuit : input ≠ DeviceConfig.quit) (hField : selected input = some f) :
      Effect undefined s t ok ((s.input t rest).setPc t (.askValue f))
  | selectNone {input rest : List Char} (hpc : s.pc t = .askField)
      (hInput : getUserInput 256 (s.stdin t) = some (input, rest))
      (hQuit : input ≠ DeviceConfig.quit) (hField : selected input = none) :
      Effect undefined s t ok (((s.input t rest).print t .invalidField).setPc t .showBaud)
  | accept {f : Field} {input rest : List Char} (hpc : s.pc t = .askValue f)
      (hInput : getUserInput 256 (s.stdin t) = some (input, rest))
      (hValue : f.accepts (atoi undefined input) = true) :
      Effect undefined s t ok ((s.input t rest).setPc t (.store f (atoi undefined input)))
  | refuse {f : Field} {input rest : List Char} (hpc : s.pc t = .askValue f)
      (hInput : getUserInput 256 (s.stdin t) = some (input, rest))
      (hValue : f.accepts (atoi undefined input) ≠ true) :
      Effect undefined s t ok (((s.input t rest).print t (.invalid f)).setPc t .showBaud)
  | store {f : Field} {v : Int} {c : DeviceCfg} (hpc : s.pc t = .store f v)
      (hFile : s.file = .cfg c) :
      Effect undefined s t ok { s.setPc t (.sync f v) with file := .cfg (c.set f v) }
  | sync {f : Field} {v : Int} (hpc : s.pc t = .sync f v) :
      Effect undefined s t ok ((s.print t (.updated f v)).setPc t .showBaud)
  | syncFailed {f : Field} {v : Int} (hpc : s.pc t = .sync f v) :
      Effect undefined s t ok (s.setPc t .showBaud)
  | mapRead (hpc : s.pc t = .mapRead) : Effect undefined s t ok (s.setPc t .closeRead)
  | closeRead (hpc : s.pc t = .closeRead) :
      Effect undefined s t ok ((s.print t .polling).setPc t .loop)
  | loop (hpc : s.pc t = .loop) :
      Effect undefined s t ok (s.setPc t (if s.keepRunning t then .testLow else .unmap))
  | low {c : DeviceCfg} (hpc : s.pc t = .testLow) (hFile : s.file = .cfg c)
      (hLow : ¬ c.logLevel ≥ 0) : Effect undefined s t ok (s.setPc t (.readBaud unknown))
  | notLow {c : DeviceCfg} (hpc : s.pc t = .testLow) (hFile : s.file = .cfg c)
      (hLow : c.logLevel ≥ 0) : Effect undefined s t ok (s.setPc t .testHigh)
  | high {c : DeviceCfg} (hpc : s.pc t = .testHigh) (hFile : s.file = .cfg c)
      (hHigh : ¬ c.logLevel ≤ 3) : Effect undefined s t ok (s.setPc t (.readBaud unknown))
  | notHigh {c : DeviceCfg} (hpc : s.pc t = .testHigh) (hFile : s.file = .cfg c)
      (hHigh : c.logLevel ≤ 3) : Effect undefined s t ok (s.setPc t .name)
  | name {c : DeviceCfg} {log : String} (hpc : s.pc t = .name) (hFile : s.file = .cfg c)
      (hLog : levelName c.logLevel = some log) : Effect undefined s t ok (s.setPc t (.readBaud log))
  | readBaud {log : String} {c : DeviceCfg} (hpc : s.pc t = .readBaud log)
      (hFile : s.file = .cfg c) : Effect undefined s t ok (s.setPc t (.readRate log c.baudRate))
  | readRate {log : String} {baud : Int} {c : DeviceCfg} (hpc : s.pc t = .readRate log baud)
      (hFile : s.file = .cfg c) :
      Effect undefined s t ok ((s.print t (.report baud c.samplingRateHz log)).setPc t .loop)
  | unmap (hpc : s.pc t = .unmap) : Effect undefined s t ok (s.setPc t (.exited ok))

/-- A file with a record is one. -/
theorem contents_eq_some {file : File} : file.contents = some c ↔ file = .cfg c := by
  cases file <;> simp [File.contents]

/-- The prompt for a field leads to the prompt for its value, to the end, or back, -/
theorem takeField_effect (ok : Bool) (hpc : s.pc t = .askField) :
    Effect undefined s t ok (takeField s t) := by
  unfold takeField
  cases hInput : getUserInput 256 (s.stdin t) with
  | none => exact .endOfInput (Or.inl hpc) hInput
  | some read =>
    obtain ⟨input, rest⟩ := read
    by_cases hQuit : input = quit
    · simp only [if_pos hQuit]
      exact .quit hpc (hQuit ▸ hInput)
    · simp only [if_neg hQuit]
      cases hField : selected input with
      | none => exact .selectNone hpc hInput hQuit hField
      | some f => exact .select hpc hInput hQuit hField

/-- and the prompt for a value to a store or back. -/
theorem takeValue_effect (ok : Bool) (hpc : s.pc t = .askValue f) :
    Effect undefined s t ok (takeValue undefined s t f) := by
  unfold takeValue
  cases hInput : getUserInput 256 (s.stdin t) with
  | none => exact .endOfInput (Or.inr ⟨f, hpc⟩) hInput
  | some read =>
    obtain ⟨input, rest⟩ := read
    by_cases hValue : f.accepts (atoi undefined input) = true
    · simp only [if_pos hValue]
      exact .accept hpc hInput hValue
    · simp only [if_neg hValue]
      exact .refuse hpc hInput hValue

/-- A step of a process is one of the effects. -/
theorem run_effect {ok : Bool} (hst : run undefined s t ok = some s') :
    Effect undefined s t ok s' := by
  unfold run at hst
  cases hpc : s.pc t <;> simp only [hpc, Option.map_eq_some_iff, Option.bind_eq_some_iff,
    Option.some.injEq, contents_eq_some, reduceCtorEq] at hst
  case truncate =>
    subst hst
    cases ok
    · exact .fail rfl (Or.inl hpc)
    · exact .truncate hpc
  case map =>
    subst hst
    cases ok
    · exact .fail rfl (Or.inr (Or.inl hpc))
    · exact .map hpc
  case testDefault =>
    obtain ⟨c, hFile, rfl⟩ := hst
    by_cases hZero : c.baudRate = 0
    · rw [if_pos hZero]
      exact .uninitialized hpc hFile hZero
    · rw [if_neg hZero]
      exact .initialized hpc hFile hZero
  case init f =>
    obtain ⟨c, hFile, rfl⟩ := hst
    exact .init hpc hFile
  case initSync => exact hst ▸ .initSync hpc
  case close => exact hst ▸ .close hpc
  case showBaud =>
    obtain ⟨c, hFile, rfl⟩ := hst
    exact .showBaud hpc hFile
  case showRate baud =>
    obtain ⟨c, hFile, rfl⟩ := hst
    exact .showRate hpc hFile
  case showLog baud rate =>
    obtain ⟨c, hFile, rfl⟩ := hst
    exact .showLog hpc hFile
  case askField => exact hst ▸ takeField_effect ok hpc
  case askValue f => exact hst ▸ takeValue_effect ok hpc
  case store f v =>
    obtain ⟨c, hFile, rfl⟩ := hst
    exact .store hpc hFile
  case sync f v =>
    subst hst
    cases ok
    · exact .syncFailed hpc
    · exact .sync hpc
  case mapRead =>
    subst hst
    cases ok
    · exact .fail rfl (Or.inr (Or.inr (Or.inl hpc)))
    · exact .mapRead hpc
  case closeRead =>
    subst hst
    cases ok
    · exact .fail rfl (Or.inr (Or.inr (Or.inr hpc)))
    · exact .closeRead hpc
  case loop => exact hst ▸ .loop hpc
  case testLow =>
    obtain ⟨c, hFile, rfl⟩ := hst
    by_cases hLow : c.logLevel ≥ 0
    · rw [if_pos hLow]
      exact .notLow hpc hFile hLow
    · rw [if_neg hLow]
      exact .low hpc hFile hLow
  case testHigh =>
    obtain ⟨c, hFile, rfl⟩ := hst
    by_cases hHigh : c.logLevel ≤ 3
    · rw [if_pos hHigh]
      exact .notHigh hpc hFile hHigh
    · rw [if_neg hHigh]
      exact .high hpc hFile hHigh
  case name =>
    obtain ⟨c, hFile, log, hLog, rfl⟩ := hst
    exact .name hpc hFile hLog
  case readBaud log =>
    obtain ⟨c, hFile, rfl⟩ := hst
    exact .readBaud hpc hFile
  case readRate log baud =>
    obtain ⟨c, hFile, rfl⟩ := hst
    exact .readRate hpc hFile
  case unmap => exact hst ▸ .unmap hpc

/-- A process starts, makes a step, is interrupted or is killed. -/
inductive Turn (undefined : Int → Int) (s : State τ) : Action τ → State τ → Prop
  | start {t : τ} {program : Program} {stdin : List Char} {ok : Bool} {file : File}
      (hIdle : s.pc t = .idle) (hOpen : program.openFile s.file = some file) :
      Turn undefined s (.start t program stdin ok)
        { (s.input t stdin).setPc t program.entry with file := file }
  | notOpened {t : τ} {program : Program} {stdin : List Char} {ok : Bool} (hIdle : s.pc t = .idle) :
      Turn undefined s (.start t program stdin ok) ((s.input t stdin).setPc t (.exited false))
  | run {t : τ} {ok : Bool} {s' : State τ} (hEffect : Effect undefined s t ok s') :
      Turn undefined s (.run t ok) s'
  | interrupt (t : τ) : Turn undefined s (.interrupt t)
      { s with keepRunning := Function.update s.keepRunning t false }
  | kill {t : τ} (hLive : s.pc t ≠ .idle) :
      Turn undefined s (.kill t) (s.setPc t (.exited false))

/-- What one step does. -/
theorem step_turn {a : Action τ} (hst : step undefined s a = some s') : Turn undefined s a s' := by
  cases a with
  | start t program stdin ok =>
    simp only [step] at hst
    split at hst
    · next hIdle =>
      obtain rfl := Option.some.inj hst
      unfold start
      split
      · next file hOpen =>
        cases ok
        · simp at hOpen
        · exact .start hIdle hOpen
      · exact .notOpened hIdle
    · simp at hst
  | run t ok => exact .run (run_effect hst)
  | interrupt t =>
    simp only [step] at hst
    split at hst
    · simp at hst
    · simp at hst
    · exact Option.some.inj hst ▸ .interrupt t
  | kill t =>
    simp only [step] at hst
    split at hst
    · simp at hst
    · simp at hst
    · next hIdle _ => exact Option.some.inj hst ▸ .kill hIdle

end EmbLinux.Session09.DeviceConfig
