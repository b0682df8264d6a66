import EmbLinux.Session09.DeviceConfig.Steps

/-!
# EmbLinux — the fields of `/tmp/device.cfg`

What any number of writers and readers make of the file, and what they print of it.

* `device_config_contract` — no interleaving, no input, no failing system call and no killed
  process puts a value into a field that the menu does not offer, none shows one, and the
  reader never reads outside of `names`;
* `bus_error_iff` — a process may access a page that is not there exactly when the file was
  missing or empty.

The file system is one file; a `SIGINT` reaches the handlers of the source, and a kill comes at
any step. What is left out is a file that somebody else truncates while it is mapped.
-/

namespace EmbLinux.Session09.DeviceConfig

-- ---------------------------------------------------------------------------
-- What is in the file
-- ---------------------------------------------------------------------------

/-- The value that the field had at the start, or one that the writer takes for it. -/
def Field.Ok (first : DeviceCfg) (f : Field) (v : Int) : Prop :=
  v = first.get f ∨ f.accepts v = true

/-- The name of a level; one without a name, that the file had at the start, is unknown. -/
def LogOk (first : DeviceCfg) (log : String) : Prop :=
  (∃ level, Field.log.Ok first level ∧ levelName level = some log) ∨
    (log = unknown ∧ Field.log.accepts first.logLevel = false)

/-- What a line shows is in order. -/
def Line.Ok (first : DeviceCfg) : Line → Prop
  | .current cfg => ∀ f : Field, f.Ok first (cfg.get f)
  | .updated f v => f.accepts v = true
  | .report baud rate log =>
    Field.baud.Ok first baud ∧ Field.rate.Ok first rate ∧ LogOk first log
  | _ => True

/-- What a process has read is in order; `cfg` is what the file has now. -/
def Pc.Ok (first cfg : DeviceCfg) : Pc → Prop
  | .showRate baud => Field.baud.Ok first baud
  | .showLog baud rate => Field.baud.Ok first baud ∧ Field.rate.Ok first rate
  | .store f v | .sync f v => f.accepts v = true
  | .testHigh => 0 ≤ cfg.logLevel
  | .name => 0 ≤ cfg.logLevel ∧ cfg.logLevel ≤ 3
  | .readBaud log => LogOk first log
  | .readRate log baud => LogOk first log ∧ Field.baud.Ok first baud
  | _ => True

/-- The steps of the writer behind `ftruncate`. -/
def Pc.writes : Pc → Bool
  | .map | .testDefault | .init _ | .initSync | .close | .showBaud | .showRate _ | .showLog _ _
  | .askField | .askValue _ | .store _ _ | .sync _ _ => true
  | _ => false

/-- A field is set to a value that the writer takes, or the contents are as before; a page
that is there stays. -/
structure Changed (file file' : File) : Prop where
  filled : file'.filled = file.filled ∨
    ∃ (f : Field) (v : Int), f.accepts v = true ∧ file'.filled = file.filled.set f v
  contents : file.contents ≠ none → file'.contents ≠ none

/-- Each field is as it was at first or as the menu offers it, in the file, in what a process is
about to write, and in what was printed; and a writer has its page. -/
structure Inv (first : File) (s : State τ) : Prop where
  /-- A field has what it had at first or what its menu offers, -/
  fields : ∀ f : Field, f.Ok first.filled (s.file.filled.get f)
  /-- a process has read such values only, -/
  pc : ∀ t, (s.pc t).Ok first.filled s.file.filled
  /-- and they are what is shown. -/
  printed : ∀ t line, (t, line) ∈ s.printed → line.Ok first.filled
  /-- A writer that stores has its page. -/
  mapped : ∀ t, (s.pc t).writes = true → s.file.contents ≠ none
  /-- A file that had a record keeps one. -/
  kept : first.contents ≠ none → s.file.contents ≠ none

variable {τ : Type*} [DecidableEq τ] {undefined : Int → Int} {s s' : State τ} {t : τ} {f : Field}
  {c first : DeviceCfg} {v : Int} {file : File} {pc : Pc} {a : Action τ} {l : List Line}

/-- Every default is one of the values that its own menu offers. -/
theorem Field.default_accepted (f : Field) : f.accepts f.default = true := by
  cases f <;> rfl

/-- Setting a field changes this field. -/
theorem DeviceCfg.get_set (c : DeviceCfg) (f g : Field) (v : Int) :
    (c.set f v).get g = if g = f then v else c.get g := by
  cases f <;> cases g <;> rfl

/-- The log levels that are offered are 0 to 3, -/
theorem level_of_accepted (h : Field.log.accepts v = true) : 0 ≤ v ∧ v ≤ 3 := by
  simpa [Field.accepts] using h

/-- and these have names. -/
theorem levelName_isSome (h : 0 ≤ v ∧ v ≤ 3) : (levelName v).isSome = true := by
  have hCases : v = 0 ∨ v = 1 ∨ v = 2 ∨ v = 3 := by omega
  rcases hCases with rfl | rfl | rfl | rfl <;> rfl

/-- A step that leaves the file alone, -/
theorem Changed.refl (file : File) : Changed file file := ⟨Or.inl rfl, id⟩

/-- one that makes it as long as a record, -/
theorem Changed.truncate (file : File) : Changed file file.truncate :=
  ⟨Or.inl rfl, fun _ h => by cases h⟩

/-- one that opens it, -/
theorem Changed.open {program : Program} {file' : File}
    (hOpen : program.openFile file = some file') : Changed file file' := by
  cases program <;> cases file <;> cases hOpen <;> exact ⟨Or.inl rfl, id⟩

omit [DecidableEq τ] in
/-- and one that stores an accepted value. -/
theorem Changed.set (hFile : s.file = .cfg c) (hValue : f.accepts v = true) :
    Changed s.file (.cfg (c.set f v)) :=
  ⟨Or.inr ⟨f, v, hValue, by rw [hFile]; rfl⟩, fun _ h => by cases h⟩

/-- A level that is not negative, or in the array, stays so. -/
theorem Changed.level {file file' : File} (hChanged : Changed file file') :
    (0 ≤ file.filled.logLevel → 0 ≤ file'.filled.logLevel) ∧
      (file.filled.logLevel ≤ 3 → file'.filled.logLevel ≤ 3) := by
  rcases hChanged.filled with hSame | ⟨f, v, hValue, hSet⟩
  · rw [hSame]
    exact ⟨id, id⟩
  · rw [hSet]
    cases f with
    | baud => exact ⟨id, id⟩
    | rate => exact ⟨id, id⟩
    | log =>
      have hLevel := level_of_accepted hValue
      exact ⟨fun _ => hLevel.1, fun _ => hLevel.2⟩

/-- All of them keep the fields. -/
theorem Changed.fields {file file' : File} (hChanged : Changed file file')
    (hFields : ∀ f : Field, f.Ok first (file.filled.get f)) (f : Field) :
    f.Ok first (file'.filled.get f) := by
  rcases hChanged.filled with hSame | ⟨g, v, hValue, hSet⟩
  · rw [hSame]
    exact hFields f
  · rw [hSet, DeviceCfg.get_set]
    split
    · next hf =>
      subst hf
      exact Or.inr hValue
    · exact hFields f

/-- What another process does to the file does not touch what was read. -/
theorem Changed.ok {file file' : File} (hChanged : Changed file file')
    (hOk : pc.Ok first file.filled) : pc.Ok first file'.filled := by
  cases pc
  case testHigh => exact hChanged.level.1 hOk
  case name => exact ⟨hChanged.level.1 hOk.1, hChanged.level.2 hOk.2⟩
  all_goals exact hOk

-- ---------------------------------------------------------------------------
-- The steps
-- ---------------------------------------------------------------------------

/-- Nothing has happened to the file. -/
theorem inv_init (undefined : Int → Int) (file : File) :
    Inv file (system τ undefined file).init where
  fields _ := Or.inl rfl
  pc _ := trivial
  printed _ _ h := nomatch h
  mapped _ h := nomatch h
  kept h := h

/-- One process goes on, and prints `l`. -/
theorem Inv.move (hI : Inv file s) (hPc : s'.pc = Function.update s.pc t pc)
    (hPrinted : s'.printed = s.printed ++ l.map (t, ·)) (hChanged : Changed s.file s'.file)
    (hOk : pc.Ok file.filled s'.file.filled) (hLines : ∀ line ∈ l, line.Ok file.filled)
    (hMapped : pc.writes = true → s'.file.contents ≠ none) : Inv file s' where
  fields := hChanged.fields hI.fields
  pc := by
    intro u
    rcases update_cases hPc u with ⟨-, hu⟩ | ⟨-, hu⟩ <;> rw [hu]
    · exact hOk
    · exact hChanged.ok (hI.pc u)
  printed := by
    intro u line hMem
    rw [hPrinted, List.mem_append] at hMem
    rcases hMem with hOld | hNew
    · exact hI.printed u line hOld
    · obtain ⟨line', hLine, hEq⟩ := List.mem_map.mp hNew
      cases hEq
      exact hLines line hLine
  mapped := by
    intro u hu
    rcases update_cases hPc u with ⟨-, hAt⟩ | ⟨-, hAt⟩ <;> rw [hAt] at hu
    · exact hMapped hu
    · exact hChanged.contents (hI.mapped u hu)
  kept := fun hFirst => hChanged.contents (hI.kept hFirst)

/-- A step that leaves the file alone and prints nothing. -/
theorem Inv.goTo (hI : Inv file s) (hPc : s'.pc = Function.update s.pc t pc)
    (hPrinted : s'.printed = s.printed) (hFile : s'.file = s.file)
    (hOk : pc.Ok file.filled s.file.filled)
    (hMapped : pc.writes = true → s.file.contents ≠ none) : Inv file s' := by
  refine hI.move (l := []) hPc ?_ ?_ ?_ (List.forall_mem_nil _) ?_
  · rw [hPrinted, List.map_nil, List.append_nil]
  · rw [hFile]
    exact .refl _
  · rw [hFile]
    exact hOk
  · rw [hFile]
    exact hMapped

/-- A step that leaves the file alone and prints a line. -/
theorem Inv.print {line : Line} (hI : Inv file s) (hPc : s'.pc = Function.update s.pc t pc)
    (hPrinted : s'.printed = s.printed ++ [(t, line)]) (hFile : s'.file = s.file)
    (hOk : pc.Ok file.filled s.file.filled) (hLine : line.Ok file.filled)
    (hMapped : pc.writes = true → s.file.contents ≠ none) : Inv file s' := by
  refine hI.move (l := [line]) hPc hPrinted ?_ ?_ (by simpa using hLine) ?_
  · rw [hFile]
    exact .refl _
  · rw [hFile]
    exact hOk
  · rw [hFile]
    exact hMapped

section

omit [DecidableEq τ]

/-- What is known at a program point. -/
theorem Inv.ok (hI : Inv file s) (hpc : s.pc t = pc) : pc.Ok file.filled s.file.filled :=
  hpc ▸ hI.pc t

/-- A writer that writes has its page. -/
theorem Inv.isMapped (hI : Inv file s) (hpc : s.pc t = pc) (hWrites : pc.writes = true) :
    s.file.contents ≠ none :=
  hI.mapped t (hpc ▸ hWrites)

theorem Inv.read (hI : Inv file s) (hFile : s.file = .cfg c) (f : Field) :
    f.Ok file.filled (c.get f) := by
  have hField := hI.fields f
  rwa [hFile] at hField

theorem Inv.level (hI : Inv file s) (hFile : s.file = .cfg c)
    (hOut : ¬ (c.logLevel ≥ 0 ∧ c.logLevel ≤ 3)) : LogOk file.filled unknown := by
  rcases hI.read hFile .log with hFirst | hTaken
  · have hFirst' : c.logLevel = file.filled.logLevel := hFirst
    refine Or.inr ⟨rfl, ?_⟩
    rw [← hFirst', Bool.eq_false_iff]
    exact fun hTaken => hOut (level_of_accepted hTaken)
  · exact absurd (level_of_accepted hTaken) hOut

end

/-- A case for each effect: the stores are of defaults or of values that the menu accepted. -/
theorem inv_effect {ok : Bool} (hI : Inv file s) (h : Effect undefined s t ok s') :
    Inv file s' := by
  have hCfg : ∀ {c : DeviceCfg}, s.file = .cfg c → s.file.contents ≠ none :=
    fun hFile => by rw [hFile]; exact Option.some_ne_none _
  cases h with
  | fail hFails hpc => exact hI.goTo rfl rfl rfl trivial nofun
  | truncate hpc =>
    exact hI.move (l := []) rfl (List.append_nil _).symm (.truncate _) trivial
      (List.forall_mem_nil _) fun _ => Option.some_ne_none _
  | map hpc => exact hI.goTo rfl rfl rfl trivial fun _ => hI.isMapped hpc rfl
  | uninitialized hpc hFile hZero => exact hI.goTo rfl rfl rfl trivial fun _ => hCfg hFile
  | initialized hpc hFile hSet => exact hI.goTo rfl rfl rfl trivial fun _ => hCfg hFile
  | @init f c hpc hFile =>
    refine hI.move (l := []) rfl (List.append_nil _).symm
      (.set hFile f.default_accepted) ?_ (List.forall_mem_nil _) fun _ => Option.some_ne_none _
    cases f <;> trivial
  | initSync hpc => exact hI.goTo rfl rfl rfl trivial fun _ => hI.isMapped hpc rfl
  | close hpc => exact hI.print rfl rfl rfl trivial trivial fun _ => hI.isMapped hpc rfl
  | showBaud hpc hFile => exact hI.goTo rfl rfl rfl (hI.read hFile .baud) fun _ => hCfg hFile
  | showRate hpc hFile =>
    exact hI.goTo rfl rfl rfl ⟨hI.ok hpc, hI.read hFile .rate⟩ fun _ => hCfg hFile
  | showLog hpc hFile =>
    refine hI.print rfl rfl rfl trivial ?_ fun _ => hCfg hFile
    intro f
    cases f with
    | baud => exact (hI.ok hpc).1
    | rate => exact (hI.ok hpc).2
    | log => exact hI.read hFile .log
  | endOfInput hpc hInput => exact hI.goTo rfl rfl rfl trivial nofun
  | quit hpc hInput => exact hI.goTo rfl rfl rfl trivial nofun
  | select hpc hInput hQuit hField =>
    exact hI.goTo rfl rfl rfl trivial fun _ => hI.isMapped hpc rfl
  | selectNone hpc hInput hQuit hField =>
    exact hI.print rfl rfl rfl trivial trivial fun _ => hI.isMapped hpc rfl
  | accept hpc hInput hValue =>
    exact hI.goTo rfl rfl rfl hValue fun _ => hI.isMapped hpc rfl
  | refuse hpc hInput hValue =>
    exact hI.print rfl rfl rfl trivial trivial fun _ => hI.isMapped hpc rfl
  | store hpc hFile =>
    exact hI.move (l := []) rfl (List.append_nil _).symm (.set hFile (hI.ok hpc)) (hI.ok hpc)
      (List.forall_mem_nil _) fun _ => Option.some_ne_none _
  | sync hpc => exact hI.print rfl rfl rfl trivial (hI.ok hpc) fun _ => hI.isMapped hpc rfl
  | syncFailed hpc => exact hI.goTo rfl rfl rfl trivial fun _ => hI.isMapped hpc rfl
  | mapRead hpc => exact hI.goTo rfl rfl rfl trivial nofun
  | closeRead hpc => exact hI.print rfl rfl rfl trivial trivial nofun
  | loop hpc =>
    refine hI.goTo rfl rfl rfl ?_ ?_ <;> split
    · trivial
    · trivial
    · exact nofun
    · exact nofun
  | low hpc hFile hLow =>
    exact hI.goTo rfl rfl rfl (hI.level hFile fun h => hLow h.1) nofun
  | notLow hpc hFile hLow =>
    refine hI.goTo rfl rfl rfl ?_ nofun
    rw [hFile]
    exact hLow
  | high hpc hFile hHigh =>
    exact hI.goTo rfl rfl rfl (hI.level hFile fun h => hHigh h.2) nofun
  | notHigh hpc hFile hHigh =>
    refine hI.goTo rfl rfl rfl ⟨hI.ok hpc, ?_⟩ nofun
    rw [hFile]
    exact hHigh
  | name hpc hFile hLog =>
    exact hI.goTo rfl rfl rfl (Or.inl ⟨_, hI.read hFile .log, hLog⟩) nofun
  | readBaud hpc hFile =>
    exact hI.goTo rfl rfl rfl ⟨hI.ok hpc, hI.read hFile .baud⟩ nofun
  | readRate hpc hFile =>
    exact hI.print rfl rfl rfl trivial ⟨(hI.ok hpc).2, hI.read hFile .rate, (hI.ok hpc).1⟩ nofun
  | unmap hpc => exact hI.goTo rfl rfl rfl trivial nofun

/-- A start, a signal and a kill store nothing. -/
theorem inv_turn (hI : Inv file s) (h : Turn undefined s a s') : Inv file s' := by
  cases h with
  | @start t program stdin ok file' hIdle hOpen =>
    refine hI.move (l := []) rfl (List.append_nil _).symm (.open hOpen) ?_
      (List.forall_mem_nil _) ?_
    · cases program <;> trivial
    · cases program <;> exact nofun
  | notOpened hIdle => exact hI.goTo rfl rfl rfl trivial nofun
  | run hEffect => exact inv_effect hI hEffect
  | interrupt u => exact ⟨hI.fields, hI.pc, hI.printed, hI.mapped, hI.kept⟩
  | kill hLive => exact hI.goTo rfl rfl rfl trivial nofun

/-- In every state, from any file. -/
theorem inv_reachable (h : (system τ undefined file).Reachable s) : Inv file s :=
  h.invariant (inv_init undefined file) fun _ _ _ _ hI _ hst => inv_turn hI (step_turn hst)

-- ---------------------------------------------------------------------------
-- The contract
-- ---------------------------------------------------------------------------

/-- The process has started and has not exited. -/
def Pc.isLive : Pc → Bool
  | .idle | .exited _ => false
  | _ => true

/-- The process runs the reader. -/
def Pc.isReader : Pc → Bool
  | .mapRead | .closeRead | .loop | .testLow | .testHigh | .name | .readBaud _ | .readRate _ _ =>
    true
  | _ => false

/-- A process that is running goes on, save a reader of a page that never was there. -/
theorem Inv.not_stuck (hI : Inv file s) (ok : Bool) (hLive : (s.pc t).isLive = true) :
    (run undefined s t ok).isSome = true ∨
      ((s.pc t).isReader = true ∧ BusError s t ∧ file.contents = none) := by
  by_cases hContents : s.file.contents = none
  · have hFirst : file.contents = none := by
      by_contra hFirst
      exact hI.kept hFirst hContents
    have hNotWriting : (s.pc t).writes ≠ true := fun hWrites => hI.mapped t hWrites hContents
    unfold run BusError
    cases hpc : s.pc t <;> simp_all [Pc.isLive, Pc.isReader, Pc.accesses, Pc.writes]
  · obtain ⟨c, hc⟩ := Option.ne_none_iff_exists'.mp hContents
    refine Or.inl ?_
    unfold run
    cases hpc : s.pc t <;> simp only [hc, Option.map_some, Option.isSome_some]
    case idle => simp [Pc.isLive, hpc] at hLive
    case exited => simp [Pc.isLive, hpc] at hLive
    case name =>
      have hLevel := hI.ok hpc
      rw [contents_eq_some.mp hc] at hLevel
      obtain ⟨log, hLog⟩ := Option.isSome_iff_exists.mp (levelName_isSome hLevel)
      have hLog' : levelName c.logLevel = some log := hLog
      simp [hLog']

/-- **The contract of the file.** Whatever writers and readers are run on it, with whatever
input, in whatever order: -/
theorem device_config_contract (undefined : Int → Int) (file : File) {s : State τ}
    (h : (system τ undefined file).Reachable s) :
    -- a field has its first value, or one that the menu offers,
    (∀ f : Field, f.Ok file.filled (s.file.filled.get f)) ∧
    -- so has every field that is shown, and only values that the menu offers are reported set,
    (∀ t line, (t, line) ∈ s.printed → line.Ok file.filled) ∧
    -- and no process that is running is stuck, save a reader of a page that never was there.
    (∀ t ok, (s.pc t).isLive = true → (run undefined s t ok).isSome = true ∨
      ((s.pc t).isReader = true ∧ BusError s t ∧ file.contents = none)) := by
  have hI := inv_reachable h
  exact ⟨hI.fields, hI.printed, fun _ ok hLive => hI.not_stuck ok hLive⟩

/-- A reader shows what the file had, then what a writer has set. -/
theorem device_config_contract_unknown :
    ∃ s : State Bool, (system Bool id (.cfg ⟨115200, 5, 7⟩)).Reachable s ∧
      s.printed = [(true, .polling), (true, .report 115200 5 unknown), (false, .loaded),
        (false, .current ⟨115200, 5, 7⟩), (false, .updated .log 1),
        (true, .report 115200 5 "ERROR")] ∧
      ∀ t line, (t, line) ∈ s.printed → line.Ok ⟨115200, 5, 7⟩ := by
  obtain ⟨s, hs, hPrinted⟩ := System.exists_reachable_of_exec
    (S := system Bool id (.cfg ⟨115200, 5, 7⟩))
    (p := fun s => s.printed = [(true, .polling), (true, .report 115200 5 unknown),
      (false, .loaded), (false, .current ⟨115200, 5, 7⟩), (false, .updated .log 1),
      (true, .report 115200 5 "ERROR")])
    (List.flatten [[.start true .reader [] true], List.replicate 7 (.run true true),
      [.start false .writer "log\n1\n".toList true], List.replicate 11 (.run false true),
      List.replicate 6 (.run true true)])
    (by decide +kernel)
  exact ⟨s, hs, hPrinted, (device_config_contract id (.cfg ⟨115200, 5, 7⟩) hs).2.1⟩

/-- A reader that starts before the writer has called `ftruncate`. -/
theorem bus_error_reachable {t u : τ} (hne : t ≠ u) (hFile : file.contents = none) :
    ∃ s, (system τ undefined file).Reachable s ∧ BusError s u := by
  obtain ⟨s, hReach, hEmpty, hIdle, hRunning⟩ : ∃ s, (system τ undefined file).Reachable s ∧
      s.file = .empty ∧ s.pc u = .idle ∧ s.keepRunning u = true := by
    cases file with
    | absent =>
      refine ⟨_, .act .init (.start t .writer [] true) trivial rfl, rfl, ?_, rfl⟩
      exact Function.update_of_ne hne.symm ..
    | empty => exact ⟨_, .init, rfl, rfl, rfl⟩
    | cfg c => cases hFile
  have hExec : ∃ s', (system τ undefined file).exec s
      [.start u .reader [] true, .run u true, .run u true, .run u true] = some s' ∧
      s'.pc u = .testLow ∧ s'.file = .empty := by
    simp [System.exec_cons, system, step, start, run, hIdle, hEmpty, hRunning, Program.openFile,
      Program.entry, State.setPc, State.input, State.print]
  obtain ⟨s', hRun, hpc, hFile'⟩ := hExec
  exact ⟨s', hReach.exec hRun, by rw [hpc]; rfl, by rw [hFile']; rfl⟩

/-- **When a page is missing**: a process can access one exactly when the file was missing or
empty at the start. The reader maps the file between the `open` of the writer, which makes it,
and its `ftruncate`; with a file that was there, no interleaving leads to such an access. -/
theorem bus_error_iff (undefined : Int → Int) (file : File) {t u : τ} (hne : t ≠ u) :
    (∃ s, (system τ undefined file).Reachable s ∧ BusError s u) ↔ file.contents = none := by
  constructor
  · rintro ⟨s, hReach, -, hContents⟩
    by_contra hFirst
    exact (inv_reachable hReach).kept hFirst hContents
  · exact bus_error_reachable hne

theorem bus_error_iff_missing :
    ∃ s : State Bool, (system Bool id .absent).Reachable s ∧ BusError s true :=
  (bus_error_iff id .absent (by decide : false ≠ true)).mpr rfl

end EmbLinux.Session09.DeviceConfig
