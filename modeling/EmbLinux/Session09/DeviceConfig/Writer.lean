import EmbLinux.Lib.Measure
import EmbLinux.Session09.DeviceConfig.Fields

/-!
# EmbLinux — what `writer.c` makes of its input

`interpret` is the meaning of the input of the menu, as a function of the contents. The steps
of one writer, between those of any number of readers, compute it.

* `writer_interprets` — a writer that exits with success leaves the file as the meaning of its
  input, and a writer that is running can always exit with success;
* `typed_updates_applied` — typing the fields and the decimal digits of any values sets
  exactly those that the menu offers.

## Results

* `Effect.outcome` — the step lemma: what the rest of the input makes of the file is the same
  before and after a step of the writer.
* `alone_turn`, `alone_reachable` — from it, what holds in every run with one writer.
* `exists_step` — a writer that is running comes nearer to its exit by its own steps.
* `interpret_script` — the meaning of a text of well-formed updates.
-/

namespace EmbLinux.Session09.DeviceConfig

-- ---------------------------------------------------------------------------
-- The meaning of the input
-- ---------------------------------------------------------------------------

/-- What typing a value does: it is stored if the menu accepts it. -/
def DeviceCfg.update (cfg : DeviceCfg) (f : Field) (v : Int) : DeviceCfg :=
  if f.accepts v then cfg.set f v else cfg

/-- What the inputs make of the contents; `select` is the field that the next value is for. -/
def interpret (undefined : Int → Int) (select : Option Field) :
    List (List Char) → DeviceCfg → DeviceCfg
  | [], cfg => cfg
  | input :: rest, cfg =>
    match select with
    | none => if input = quit then cfg else interpret undefined (selected input) rest cfg
    | some f => interpret undefined none rest (cfg.update f (atoi undefined input))

/-- A new file gets the default values. -/
def DeviceCfg.initialized (cfg : DeviceCfg) : DeviceCfg :=
  if cfg.baudRate = 0 then ⟨Field.baud.default, Field.rate.default, Field.log.default⟩ else cfg

/-- The inputs that the writer reads. -/
def inputs (stdin : List Char) : List (List Char) := kept 256 (lines '\n' stdin)

/-- Only the process `w` runs the writer, with this input. -/
def OnlyWriter (w : τ) (text : List Char) (_ : State τ) : Action τ → Prop
  | .start t program stdin _ =>
    (t = w → program = .writer ∧ stdin = text) ∧ (t ≠ w → program = .reader)
  | _ => True

instance {τ : Type*} [DecidableEq τ] (w : τ) (text : List Char) (s : State τ) (a : Action τ) :
    Decidable (OnlyWriter w text s a) :=
  match a with
  | .start t program stdin _ =>
    inferInstanceAs
      (Decidable ((t = w → program = .writer ∧ stdin = text) ∧ (t ≠ w → program = .reader)))
  | .run _ _ => .isTrue trivial
  | .interrupt _ => .isTrue trivial
  | .kill _ => .isTrue trivial

/-- The default values of the fields from `f` on are still to be stored. -/
def DeviceCfg.initFrom (cfg : DeviceCfg) : Field → DeviceCfg
  | .baud => ⟨Field.baud.default, Field.rate.default, Field.log.default⟩
  | .rate => ⟨cfg.baudRate, Field.rate.default, Field.log.default⟩
  | .log => ⟨cfg.baudRate, cfg.samplingRateHz, Field.log.default⟩

/-- What a writer will leave. -/
def Pc.outcome (undefined : Int → Int) (stdin : List Char) (file : File) : Pc → Option DeviceCfg
  | .truncate | .map | .testDefault =>
    some (interpret undefined none (inputs stdin) file.filled.initialized)
  | .init f => some (interpret undefined none (inputs stdin) (file.filled.initFrom f))
  | .initSync | .close | .showBaud | .showRate _ | .showLog _ _ | .askField | .sync _ _ =>
    some (interpret undefined none (inputs stdin) file.filled)
  | .askValue f => some (interpret undefined (some f) (inputs stdin) file.filled)
  | .store f v => some (interpret undefined none (inputs stdin) (file.filled.set f v))
  | .unmap | .exited true => file.contents
  | _ => none

/-- The step may change the file. -/
def Pc.alters (pc : Pc) : Bool :=
  pc.writes || decide (pc = .truncate)

/-- The writer will leave `final`, and the others do not change the file. -/
structure Alone (undefined : Int → Int) (w : τ) (first : File) (final : DeviceCfg) (s : State τ) :
    Prop where
  others : ∀ t, t ≠ w → (s.pc t).alters = false
  waiting : s.pc w = .idle → s.file = first
  outcome : s.pc w = .idle ∨ s.pc w = .exited false ∨
    (s.pc w).outcome undefined (s.stdin w) s.file = some final

variable {τ : Type*} [DecidableEq τ] {undefined : Int → Int} {s s' : State τ} {t w : τ} {f : Field}
  {c final : DeviceCfg} {v : Int} {file : File} {a : Action τ} {text input rest : List Char}
  {ok : Bool}

/-- At the end of the text there are no inputs, -/
theorem inputs_of_end (hEnd : getUserInput 256 text = none) : inputs text = [] :=
  kept_of_end (by decide) hEnd

/-- and what was read first is the first of them. -/
theorem inputs_of_input (hInput : getUserInput 256 text = some (input, rest)) :
    inputs text = input :: inputs rest :=
  kept_of_input (by decide) hInput

-- ---------------------------------------------------------------------------
-- The steps
-- ---------------------------------------------------------------------------

/-- A step leaves the other processes alone. -/
theorem Effect.other {u : τ} (h : Effect undefined s t ok s') (hne : u ≠ t) :
    s'.pc u = s.pc u ∧ s'.stdin u = s.stdin u := by
  cases h <;> simp [State.setPc, State.print, State.input, Function.update_of_ne hne]

/-- A reader does not change the file, and stays a reader. -/
theorem Effect.quiet (h : Effect undefined s t ok s') (hQuiet : (s.pc t).alters = false) :
    s'.file = s.file ∧ (s'.pc t).alters = false := by
  cases h
  case endOfInput hpc hInput =>
    rcases hpc with hpc | ⟨f, hpc⟩ <;> simp [hpc, Pc.alters, Pc.writes] at hQuiet
  case loop hpc =>
    refine ⟨rfl, ?_⟩
    simp only [State.setPc, Function.update_self]
    split <;> rfl
  all_goals simp_all [State.setPc, State.print, Pc.alters, Pc.writes]

/-- A file that has a record has the one that its beginning is filled to. -/
theorem contents_of_ne (hFile : file.contents ≠ none) : file.contents = some file.filled := by
  cases file with
  | cfg c => rfl
  | absent => exact absurd rfl hFile
  | empty => exact absurd rfl hFile

/-- Without inputs the record stays. -/
theorem interpret_end (hEnd : getUserInput 256 text = none) (select : Option Field) :
    interpret undefined select (inputs text) c = c := by
  rw [inputs_of_end hEnd]
  rfl

/-- An input of the menu. -/
theorem interpret_select (hInput : getUserInput 256 text = some (input, rest)) :
    interpret undefined none (inputs text) c =
      if input = quit then c else interpret undefined (selected input) (inputs rest) c := by
  rw [inputs_of_input hInput]
  rfl

/-- A value for the field. -/
theorem interpret_value (hInput : getUserInput 256 text = some (input, rest)) (f : Field) :
    interpret undefined (some f) (inputs text) c =
      interpret undefined none (inputs rest) (c.update f (atoi undefined input)) := by
  rw [inputs_of_input hInput]
  rfl

/-- A record without a baud rate is initialized, any other one is left. -/
theorem initialized_or (c : DeviceCfg) :
    (c.baudRate = 0 ∧ c.initialized = c.initFrom .baud) ∨ (c.baudRate ≠ 0 ∧ c.initialized = c) := by
  unfold DeviceCfg.initialized
  by_cases hZero : c.baudRate = 0
  · exact Or.inl ⟨hZero, if_pos hZero⟩
  · exact Or.inr ⟨hZero, if_neg hZero⟩

/-- **What the writer leaves does not change** from one of its steps to the next, unless a
system call fails. -/
theorem Effect.outcome (h : Effect undefined s w ok s')
    (hMapped : (s.pc w).writes = true → s.file.contents ≠ none)
    (hOutcome : (s.pc w).outcome undefined (s.stdin w) s.file = some final) :
    s'.pc w = .exited false ∨ (s'.pc w).outcome undefined (s'.stdin w) s'.file = some final := by
  -- `w` stands at `pc` then, and will leave the same.
  have goTo : ∀ {pc : Pc}, s'.pc w = pc → pc.outcome undefined (s'.stdin w) s'.file =
      (s.pc w).outcome undefined (s.stdin w) s.file → s'.pc w = .exited false ∨
      (s'.pc w).outcome undefined (s'.stdin w) s'.file = some final := by
    intro pc hAt hSame
    rw [hAt]
    exact Or.inr (hSame.trans hOutcome)
  cases h with
  | fail hFails hpc => exact Or.inl (Function.update_self ..)
  | truncate hpc | map hpc | initSync hpc | close hpc | sync hpc | syncFailed hpc =>
    exact goTo (Function.update_self ..) (by rw [hpc]; rfl)
  | showBaud hpc hFile | showRate hpc hFile | showLog hpc hFile =>
    exact goTo (Function.update_self ..) (by rw [hpc]; rfl)
  | @uninitialized c hpc hFile hZero =>
    refine goTo (Function.update_self ..) ?_
    rcases initialized_or c with ⟨-, hInit⟩ | ⟨hSet, -⟩
    · simp [hpc, hFile, Pc.outcome, File.filled, hInit, State.setPc]
    · exact absurd hZero hSet
  | @initialized c hpc hFile hSet =>
    refine goTo (Function.update_self ..) ?_
    rcases initialized_or c with ⟨hZero, -⟩ | ⟨-, hInit⟩
    · exact absurd hZero hSet
    · simp [hpc, hFile, Pc.outcome, File.filled, hInit, State.setPc]
  | @init f c hpc hFile =>
    refine goTo (Function.update_self ..) ?_
    rw [hpc, hFile]
    cases f <;> rfl
  | endOfInput hpc hInput =>
    refine goTo (Function.update_self ..) ?_
    rcases hpc with hpc | ⟨f, hpc⟩ <;> rw [hpc] at hMapped ⊢ <;>
      exact (contents_of_ne (hMapped rfl)).trans (congrArg some (interpret_end hInput _).symm)
  | quit hpc hInput =>
    refine goTo (Function.update_self ..) ?_
    rw [hpc] at hMapped ⊢
    refine (contents_of_ne (hMapped rfl)).trans (congrArg some ?_)
    rw [interpret_select hInput, if_pos rfl]
  | @select f input rest hpc hInput hQuit hField =>
    refine goTo (Function.update_self ..) ?_
    simp [hpc, Pc.outcome, interpret_select hInput, hQuit, hField, State.setPc, State.input]
  | @selectNone input rest hpc hInput hQuit hField =>
    refine goTo (Function.update_self ..) ?_
    simp [hpc, Pc.outcome, interpret_select hInput, hQuit, hField, State.setPc, State.print,
      State.input]
  | @accept f input rest hpc hInput hValue =>
    refine goTo (Function.update_self ..) ?_
    simp [hpc, Pc.outcome, interpret_value hInput, DeviceCfg.update, hValue, State.setPc,
      State.input]
  | @refuse f input rest hpc hInput hValue =>
    refine goTo (Function.update_self ..) ?_
    simp [hpc, Pc.outcome, interpret_value hInput, DeviceCfg.update, hValue, State.setPc,
      State.print, State.input]
  | store hpc hFile =>
    refine goTo (Function.update_self ..) ?_
    rw [hpc, hFile]
    rfl
  | unmap hpc =>
    cases ok
    · exact Or.inl (Function.update_self ..)
    · exact goTo (Function.update_self ..) (by rw [hpc]; rfl)
  | mapRead hpc | closeRead hpc | loop hpc =>
    rw [hpc] at hOutcome
    cases hOutcome
  | low hpc hFile _ | notLow hpc hFile _ | high hpc hFile _ | notHigh hpc hFile _ | name hpc hFile _
  | readBaud hpc hFile | readRate hpc hFile =>
    rw [hpc] at hOutcome
    cases hOutcome

/-- A process that makes a step is running. -/
theorem Effect.live (h : Effect undefined s t ok s') : (s.pc t).isLive = true := by
  cases h
  case fail hFails hpc => rcases hpc with hpc | hpc | hpc | hpc <;> rw [hpc] <;> rfl
  case endOfInput hpc hInput => rcases hpc with hpc | ⟨f, hpc⟩ <;> rw [hpc] <;> rfl
  all_goals simp_all [Pc.isLive]

/-- The writer has not been started. -/
theorem alone_init (undefined : Int → Int) (w : τ) (file : File) (final : DeviceCfg) :
    Alone undefined w file final (system τ undefined file).init where
  others _ _ := rfl
  waiting _ := rfl
  outcome := Or.inl rfl

/-- A process that is not the writer moves, and leaves the file. -/
theorem Alone.other (hA : Alone undefined w file final s) (hFile : s'.file = s.file)
    (hpc : s'.pc w = s.pc w) (hStdin : s'.stdin w = s.stdin w)
    (hOthers : ∀ u, u ≠ t → s'.pc u = s.pc u) (hQuiet : (s'.pc t).alters = false) :
    Alone undefined w file final s' where
  others := by
    intro u hu
    by_cases hut : u = t
    · rw [hut]
      exact hQuiet
    · rw [hOthers u hut]
      exact hA.others u hu
  waiting := by
    rw [hpc, hFile]
    exact hA.waiting
  outcome := by
    rw [hpc, hFile, hStdin]
    exact hA.outcome

omit [DecidableEq τ] in
/-- The writer moves. -/
theorem Alone.own (hA : Alone undefined w file final s) (hOthers : ∀ u, u ≠ w → s'.pc u = s.pc u)
    (hOutcome : s'.pc w = .exited false ∨
      (s'.pc w).outcome undefined (s'.stdin w) s'.file = some final) :
    Alone undefined w file final s' where
  others := by
    intro u hu
    rw [hOthers u hu]
    exact hA.others u hu
  waiting := by
    intro hIdle
    rw [hIdle] at hOutcome
    rcases hOutcome with hFailed | hNone
    · cases hFailed
    · cases hNone
  outcome := Or.inr hOutcome

/-- A step of the writer does what its next input means; a step of a reader leaves the file
alone. -/
theorem alone_turn (hA : Alone undefined w file
      (interpret undefined none (inputs text) file.filled.initialized) s)
    (hMapped : (s.pc w).writes = true → s.file.contents ≠ none) (hok : OnlyWriter w text s a)
    (h : Turn undefined s a s') : Alone undefined w file
      (interpret undefined none (inputs text) file.filled.initialized) s' := by
  cases h with
  | @start t program stdin ok file' hIdle hOpen =>
    by_cases htw : t = w
    · obtain ⟨rfl, rfl⟩ := hok.1 htw
      subst htw
      obtain rfl := Option.some.inj hOpen
      refine hA.own (fun u hu => Function.update_of_ne hu ..) (Or.inr ?_)
      rw [hA.waiting hIdle]
      simp only [State.setPc, State.input, Function.update_self, Program.entry, Pc.outcome]
      cases file <;> rfl
    · obtain rfl := hok.2 htw
      have hFile : file' = s.file := by
        cases hs : s.file <;> rw [hs] at hOpen <;> cases hOpen <;> rfl
      refine hA.other hFile (Function.update_of_ne (Ne.symm htw) ..)
        (Function.update_of_ne (Ne.symm htw) ..) (fun u hu => Function.update_of_ne hu ..) ?_
      simp only [State.setPc, Function.update_self]
      rfl
  | @notOpened t program stdin ok hIdle =>
    by_cases htw : t = w
    · subst htw
      exact hA.own (fun u hu => Function.update_of_ne hu ..) (Or.inl (Function.update_self ..))
    · refine hA.other rfl (Function.update_of_ne (Ne.symm htw) ..)
        (Function.update_of_ne (Ne.symm htw) ..) (fun u hu => Function.update_of_ne hu ..) ?_
      simp only [State.setPc, Function.update_self]
      rfl
  | @run t ok s' hEffect =>
    by_cases htw : t = w
    · subst htw
      refine hA.own (fun u hu => (hEffect.other hu).1) ?_
      rcases hA.outcome with hIdle | hFailed | hOutcome
      · have hLive := hEffect.live
        rw [hIdle] at hLive
        cases hLive
      · have hLive := hEffect.live
        rw [hFailed] at hLive
        cases hLive
      · exact hEffect.outcome hMapped hOutcome
    · obtain ⟨hFile, hQuiet⟩ := hEffect.quiet (hA.others t htw)
      obtain ⟨hpc, hStdin⟩ := hEffect.other (Ne.symm htw)
      exact hA.other hFile hpc hStdin (fun u hu => (hEffect.other hu).1) hQuiet
  | interrupt t => exact ⟨hA.others, hA.waiting, hA.outcome⟩
  | @kill t hLive =>
    by_cases htw : t = w
    · subst htw
      exact hA.own (fun u hu => Function.update_of_ne hu ..) (Or.inl (Function.update_self ..))
    · refine hA.other rfl (Function.update_of_ne (Ne.symm htw) ..) rfl
        (fun u hu => Function.update_of_ne hu ..) ?_
      simp only [State.setPc, Function.update_self]
      rfl

/-- In every run with one writer. -/
theorem alone_reachable (h : (system τ undefined file).ReachableWhere (OnlyWriter w text) s) :
    Alone undefined w file (interpret undefined none (inputs text) file.filled.initialized) s := by
  refine h.invariant (alone_init undefined w file _) ?_
  intro s a s' hs hA hok hst
  exact alone_turn hA ((inv_reachable hs.reachable).mapped w) hok (step_turn hst)

-- ---------------------------------------------------------------------------
-- The way to the exit
-- ---------------------------------------------------------------------------

/-- The steps of the writer up to its next input. -/
def Pc.rank : Pc → Nat
  | .truncate => 13
  | .map => 12
  | .testDefault => 11
  | .init .baud => 10
  | .init .rate => 9
  | .init .log => 8
  | .initSync => 7
  | .close => 6
  | .store _ _ => 7
  | .sync _ _ => 6
  | .showBaud => 5
  | .showRate _ => 4
  | .showLog _ _ => 3
  | .askField | .askValue _ => 2
  | .unmap => 1
  | _ => 0

/-- How far the writer is from its end: what it has yet to read, and its program point. -/
def State.toGo (s : State τ) (w : τ) : Nat :=
  20 * (s.stdin w).length + (s.pc w).rank

/-- Every step of the writer makes it less. -/
theorem Effect.toGo_lt (h : Effect undefined s w ok s') (hWriter : (s.pc w).isReader = false) :
    s'.toGo w < s.toGo w := by
  unfold State.toGo
  cases h
  case fail hFails hpc =>
    rcases hpc with hpc | hpc | hpc | hpc <;> simp_all [State.setPc, Pc.rank, Pc.isReader]
  case endOfInput hpc hInput =>
    rcases hpc with hpc | ⟨f, hpc⟩ <;> simp [hpc, State.setPc, Pc.rank]
  case init f c hpc hFile => cases f <;> simp [hpc, State.setPc, Pc.rank, Pc.afterInit]
  case quit hpc hInput | select hpc hInput _ _ | selectNone hpc hInput _ _ | accept hpc hInput _
    | refuse hpc hInput _ =>
    have hShorter := getUserInput_shorter (by decide) hInput
    simp [hpc, State.setPc, State.input, State.print, Pc.rank]
    omega
  all_goals simp_all [State.setPc, State.print, Pc.rank, Pc.isReader]

/-- No system call fails. -/
theorem Effect.goesOn (h : Effect undefined s t true s') :
    s'.pc t = .exited true ∨ (s'.pc t).isLive = true := by
  cases h
  case fail hFails hpc => cases hFails
  case unmap hpc => exact Or.inl (Function.update_self ..)
  case init f c hpc hFile => cases f <;> simp [State.setPc, Pc.afterInit, Pc.isLive]
  case loop hpc =>
    refine Or.inr ?_
    simp only [State.setPc, Function.update_self]
    split <;> rfl
  all_goals exact Or.inr (by simp [State.setPc, Pc.isLive])

/-- A writer that is running goes on, and comes nearer to its exit. -/
theorem exists_step (h : (system τ undefined file).ReachableWhere (OnlyWriter w text) s)
    (hLive : (s.pc w).isLive = true) : ∃ s', run undefined s w true = some s' ∧
      (s'.pc w = .exited true ∨ (s'.pc w).isLive = true) ∧ s'.toGo w < s.toGo w := by
  have hI := inv_reachable h.reachable
  have hA := alone_reachable h
  have hWriter : (s.pc w).isReader = false := by
    rcases hA.outcome with hIdle | hFailed | hOutcome
    · rw [hIdle]
      rfl
    · rw [hFailed]
      rfl
    · cases hpc : s.pc w <;> simp_all [Pc.outcome, Pc.isReader]
  have hStep : (run undefined s w true).isSome = true := by
    rcases hI.not_stuck true hLive with hRuns | hStuck
    · exact hRuns
    · rw [hWriter] at hStuck
      cases hStuck.1
  obtain ⟨s', hRun⟩ := Option.isSome_iff_exists.mp hStep
  have hEffect := run_effect hRun
  exact ⟨s', hRun, hEffect.goesOn, hEffect.toGo_lt hWriter⟩

/-- When it has exited, the file is what the inputs made of it. -/
theorem exited_contents (h : (system τ undefined file).ReachableWhere (OnlyWriter w text) s)
    (hExit : s.pc w = .exited true) : s.file =
      .cfg (interpret undefined none (inputs text) file.filled.initialized) := by
  rcases (alone_reachable h).outcome with hIdle | hFailed | hOutcome
  · rw [hExit] at hIdle
    cases hIdle
  · rw [hExit] at hFailed
    cases hFailed
  · rw [hExit] at hOutcome
    exact contents_eq_some.mp hOutcome

/-- **A writer does what its input means**, beside any number of readers, whatever the file was
and with failing system calls. What is excluded by `OnlyWriter` is a second writer; of a writer
that fails or is killed only the second part speaks. -/
theorem writer_interprets (undefined : Int → Int) (file : File) (w : τ) (text : List Char)
    {s : State τ} (h : (system τ undefined file).ReachableWhere (OnlyWriter w text) s) :
    -- Once it has exited with success, the file is what the input made of the first contents,
    (s.pc w = .exited true → s.file =
      .cfg (interpret undefined none (inputs text) file.filled.initialized)) ∧
    -- and it exits with success when it goes on and no system call fails.
    ((s.pc w).isLive = true → ∃ as s', (∀ a ∈ as, a = .run w true) ∧
      (system τ undefined file).exec s as = some s' ∧ s'.pc w = .exited true) := by
  constructor
  · exact exited_contents h
  · intro hLive
    refine System.exists_exec_of_descent (m := fun s => s.toGo w)
      (I := fun s => (system τ undefined file).ReachableWhere (OnlyWriter w text) s ∧
        (s.pc w = .exited true ∨ (s.pc w).isLive = true)) ?_ ⟨h, Or.inr hLive⟩
    rintro s ⟨hReach, hOn⟩ hNot
    obtain ⟨s', hRun, hOn', hLess⟩ := exists_step hReach (hOn.resolve_left hNot)
    exact ⟨.run w true, s', rfl, hRun, ⟨hReach.act (.run w true) trivial hRun, hOn'⟩, hLess⟩

/-- A new file, and an input that ends without `quit`. -/
theorem writer_interprets_new_file :
    ∃ s : State Bool, (system Bool id .absent).ReachableWhere
      (OnlyWriter false "log\n3".toList) s ∧ s.pc false = .askValue .log ∧
      ∃ as s', (∀ a ∈ as, a = .run false true) ∧
        (system Bool id .absent).exec s as = some s' ∧ s'.pc false = .exited true := by
  obtain ⟨s, hs, hpc⟩ := System.exists_reachableWhere_of_exec (S := system Bool id .absent)
    (c := fun s a => decide (OnlyWriter false "log\n3".toList s a)) (fun _ _ => of_decide_eq_true)
    (p := fun s => s.pc false = .askValue .log)
    (.start false .writer "log\n3".toList true :: List.replicate 12 (.run false true))
    (by decide +kernel)
  exact ⟨s, hs, hpc, (writer_interprets id .absent false "log\n3".toList hs).2 (by rw [hpc]; rfl)⟩

-- ---------------------------------------------------------------------------
-- Typed updates
-- ---------------------------------------------------------------------------

/-- What a user types to set fields, and to leave the menu. -/
def script : List (Field × Int) → List Char
  | [] => quit ++ ['\n']
  | (f, v) :: updates => f.word ++ '\n' :: (print v ++ '\n' :: script updates)

/-- A line that the writer reads whole. -/
def Plain (line : List Char) : Prop :=
  '\n' ∉ line ∧ nul ∉ line ∧ line.length ≤ 255

instance (line : List Char) : Decidable (Plain line) := inferInstanceAs (Decidable (_ ∧ _ ∧ _))

/-- A plain line is one input. -/
theorem inputs_line {line : List Char} (hPlain : Plain line) (text : List Char) :
    inputs (line ++ '\n' :: text) = line :: inputs text := by
  have hWhole : line.take 255 = line := List.take_of_length_le hPlain.2.2
  unfold inputs
  rw [lines_line _ hPlain.1, kept_line, if_neg fun h : Swallows 256 line => hPlain.2.1 h.2, cut,
    hWhole, cString_of_not_mem hPlain.2.1]

/-- The words of the menu are plain lines, -/
theorem plain_word (f : Field) : Plain f.word := by
  cases f <;> decide

/-- each selects its field, -/
theorem selected_word (f : Field) : selected f.word = some f := by
  cases f <;> rfl

/-- and none is `quit`. -/
theorem word_ne_quit (f : Field) : f.word ≠ quit := by
  cases f <;> decide

/-- A printed `int` is a plain line. -/
theorem plain_print (hInt : IsInt v) : Plain (print v) := by
  have hDigit : ∀ {n : Nat} {c : Char}, c ∈ Nat.toDigits 10 n → c.isDigit = true :=
    fun hc => Nat.isDigit_of_mem_toDigits (by decide) (by decide) hc
  have hNot : ∀ {n : Nat} {c : Char}, c.isDigit = false → c ∉ Nat.toDigits 10 n := by
    intro n c hc hMem
    rw [hDigit hMem] at hc
    cases hc
  have hLength : ∀ {n : Nat}, n < 10 ^ 10 → (Nat.toDigits 10 n).length ≤ 10 :=
    fun hn => (Nat.length_toDigits_le_iff (by decide) (by decide)).mpr hn
  unfold IsInt at hInt
  cases v with
  | ofNat n =>
    have hShort := hLength (n := n) (by simp at hInt; omega)
    exact ⟨hNot (by decide), hNot (by decide), by rw [print]; omega⟩
  | negSucc n =>
    have hShort := hLength (n := n + 1) (by omega)
    rw [print]
    refine ⟨?_, ?_, by rw [List.length_cons]; omega⟩ <;> rw [List.mem_cons, not_or]
    · exact ⟨by decide, hNot (by decide)⟩
    · exact ⟨by decide, hNot (by decide)⟩

/-- A script is interpreted as its updates in their order. -/
theorem interpret_script (undefined : Int → Int) {updates : List (Field × Int)}
    (hInts : ∀ u ∈ updates, IsInt u.2) (cfg : DeviceCfg) :
    interpret undefined none (inputs (script updates)) cfg =
      updates.foldl (fun cfg u => cfg.update u.1 u.2) cfg := by
  induction updates generalizing cfg with
  | nil =>
    have hQuit : inputs (script []) = quit :: inputs [] := inputs_line (by decide : Plain quit) []
    rw [hQuit, interpret, if_pos rfl]
    rfl
  | cons u updates ih =>
    obtain ⟨f, v⟩ := u
    have hInt := hInts (f, v) List.mem_cons_self
    rw [script, inputs_line (plain_word f), inputs_line (plain_print hInt), interpret,
      if_neg (word_ne_quit f), selected_word, interpret, atoi_print undefined hInt,
      ih fun u hu => hInts u (List.mem_cons_of_mem _ hu), List.foldl_cons]

/-- **Typed updates are applied**: whatever fields and values are typed, and whatever the file
was, it ends with those of the values that the menu offers, set in their order. The values are
typed as `%d` prints them, and `atoi` gives each `int` back. What is excluded are other writers,
and by `hExit` a writer that a failing call or a signal ends; readers may come and go. -/
theorem typed_updates_applied (undefined : Int → Int) (file : File) (w : τ)
    {updates : List (Field × Int)} (hInts : ∀ u ∈ updates, IsInt u.2) {s : State τ}
    (h : (system τ undefined file).ReachableWhere (OnlyWriter w (script updates)) s)
    (hExit : s.pc w = .exited true) :
    s.file = .cfg (updates.foldl (fun cfg u => cfg.update u.1 u.2) file.filled.initialized) ∧
      ∀ v, IsInt v → atoi undefined (print v) = v := by
  refine ⟨?_, fun v => atoi_print undefined⟩
  rw [exited_contents h hExit, interpret_script undefined hInts]

/-- A file with a level that has no name, a value that the menu does not offer, and a reader. -/
theorem typed_updates_applied_three :
    ∃ s : State Bool, (system Bool id (.cfg ⟨115200, 5, 7⟩)).ReachableWhere
      (OnlyWriter false (script [(.log, 1), (.rate, -20), (.rate, 500)])) s ∧
      s.pc false = .exited true ∧ s.file = .cfg ⟨115200, 500, 1⟩ ∧
      ∀ v, IsInt v → atoi id (print v) = v := by
  obtain ⟨s, hs, hpc⟩ := System.exists_reachableWhere_of_exec
    (S := system Bool id (.cfg ⟨115200, 5, 7⟩))
    (c := fun s a => decide (OnlyWriter false (script [(.log, 1), (.rate, -20), (.rate, 500)]) s a))
    (fun _ _ => of_decide_eq_true)
    (p := fun s => s.pc false = .exited true)
    (List.flatten [[.start false .writer (script [(.log, 1), (.rate, -20), (.rate, 500)]) true,
      .start true .reader [] true], List.replicate 5 (.run false true),
      List.replicate 8 (.run true true), List.replicate 23 (.run false true)])
    (by decide +kernel)
  exact ⟨s, hs, hpc, typed_updates_applied id (.cfg ⟨115200, 5, 7⟩) false (by decide) hs hpc⟩

end EmbLinux.Session09.DeviceConfig
