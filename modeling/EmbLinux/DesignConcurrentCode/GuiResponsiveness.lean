import EmbLinux.Lib.Measure
import Mathlib.Data.List.Range

/-!
# EmbLinux — `guiResponsiveness.cpp`

The thread of the GUI and the background task, which it starts and cancels. An access of one
of the two atomic flags is a step, and so is a line that is printed; the sleeps are steps in
which nothing happens, so they are left out. `begun` counts the units of work that the task has
begun, after a test of the flag, and `clickedAt` is that count at the moment of the
cancellation; no step reads them.

`gui_contract` — in every interleaving the task begins no unit of work after it is cancelled,
prints its start, each unit and one end, and the application closes after it.

The moments at which the user clicks and closes are those of the script of `main`; the schedule
decides how far the task is then.
-/

namespace EmbLinux.DesignConcurrentCode.GuiResponsiveness

-- ---------------------------------------------------------------------------
-- The two threads
-- ---------------------------------------------------------------------------

/-- The lines that are printed. -/
inductive Line
  | appStarted
  | startClicked
  | started
  | progress (percent : Nat)
  | rendering
  | cancelClicked
  | cancelled
  | completed
  | closing
  deriving DecidableEq

/-- Where the task stands. -/
inductive Task
  | unstarted
  | started
  | testProgress
  | testCancelled
  | work
  | print
  | endTest
  | cancelled
  | completed
  | complete
  | ended
  deriving DecidableEq

/-- Where the thread of the GUI stands. -/
inductive Gui
  | appStarted
  | startClicked
  | resetCancelled
  | resetComplete
  | launch
  | render (i : Nat)
  | cancelClicked
  | cancel
  | join
  | closing
  | returned
  deriving DecidableEq

/-- The two flags, the counter of the task, where the two threads stand, and what was printed;
`begun` and `clickedAt` are history: the units of work begun, and how many there were at the
click. -/
structure State where
  taskCancelled : Bool
  taskComplete : Bool
  progress : Nat
  task : Task
  gui : Gui
  printed : List Line
  begun : Nat
  clickedAt : Option Nat

/-- A step of one of the two threads. -/
inductive Action
  | task
  | gui

/-- A line is printed. -/
def State.print (s : State) (line : Line) : State :=
  { s with printed := s.printed ++ [line] }

/-- `background_task` -/
def runTask (s : State) : Option State :=
  match s.task with
  | .unstarted | .ended => none
  | .started => some { s.print .started with task := .testProgress }
  | .testProgress => some { s with task := if s.progress < 10 then .testCancelled else .endTest }
  | .testCancelled =>
    some (if s.taskCancelled then { s with task := .endTest }
      else { s with task := .work, begun := s.begun + 1 })
  | .work => some { s with progress := s.progress + 1, task := .print }
  | .print => some { s.print (.progress (s.progress * 10)) with task := .testProgress }
  | .endTest => some { s with task := if s.taskCancelled then .cancelled else .completed }
  | .cancelled => some { s.print .cancelled with task := .ended }
  | .completed => some { s.print .completed with task := .complete }
  | .complete => some { s with taskComplete := true, task := .ended }

/-- `gui_thread` -/
def runGui (s : State) : Option State :=
  match s.gui with
  | .appStarted => some { s.print .appStarted with gui := .startClicked }
  | .startClicked => some { s.print .startClicked with gui := .resetCancelled }
  | .resetCancelled => some { s with taskCancelled := false, gui := .resetComplete }
  | .resetComplete => some { s with taskComplete := false, gui := .launch }
  | .launch => some { s with task := .started, gui := .render 0 }
  | .render i =>
    some (if i < 3 then { s.print .rendering with gui := .render (i + 1) }
      else { s with gui := .cancelClicked })
  | .cancelClicked => some { s.print .cancelClicked with gui := .cancel }
  | .cancel => some { s with taskCancelled := true, gui := .join, clickedAt := some s.begun }
  | .join => if s.task = .ended then some { s with gui := .closing } else none
  | .closing => some { s.print .closing with gui := .returned }
  | .returned => none

/-- One access of a flag, one line, or the start or the join of the worker. -/
def step (s : State) : Action → Option State
  | .task => runTask s
  | .gui => runGui s

/-- The GUI before its first line. -/
def system : System State Action where
  init := ⟨false, false, 0, .unstarted, .appStarted, [], 0, none⟩
  step := step

-- ---------------------------------------------------------------------------
-- What holds in every state
-- ---------------------------------------------------------------------------

/-- The thread of the task has not been started yet. -/
def Gui.before : Gui → Bool
  | .appStarted | .startClicked | .resetCancelled | .resetComplete | .launch => true
  | _ => false

/-- The task has been cancelled. -/
def Gui.after : Gui → Bool
  | .join | .closing | .returned => true
  | _ => false

/-- The line is one of the task. -/
def Line.ofTask : Line → Bool
  | .started | .progress _ | .cancelled | .completed => true
  | _ => false

@[simp] theorem ofTask_started : Line.started.ofTask = true := rfl
@[simp] theorem ofTask_progress (percent : Nat) : (Line.progress percent).ofTask = true := rfl
@[simp] theorem ofTask_cancelled : Line.cancelled.ofTask = true := rfl
@[simp] theorem ofTask_completed : Line.completed.ofTask = true := rfl

/-- The reports of the first `n` units of work. -/
def reports (n : Nat) : List Line := (List.range n).map fun i => .progress ((i + 1) * 10)

/-- What the task has printed when it is at its place. -/
def State.taskLines (s : State) : List Line :=
  match s.task with
  | .unstarted | .started => []
  | .print => .started :: reports (s.progress - 1)
  | .complete => .started :: reports s.progress ++ [.completed]
  | .ended =>
    .started :: reports s.progress ++ [if s.taskComplete then .completed else .cancelled]
  | _ => .started :: reports s.progress

/-- What the task knows at its place. -/
def Task.Ok (s : State) : Task → Prop
  | .unstarted | .started => s.progress = 0
  | .testCancelled => s.progress < 10
  | .work => s.progress < 10
  | .print => 0 < s.progress
  | .endTest => s.progress = 10 ∨ s.taskCancelled = true
  | .cancelled => s.taskCancelled = true
  | .completed | .complete => s.progress = 10
  | .testProgress | .ended => True

/-- The flag is set by the click alone, no unit is begun after it, and the lines of the task are
those of its progress. -/
structure Inv (s : State) : Prop where
  /-- The task runs once the GUI has started it. -/
  before : s.gui.before = true ↔ s.task = .unstarted
  /-- The flag is set when the GUI has cancelled the task, -/
  after : s.taskCancelled = s.gui.after
  /-- which is when the count was noted. -/
  clicked : s.clickedAt.isSome = s.taskCancelled
  /-- A unit is begun before it is reported. -/
  units : s.begun = if s.task = .work then s.progress + 1 else s.progress
  /-- Since the cancellation no unit was begun. -/
  response : ∀ k, s.clickedAt = some k → s.begun = k
  /-- The GUI closes when the task has ended. -/
  joined : s.gui = .closing ∨ s.gui = .returned → s.task = .ended
  bound : s.progress ≤ 10
  task : s.task.Ok s
  /-- What the task has printed is what it has reported. -/
  lines : s.printed.filter Line.ofTask = s.taskLines
  /-- It completes after ten units only, -/
  complete : s.taskComplete = true → s.task = .ended ∧ s.progress = 10
  /-- and otherwise ends because it was cancelled. -/
  reset : s.task = .ended → s.taskComplete = false → s.taskCancelled = true

variable {s s' : State}

/-- One more report is one more line. -/
theorem reports_succ (n : Nat) : reports (n + 1) = reports n ++ [.progress ((n + 1) * 10)] := by
  simp [reports, List.range_succ]

/-- Nothing has been printed. -/
theorem inv_init : Inv system.init := by
  refine ⟨?_, rfl, rfl, rfl, nofun, ?_, Nat.zero_le _, rfl, rfl, nofun, nofun⟩ <;>
    simp [system, Gui.before]

/-- A step of the task: it tests the flag before each unit. -/
theorem inv_task (h : Inv s) (hst : runTask s = some s') : Inv s' := by
  obtain ⟨hBefore, hAfter, hClicked, hUnits, hResponse, hJoined, hBound, hTask, hLines, hComplete,
    hReset⟩ := h
  have hRunning : s.task ≠ .ended → s.taskComplete = false := by
    intro hne
    by_contra hSet
    exact hne (hComplete (by simpa using hSet)).1
  unfold runTask at hst
  cases hpc : s.task <;> simp only [hpc, reduceCtorEq, Option.some.injEq] at hst <;> subst hst
  case started =>
    constructor <;> simp_all [State.print, Task.Ok, State.taskLines, reports, List.filter_cons]
  case testProgress =>
    by_cases hLess : s.progress < 10
    · rw [if_pos hLess]
      constructor <;> simp_all [Task.Ok, State.taskLines]
    · rw [if_neg hLess]
      have hTen : s.progress = 10 := by omega
      constructor <;> simp_all [Task.Ok, State.taskLines]
  case testCancelled =>
    -- a task that has been cancelled does not begin another unit
    cases hCancel : s.taskCancelled <;> constructor <;> simp_all [Task.Ok, State.taskLines]
  case work =>
    have hLess : s.progress + 1 ≤ 10 := by
      rw [hpc] at hTask
      exact hTask
    constructor <;> simp_all [Task.Ok, State.taskLines]
  case print =>
    rw [hpc] at hTask
    obtain ⟨n, hn⟩ : ∃ n, s.progress = n + 1 := Nat.exists_eq_add_one.mpr hTask
    constructor <;> simp_all [State.print, Task.Ok, State.taskLines, List.filter_cons, reports_succ]
  case endTest =>
    cases hCancel : s.taskCancelled <;> constructor <;> simp_all [Task.Ok, State.taskLines]
  case cancelled =>
    constructor <;> simp_all [State.print, Task.Ok, State.taskLines, List.filter_cons]
  case completed =>
    constructor <;> simp_all [State.print, Task.Ok, State.taskLines, List.filter_cons]
  case complete =>
    constructor <;> simp_all [Task.Ok, State.taskLines]

/-- A step of the GUI leaves the task where it is, and can only set the flag. -/
theorem Task.Ok.congr {task : Task} (h : task.Ok s) (hProgress : s'.progress = s.progress)
    (hCancelled : s.taskCancelled = true → s'.taskCancelled = true) : task.Ok s' := by
  cases task <;> simp_all [Task.Ok]
  exact h.imp_right hCancelled

/-- A step of the GUI that changes neither a flag nor the task. -/
theorem Inv.quiet (h : Inv s) {g : Gui} {printed : List Line}
    (hPrinted : printed = s.printed ∨ ∃ line : Line, line.ofTask = false ∧
      printed = s.printed ++ [line])
    (hBefore : g.before = s.gui.before) (hAfter : g.after = s.gui.after)
    (hJoined : g = .closing ∨ g = .returned → s.task = .ended) :
    Inv { s with gui := g, printed := printed } := by
  have hLines : printed.filter Line.ofTask = s.printed.filter Line.ofTask := by
    rcases hPrinted with rfl | ⟨line, hQuiet, rfl⟩
    · rfl
    · simp [hQuiet]
  exact ⟨hBefore ▸ h.before, h.after.trans hAfter.symm, h.clicked, h.units, h.response, hJoined,
    h.bound, h.task.congr rfl id, hLines.trans h.lines, h.complete, h.reset⟩

/-- A step of the GUI. -/
theorem inv_gui (h : Inv s) (hst : runGui s = some s') : Inv s' := by
  unfold runGui at hst
  cases hGui : s.gui <;> simp only [hGui, reduceCtorEq, Option.some.injEq] at hst
  case appStarted =>
    exact hst ▸ h.quiet (Or.inr ⟨_, rfl, rfl⟩) (by rw [hGui]; rfl) (by rw [hGui]; rfl) (by simp)
  case startClicked =>
    exact hst ▸ h.quiet (Or.inr ⟨_, rfl, rfl⟩) (by rw [hGui]; rfl) (by rw [hGui]; rfl) (by simp)
  case resetCancelled =>
    have hFlag : s.taskCancelled = false := by rw [h.after, hGui]; rfl
    have hQuiet := h.quiet (g := .resetComplete) (Or.inl rfl) (by rw [hGui]; rfl)
      (by rw [hGui]; rfl) (by simp)
    rw [hFlag] at hQuiet
    exact hst ▸ hQuiet
  case resetComplete =>
    have hFlag : s.taskComplete = false := by
      have hFirst : s.task = .unstarted := h.before.mp (by rw [hGui]; rfl)
      by_contra hComplete
      have hEnded := (h.complete (by simpa using hComplete)).1
      simp [hFirst] at hEnded
    have hQuiet := h.quiet (g := .launch) (Or.inl rfl) (by rw [hGui]; rfl) (by rw [hGui]; rfl)
      (by simp)
    rw [hFlag] at hQuiet
    exact hst ▸ hQuiet
  case launch =>
    have hFirst : s.task = .unstarted := h.before.mp (by rw [hGui]; rfl)
    obtain ⟨hBefore, hAfter, hClicked, hUnits, hResponse, hJoined, hBound, hTask, hLines,
      hComplete, hReset⟩ := h
    subst hst
    constructor <;> simp_all [Task.Ok, State.taskLines, Gui.before, Gui.after]
  case render i =>
    subst hst
    split
    · exact h.quiet (Or.inr ⟨_, rfl, rfl⟩) (by rw [hGui]; rfl) (by rw [hGui]; rfl) (by simp)
    · exact h.quiet (Or.inl rfl) (by rw [hGui]; rfl) (by rw [hGui]; rfl) (by simp)
  case cancelClicked =>
    exact hst ▸ h.quiet (Or.inr ⟨_, rfl, rfl⟩) (by rw [hGui]; rfl) (by rw [hGui]; rfl) (by simp)
  case cancel =>
    subst hst
    have hStarted : s.gui.before = false := by rw [hGui]; rfl
    refine ⟨?_, rfl, rfl, h.units, ?_, by simp, h.bound, h.task.congr rfl fun _ => rfl, h.lines,
      h.complete, fun _ _ => rfl⟩
    · rw [← h.before, hStarted]
      rfl
    · intro k hk
      exact Option.some.inj hk
  case join =>
    split at hst <;> cases hst
    next hEnded =>
    exact h.quiet (Or.inl rfl) (by rw [hGui]; rfl) (by rw [hGui]; rfl) fun _ => hEnded
  case closing =>
    exact hst ▸ h.quiet (Or.inr ⟨_, rfl, rfl⟩) (by rw [hGui]; rfl) (by rw [hGui]; rfl)
      fun _ => h.joined (Or.inl hGui)

/-- In every state. -/
theorem inv_reachable (h : system.Reachable s) : Inv s := by
  refine h.invariant (I := Inv) inv_init ?_
  intro s a s' _ hI _ hst
  cases a with
  | task => exact inv_task hI hst
  | gui => exact inv_gui hI hst

-- ---------------------------------------------------------------------------
-- The end of the application
-- ---------------------------------------------------------------------------

/-- The steps that the task has left, at most; `n` is the progress. -/
def Task.left (n : Nat) : Task → Nat
  | .unstarted => 4 * (10 - n) + 6
  | .started => 4 * (10 - n) + 5
  | .testProgress => 4 * (10 - n) + 4
  | .testCancelled => 4 * (10 - n) + 3
  | .work => 4 * (10 - n) + 2
  | .print => 4 * (10 - n) + 5
  | .endTest => 3
  | .cancelled => 1
  | .completed => 2
  | .complete => 1
  | .ended => 0

/-- The steps that the GUI still makes, -/
def Gui.left : Gui → Nat
  | .appStarted => 13
  | .startClicked => 12
  | .resetCancelled => 11
  | .resetComplete => 10
  | .launch => 9
  | .render i => (3 - i) + 5
  | .cancelClicked => 4
  | .cancel => 3
  | .join => 2
  | .closing => 1
  | .returned => 0

/-- and those of both threads. -/
def State.left (s : State) : Nat := s.task.left s.progress + s.gui.left

/-- A step of the task is one less, -/
theorem left_task (h : Inv s) (hst : runTask s = some s') : s'.left < s.left := by
  have hOk := h.task
  unfold runTask at hst
  cases hpc : s.task <;> rw [hpc] at hOk <;>
    simp only [hpc, reduceCtorEq, Option.some.injEq] at hst <;> subst hst
  case work =>
    have hLess : s.progress < 10 := hOk
    simp only [State.left, hpc, Task.left]
    omega
  case testCancelled =>
    have hLess : s.progress < 10 := hOk
    simp only [State.left, hpc]
    split <;> simp only [Task.left] <;> omega
  case testProgress | endTest =>
    simp only [State.left, hpc]
    split <;> simp only [Task.left] <;> omega
  all_goals
    simp only [State.left, State.print, hpc, Task.left]
    omega

/-- and so is one of the GUI, -/
theorem left_gui (h : Inv s) (hst : runGui s = some s') : s'.left < s.left := by
  unfold runGui at hst
  cases hGui : s.gui <;> simp only [hGui, reduceCtorEq, Option.some.injEq] at hst
  case launch =>
    have hFirst : s.task = .unstarted := h.before.mp (by rw [hGui]; rfl)
    subst hst
    simp only [State.left, hGui, hFirst, Task.left, Gui.left]
    omega
  case render i =>
    subst hst
    split <;> simp only [State.left, State.print, hGui, Gui.left] <;> omega
  case join =>
    split at hst <;> cases hst
    simp only [State.left, hGui, Gui.left]
    omega
  all_goals
    subst hst
    simp only [State.left, State.print, hGui, Gui.left]
    omega

/-- hence every step. -/
theorem left_step {a : Action} (h : Inv s) (hst : step s a = some s') : s'.left < s.left := by
  cases a with
  | task => exact left_task h hst
  | gui => exact left_gui h hst

/-- No run is longer than 59 steps. -/
theorem left_le (h : system.Reachable s) : s.left ≤ 59 := by
  refine h.invariant (I := fun s => s.left ≤ 59) (by decide) ?_
  intro s a s' hs hI _ hst
  have hLess := left_step (inv_reachable hs) hst
  omega

/-- Until the application has closed, one of the two threads can go on. -/
theorem exists_step (h : Inv s) (hOpen : s.gui ≠ .returned) : ∃ a s', step s a = some s' := by
  cases hGui : s.gui with
  | returned => exact absurd hGui hOpen
  | join =>
    by_cases hEnded : s.task = .ended
    · exact ⟨.gui, { s with gui := .closing }, by simp [step, runGui, hGui, hEnded]⟩
    · have hStarted : s.task ≠ .unstarted := by
        rw [ne_eq, ← h.before, hGui]
        simp [Gui.before]
      refine ⟨.task, ?_⟩
      simp only [step, runTask]
      cases hpc : s.task <;> simp_all
  | _ => exact ⟨.gui, _, by simp only [step, runGui, hGui]; rfl⟩

-- ---------------------------------------------------------------------------
-- The contract
-- ---------------------------------------------------------------------------

/-- What the two threads promise in every state. -/
structure Contract (s : State) : Prop where
  /-- What the task has printed: its start, each unit of work once and in order as soon as it is
  done, and its end. -/
  lines : s.printed.filter Line.ofTask = s.taskLines
  /-- A unit that has begun is the next one, and there are ten. -/
  units : s.progress ≤ 10 ∧ s.begun = if s.task = .work then s.progress + 1 else s.progress
  /-- No unit begins after the cancellation. -/
  response : ∀ k, s.clickedAt = some k → s.begun = k
  completed : .completed ∈ s.printed → s.progress = 10
  cancelled : .cancelled ∈ s.printed → s.clickedAt.isSome = true
  /-- When the application has closed, the task has printed everything, and one end, which
  `task_complete` tells. -/
  closed : s.gui = .returned → s.printed.filter Line.ofTask =
    .started :: reports s.progress ++ [if s.taskComplete then .completed else .cancelled]
  ends : (∃ schedule s', system.exec s schedule = some s' ∧ s'.gui = .returned) ∧
    ∀ schedule s', system.exec s schedule = some s' → schedule.length ≤ 59

/-- A line of the task was printed by the task. -/
theorem mem_lines (h : Inv s) {line : Line} (hTask : line.ofTask = true) :
    line ∈ s.printed ↔ line ∈ s.taskLines := by
  rw [← h.lines, List.mem_filter]
  simp [hTask]

/-- It completes after ten units only, -/
theorem completed_progress (h : Inv s) (hMem : .completed ∈ s.printed) : s.progress = 10 := by
  have hTask := h.task
  rw [mem_lines h rfl] at hMem
  unfold State.taskLines at hMem
  cases hpc : s.task <;> rw [hpc] at hMem hTask <;> simp [reports] at hMem
  case complete => exact hTask
  case ended =>
    cases hSet : s.taskComplete
    · simp [hSet] at hMem
    · exact (h.complete hSet).2

/-- and is cancelled after the click only. -/
theorem cancelled_clicked (h : Inv s) (hMem : .cancelled ∈ s.printed) :
    s.clickedAt.isSome = true := by
  rw [mem_lines h rfl] at hMem
  unfold State.taskLines at hMem
  cases hpc : s.task <;> rw [hpc] at hMem <;> simp [reports] at hMem
  rw [h.clicked]
  cases hSet : s.taskComplete
  · exact h.reset hpc hSet
  · simp [hSet] at hMem

/-- **The task is cancelled gracefully**, in every interleaving of the two threads: however far
the task is when the user clicks, and also when it is done by then. The accesses of the two
flags are sequentially consistent, as those of `std::atomic` are by default; a thread that
cannot be started is excluded. -/
theorem gui_contract (h : system.Reachable s) : Contract s := by
  have hI := inv_reachable h
  refine ⟨hI.lines, ⟨hI.bound, hI.units⟩, hI.response, completed_progress hI,
    cancelled_clicked hI, ?_, ?_, ?_⟩
  · intro hGui
    rw [hI.lines, State.taskLines, hI.joined (Or.inr hGui)]
  · refine System.Reachable.exists_of_descent (m := State.left) ?_ h
    intro s hs hOpen
    obtain ⟨a, s', hst⟩ := exists_step (inv_reachable hs) hOpen
    exact ⟨a, s', hst, left_step (inv_reachable hs) hst⟩
  · intro schedule s' hExec
    have hLength := System.Reachable.length_le (m := State.left)
      (fun s a s' hs hst => left_step (inv_reachable hs) hst) h hExec
    have hBound := left_le h
    omega

/-- The task is cancelled in its second unit, which it still finishes and prints. -/
theorem gui_contract_second :
    ∃ s, system.Reachable s ∧ s.gui = .returned ∧ s.clickedAt = some 2 ∧ s.progress = 2 ∧
      Contract s := by
  obtain ⟨s, hs, hGui, hAt, hProgress⟩ := System.exists_reachable_of_exec (S := system)
    (p := fun s => s.gui = .returned ∧ s.clickedAt = some 2 ∧ s.progress = 2)
    (List.flatten [List.replicate 5 .gui, List.replicate 7 .task, List.replicate 6 .gui,
      List.replicate 6 .task, List.replicate 2 .gui]) (by decide +kernel)
  exact ⟨s, hs, hGui, hAt, hProgress, gui_contract hs⟩

end EmbLinux.DesignConcurrentCode.GuiResponsiveness
