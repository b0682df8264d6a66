import EmbLinux.Lib.System
import EmbLinux.Lib.Update
import Mathlib.Data.Fintype.Basic

/-!
# EmbLinux — `daemon.c` and `cli.c`

The model of any number of processes that run `sensor-daemon` or `sensor-cli` on the segments
that the key `0x1234` names one after the other. A step is one system call or one access to
the segment, in a sequentially consistent memory; the three lines of a report are one, and so
are the reads of the two files of `/proc`, whose values are any `V`. A system call may fail,
any process may be killed, the handler of the daemon takes note of an interrupt, and the clock
goes on by itself.

A field is the list of the values that have been stored in it, of which the last one is read
(`none` is the zero of a new segment).

* `sensor_contract` — one daemon at most is at work, and a report never shows values that are
  older than its timestamp.

## Results

* `Is`, `NotOlder` — a value is that of a sample, or of one that is not older.
* `inv_run`, `inv_step` — each access keeps what the segments, the processes and the lines show.
* `Inv.store`, `Inv.remove`, `Inv.create` — the three things that a daemon does to a segment; a
  client does none.
-/

namespace EmbLinux.Session09.SensorMonitor

-- ---------------------------------------------------------------------------
-- The segments
-- ---------------------------------------------------------------------------

/-- `sensor_data_t` -/
structure Segment (V : Type*) where
  timestamp : List Nat
  cpuTemp : List V
  ramUsed : List V

/-- The lines that are printed, with what is printed in them. -/
inductive Line (V : Type*)
  | created
  | written (cpuTemp ramUsed : Option V)
  | cleaningUp
  | notRunning
  | report (timestamp : Option Nat) (cpuTemp ramUsed : Option V)
  | stale
  deriving DecidableEq

/-- `daemon.c` and `cli.c`. -/
inductive Program
  | daemon
  | cli
  deriving DecidableEq

/-- Where a process stands; `o` is the segment that `shmget` has returned. -/
inductive Pc (V : Type*)
  | idle
  | exited (success : Bool)
  -- the daemon
  | attach (o : Nat)
  | discard (o : Nat)
  | loop (o : Nat)
  | storeTemp (o : Nat) (cpuTemp ramUsed : V)
  | storeRam (o : Nat) (ramUsed : V)
  | storeTime (o : Nat)
  | showTemp (o : Nat)
  | showRam (o : Nat) (cpuTemp : Option V)
  | detach (o : Nat)
  | remove (o : Nat)
  -- the command line interface
  | attachCli (o : Nat)
  | readTime (o : Nat)
  | readTemp (o : Nat) (timestamp : Option Nat)
  | readRam (o : Nat) (timestamp : Option Nat) (cpuTemp : Option V)
  | clock (o : Nat)
  | compare (o : Nat) (now : Nat)
  | detachCli (o : Nat)
  deriving DecidableEq

/-- The segments, the one that the key names, the clock, and where each process stands. -/
structure State (τ V : Type*) where
  segment : Nat → Segment V
  key : Option Nat
  segments : Nat
  now : Nat
  pc : τ → Pc V
  keepRunning : τ → Bool
  printed : List (τ × Line V)

/-- `ok` is whether the system call of the step succeeds; `sample` is what is read of `/proc`. -/
inductive Action (τ V : Type*)
  | start (t : τ) (program : Program) (ok : Bool)
  | measure (t : τ) (sample : Option (V × V))
  | run (t : τ) (ok : Bool)
  | interrupt (t : τ)
  | kill (t : τ)
  | tick

variable {τ V : Type*} [DecidableEq τ]

def State.setPc (s : State τ V) (t : τ) (pc : Pc V) : State τ V :=
  { s with pc := Function.update s.pc t pc }

/-- A process prints a line. -/
def State.print (s : State τ V) (t : τ) (line : Line V) : State τ V :=
  { s with printed := s.printed ++ [(t, line)] }

def State.setSegment (s : State τ V) (o : Nat) (segment : Segment V) : State τ V :=
  { s with segment := Function.update s.segment o segment }

/-- `shmget`, by the daemon with `IPC_CREAT | IPC_EXCL`. -/
def start (s : State τ V) (t : τ) (program : Program) (ok : Bool) : State τ V :=
  match program, s.key, ok with
  | .daemon, none, true =>
    { (s.setSegment s.segments ⟨[], [], []⟩).setPc t (.attach s.segments) with
      key := some s.segments, segments := s.segments + 1 }
  | .daemon, _, _ => s.setPc t (.exited false)
  | .cli, some o, true => s.setPc t (.attachCli o)
  | .cli, _, _ => (s.print t .notRunning).setPc t (.exited false)

/-- The interface warns if the data are old. -/
def compare (s : State τ V) (t : τ) (o now : Nat) : State τ V :=
  if ((s.segment o).timestamp.getLast?.getD 0) + 5 < now then
    (s.print t .stale).setPc t (.detachCli o)
  else s.setPc t (.detachCli o)

/-- The next system call or access of a process. The three fields are stored one after the
other. -/
def run (s : State τ V) (t : τ) (ok : Bool) : Option (State τ V) :=
  match s.pc t with
  | .idle | .exited _ => none
  | .attach o =>
    some (if ok then (s.print t .created).setPc t (.loop o) else s.setPc t (.discard o))
  | .discard _ => some { s.setPc t (.exited false) with key := if ok then none else s.key }
  | .loop o =>
    if s.keepRunning t then none else some ((s.print t .cleaningUp).setPc t (.detach o))
  | .storeTemp o cpuTemp ramUsed =>
    some ((s.setSegment o { s.segment o with
      cpuTemp := (s.segment o).cpuTemp ++ [cpuTemp] }).setPc t (.storeRam o ramUsed))
  | .storeRam o ramUsed =>
    some ((s.setSegment o { s.segment o with
      ramUsed := (s.segment o).ramUsed ++ [ramUsed] }).setPc t (.storeTime o))
  | .storeTime o =>
    some ((s.setSegment o { s.segment o with
      timestamp := (s.segment o).timestamp ++ [s.now] }).setPc t (.showTemp o))
  | .showTemp o => some (s.setPc t (.showRam o (s.segment o).cpuTemp.getLast?))
  | .showRam o cpuTemp =>
    some ((s.print t (.written cpuTemp (s.segment o).ramUsed.getLast?)).setPc t (.loop o))
  | .detach o => some (s.setPc t (.remove o))
  | .remove _ => some { s.setPc t (.exited ok) with key := if ok then none else s.key }
  | .attachCli o => some (s.setPc t (if ok then .readTime o else .exited false))
  | .readTime o => some (s.setPc t (.readTemp o (s.segment o).timestamp.getLast?))
  | .readTemp o timestamp =>
    some (s.setPc t (.readRam o timestamp (s.segment o).cpuTemp.getLast?))
  | .readRam o timestamp cpuTemp =>
    some ((s.print t (.report timestamp cpuTemp (s.segment o).ramUsed.getLast?)).setPc t (.clock o))
  | .clock o => some (s.setPc t (.compare o s.now))
  | .compare o now => some (compare s t o now)
  | .detachCli _ => some (s.setPc t (.exited ok))

/-- A process starts, a daemon samples or skips a round, a signal arrives, time passes, or a
process is killed. -/
def step (s : State τ V) : Action τ V → Option (State τ V)
  | .start t program ok =>
    match s.pc t with
    | .idle => some (start s t program ok)
    | _ => none
  | .measure t sample =>
    match s.pc t with
    | .loop o =>
      if s.keepRunning t then
        some (match sample with
          | some (cpuTemp, ramUsed) => s.setPc t (.storeTemp o cpuTemp ramUsed)
          | none => s)
      else none
    | _ => none
  | .run t ok => run s t ok
  | .interrupt t =>
    match s.pc t with
    | .idle | .exited _ => none
    | _ => some { s with keepRunning := Function.update s.keepRunning t false }
  | .kill t =>
    match s.pc t with
    | .idle | .exited _ => none
    | _ => some (s.setPc t (.exited false))
  | .tick => some { s with now := s.now + 1 }

/-- No segment and no process. -/
def system (τ V : Type*) [DecidableEq τ] : System (State τ V) (Action τ V) where
  init := ⟨fun _ => ⟨[], [], []⟩, none, 0, 0, fun _ => .idle, fun _ => true, []⟩
  step := step

-- ---------------------------------------------------------------------------
-- What is stored
-- ---------------------------------------------------------------------------

/-- The value of a field after the first `i` stores. -/
def after {α : Type*} (stored : List α) (i : Nat) : Option α := (stored.take i).getLast?

/-- More has been stored. -/
structure Segment.Grown (g g' : Segment V) : Prop where
  timestamp : g.timestamp <+: g'.timestamp
  cpuTemp : g.cpuTemp <+: g'.cpuTemp
  ramUsed : g.ramUsed <+: g'.ramUsed

/-- A sample is stored from its first value to its timestamp. -/
def Segment.Ordered (g : Segment V) : Prop :=
  g.timestamp.length ≤ g.ramUsed.length ∧ g.ramUsed.length ≤ g.cpuTemp.length

/-- All samples are stored as a whole. -/
def Segment.Whole (g : Segment V) : Prop :=
  g.timestamp.length = g.cpuTemp.length ∧ g.ramUsed.length = g.cpuTemp.length

/-- The value of a field after its first `i` stores has been read. -/
def Is {α : Type*} (stored : List α) (value : Option α) (i : Nat) : Prop :=
  i ≤ stored.length ∧ value = after stored i

/-- The value is not older than sample `i`. -/
def NotOlder (stored : List V) (value : Option V) (i : Nat) : Prop :=
  ∃ j, i ≤ j ∧ Is stored value j

/-- What is printed has been stored: a report shows values that are not older than its
timestamp, and the daemon shows the values of one sample. -/
def Line.Ok (segment : Nat → Segment V) (segments : Nat) : Line V → Prop
  | .report timestamp cpuTemp ramUsed => ∃ o i, o < segments ∧
    Is (segment o).timestamp timestamp i ∧ NotOlder (segment o).cpuTemp cpuTemp i ∧
      NotOlder (segment o).ramUsed ramUsed i
  | .written cpuTemp ramUsed => ∃ o i, o < segments ∧ i ≤ (segment o).timestamp.length ∧
    Is (segment o).cpuTemp cpuTemp i ∧ Is (segment o).ramUsed ramUsed i
  | _ => True

/-- What a command line interface has read. -/
def Pc.Ok (segment : Nat → Segment V) (segments : Nat) : Pc V → Prop
  | .attachCli o | .readTime o => o < segments
  | .readTemp o timestamp => o < segments ∧ ∃ i, Is (segment o).timestamp timestamp i
  | .readRam o timestamp cpuTemp => o < segments ∧ ∃ i, Is (segment o).timestamp timestamp i ∧
    NotOlder (segment o).cpuTemp cpuTemp i
  | _ => True

/-- The daemon has created the segment, and not removed it. -/
def Pc.works : Pc V → Option Nat
  | .attach o | .discard o | .loop o | .storeTemp o _ _ | .storeRam o _ | .storeTime o
  | .showTemp o | .showRam o _ | .detach o | .remove o => some o
  | _ => none

/-- What the daemon has stored of its sample. -/
def Pc.Level (g : Segment V) : Pc V → Prop
  | .storeRam _ _ =>
    g.cpuTemp.length = g.ramUsed.length + 1 ∧ g.ramUsed.length = g.timestamp.length
  | .storeTime _ =>
    g.cpuTemp.length = g.ramUsed.length ∧ g.ramUsed.length = g.timestamp.length + 1
  | .showRam _ cpuTemp => g.Whole ∧ cpuTemp = g.cpuTemp.getLast?
  | _ => g.Whole

/-- One daemon works on the segment of the key; what was stored in a field is in the order of
the samples, and what was read of it is one of these values. -/
structure Inv (s : State τ V) : Prop where
  key : ∀ o, s.key = some o → o < s.segments
  /-- A daemon at work is at the segment that the key names, -/
  works : ∀ d o, (s.pc d).works = some o → s.key = some o
  /-- so there is one at most. -/
  one : ∀ d e o p, (s.pc d).works = some o → (s.pc e).works = some p → d = e
  /-- In a segment a later field of a sample is stored after the earlier ones. -/
  ordered : ∀ o, (s.segment o).Ordered
  /-- How far the daemon is with its sample. -/
  level : ∀ d o, (s.pc d).works = some o → (s.pc d).Level (s.segment o)
  /-- What a process has read belongs together, -/
  pc : ∀ t, (s.pc t).Ok s.segment s.segments
  /-- and so does what was printed. -/
  printed : ∀ t line, (t, line) ∈ s.printed → line.Ok s.segment s.segments

variable {s s' : State τ V} {t u : τ} {a : Action τ V} {l : Pc V} {g g' : Segment V} {o p n m : Nat}
  {segment segment' : Nat → Segment V} {α : Type*} {xs ys : List α} {v : Option α} {i : Nat}

-- ---------------------------------------------------------------------------
-- More is stored
-- ---------------------------------------------------------------------------

/-- A value that was stored remains the value of its sample. -/
theorem Is.grown (h : Is xs v i) (hGrown : xs <+: ys) : Is ys v i := by
  obtain ⟨hi, rfl⟩ := h
  refine ⟨hi.trans hGrown.length_le, ?_⟩
  obtain ⟨zs, rfl⟩ := hGrown
  rw [after, after, List.take_append_of_le_length hi]

/-- What is read now is what was stored last. -/
theorem is_getLast (xs : List α) : Is xs xs.getLast? xs.length :=
  ⟨Nat.le_refl _, by rw [after, List.take_length]⟩

/-- A value does not become older by later ones. -/
theorem NotOlder.grown {xs ys : List V} {v : Option V} (h : NotOlder xs v i) (hGrown : xs <+: ys) :
    NotOlder ys v i := by
  obtain ⟨j, hij, hj⟩ := h
  exact ⟨j, hij, hj.grown hGrown⟩

/-- A segment that nobody writes. -/
theorem Segment.Grown.refl (g : Segment V) : g.Grown g :=
  ⟨List.prefix_refl _, List.prefix_refl _, List.prefix_refl _⟩

/-- A line that was right stays right, -/
theorem Line.Ok.grown {line : Line V} (h : line.Ok segment n)
    (hGrown : ∀ o < n, (segment o).Grown (segment' o)) (hLe : n ≤ m) : line.Ok segment' m := by
  cases line with
  | report timestamp cpuTemp ramUsed =>
    obtain ⟨o, i, ho, hTime, hTemp, hRam⟩ := h
    exact ⟨o, i, ho.trans_le hLe, hTime.grown (hGrown o ho).timestamp,
      hTemp.grown (hGrown o ho).cpuTemp, hRam.grown (hGrown o ho).ramUsed⟩
  | written cpuTemp ramUsed =>
    obtain ⟨o, i, ho, hi, hTemp, hRam⟩ := h
    exact ⟨o, i, ho.trans_le hLe, hi.trans (hGrown o ho).timestamp.length_le,
      hTemp.grown (hGrown o ho).cpuTemp, hRam.grown (hGrown o ho).ramUsed⟩
  | _ => trivial

/-- and so does what a process has read. -/
theorem Pc.Ok.grown (h : l.Ok segment n) (hGrown : ∀ o < n, (segment o).Grown (segment' o))
    (hLe : n ≤ m) : l.Ok segment' m := by
  cases l with
  | attachCli o | readTime o => exact Nat.lt_of_lt_of_le h hLe
  | readTemp o timestamp =>
    obtain ⟨ho, i, hTime⟩ := h
    exact ⟨ho.trans_le hLe, i, hTime.grown (hGrown o ho).timestamp⟩
  | readRam o timestamp cpuTemp =>
    obtain ⟨ho, i, hTime, hTemp⟩ := h
    exact ⟨ho.trans_le hLe, i, hTime.grown (hGrown o ho).timestamp,
      hTemp.grown (hGrown o ho).cpuTemp⟩
  | _ => trivial

-- ---------------------------------------------------------------------------
-- The steps
-- ---------------------------------------------------------------------------

/-- Nothing was stored. -/
theorem inv_init : Inv (system τ V).init := by
  refine ⟨nofun, nofun, nofun, ?_, nofun, fun _ => trivial, nofun⟩
  intro o
  exact ⟨Nat.le_refl _, Nat.le_refl _⟩

/-- A process goes on, and stores something in its segment at most. -/
theorem Inv.move (h : Inv s) {k : List (Line V)} (hPc : s'.pc = Function.update s.pc t l)
    (hPrinted : s'.printed = s.printed ++ k.map (t, ·)) (hKey : s'.key = s.key)
    (hSegments : s'.segments = s.segments)
    (hGrown : ∀ p, (s.segment p).Grown (s'.segment p))
    (hOthers : ∀ p, (s.pc t).works ≠ some p → s'.segment p = s.segment p)
    (hOrdered : ∀ p, (s'.segment p).Ordered)
    (hWorks : ∀ p, l.works = some p → (s.pc t).works = some p ∧ l.Level (s'.segment p))
    (hOk : l.Ok s'.segment s.segments) (hLines : ∀ line ∈ k, line.Ok s'.segment s.segments) :
    Inv s' := by
  have hOld : ∀ d p, (s'.pc d).works = some p → (s.pc d).works = some p := by
    intro d p hd
    rcases update_cases hPc d with ⟨rfl, hAt⟩ | ⟨-, hAt⟩ <;> rw [hAt] at hd
    · exact (hWorks p hd).1
    · exact hd
  refine ⟨?_, ?_, ?_, hOrdered, ?_, ?_, ?_⟩
  · rw [hKey, hSegments]
    exact h.key
  · intro d p hd
    rw [hKey]
    exact h.works d p (hOld d p hd)
  · intro d e p q hd he
    exact h.one d e p q (hOld d p hd) (hOld e q he)
  · intro d p hd
    rcases update_cases hPc d with ⟨rfl, hAt⟩ | ⟨hdt, hAt⟩
    · rw [hAt] at hd ⊢
      exact (hWorks p hd).2
    · rw [hAt] at hd ⊢
      rw [hOthers p fun ht => hdt (h.one d t p p hd ht)]
      exact h.level d p hd
  · intro u
    rw [hSegments]
    rcases update_cases hPc u with ⟨-, hAt⟩ | ⟨-, hAt⟩ <;> rw [hAt]
    · exact hOk
    · exact (h.pc u).grown (fun o _ => hGrown o) (Nat.le_refl _)
  · intro u line hMem
    rw [hPrinted, List.mem_append] at hMem
    rw [hSegments]
    rcases hMem with hOldLine | hNew
    · exact (h.printed u line hOldLine).grown (fun o _ => hGrown o) (Nat.le_refl _)
    · obtain ⟨line', hLine, hEq⟩ := List.mem_map.mp hNew
      cases hEq
      exact hLines line hLine

/-- The segments are as they were. -/
theorem Inv.goTo (h : Inv s) {k : List (Line V)} (hPc : s'.pc = Function.update s.pc t l)
    (hPrinted : s'.printed = s.printed ++ k.map (t, ·)) (hKey : s'.key = s.key)
    (hSegments : s'.segments = s.segments) (hSegment : s'.segment = s.segment)
    (hWorks : ∀ p, l.works = some p → (s.pc t).works = some p ∧ l.Level (s.segment p))
    (hOk : l.Ok s.segment s.segments) (hLines : ∀ line ∈ k, line.Ok s.segment s.segments) :
    Inv s' := by
  refine h.move hPc hPrinted hKey hSegments ?_ ?_ ?_ ?_ ?_ ?_ <;> rw [hSegment]
  · exact fun p => .refl _
  · exact fun _ _ => rfl
  · exact h.ordered
  · exact hWorks
  · exact hOk
  · exact hLines

/-- The daemon stores a value in its segment. -/
theorem Inv.store (h : Inv s) (hHere : (s.pc t).works = some o) (hl : l.works = some o)
    (hGrown : (s.segment o).Grown g) (hOrdered : g.Ordered) (hLevel : l.Level g)
    (hOk : l.Ok (Function.update s.segment o g) s.segments) :
    Inv ((s.setSegment o g).setPc t l) := by
  have hSegment : ((s.setSegment o g).setPc t l).segment = Function.update s.segment o g := rfl
  refine h.move (l := l) (t := t) rfl (List.append_nil _).symm rfl rfl ?_ ?_ ?_ ?_ hOk
    (List.forall_mem_nil _)
  · intro p
    rcases update_cases hSegment p with ⟨rfl, hp⟩ | ⟨-, hp⟩ <;> rw [hp]
    · exact hGrown
    · exact .refl _
  · intro p hp
    rcases update_cases hSegment p with ⟨rfl, -⟩ | ⟨-, hAt⟩
    · exact absurd hHere hp
    · exact hAt
  · intro p
    rcases update_cases hSegment p with ⟨-, hp⟩ | ⟨-, hp⟩ <;> rw [hp]
    · exact hOrdered
    · exact h.ordered p
  · intro p hp
    obtain rfl : o = p := Option.some.inj (hl.symm.trans hp)
    refine ⟨hHere, ?_⟩
    rw [hSegment, Function.update_self]
    exact hLevel

/-- The daemon removes its segment, or fails to. -/
theorem Inv.remove (h : Inv s) (hHere : (s.pc t).works = some o) (ok success : Bool) :
    Inv { s.setPc t (.exited success) with key := if ok then none else s.key } := by
  have hPc : (s.setPc t (.exited success)).pc = Function.update s.pc t (.exited success) := rfl
  have hNobody : ∀ d p, ((s.setPc t (.exited success)).pc d).works ≠ some p := by
    intro d p hd
    rcases update_cases hPc d with ⟨-, hAt⟩ | ⟨hdt, hAt⟩ <;> rw [hAt] at hd
    · cases hd
    · exact hdt (h.one d t p o hd hHere)
  refine ⟨?_, fun d p hd => absurd hd (hNobody d p), fun d _ p _ hd => absurd hd (hNobody d p),
    h.ordered, fun d p hd => absurd hd (hNobody d p), ?_, h.printed⟩
  · intro p hp
    cases ok
    · exact h.key p hp
    · simp at hp
  · intro u
    show ((s.setPc t (.exited success)).pc u).Ok s.segment s.segments
    rcases update_cases hPc u with ⟨-, hAt⟩ | ⟨-, hAt⟩ <;> rw [hAt]
    · trivial
    · exact h.pc u

/-- The daemon creates a segment. -/
theorem Inv.create (h : Inv s) (hKey : s.key = none) :
    Inv { (s.setSegment s.segments ⟨[], [], []⟩).setPc t (.attach s.segments) with
      key := some s.segments, segments := s.segments + 1 } := by
  have hNobody : ∀ d p, (s.pc d).works ≠ some p := by
    intro d p hd
    have hp := h.works d p hd
    rw [hKey] at hp
    cases hp
  have hOnly : ∀ d p, (Function.update s.pc t (.attach s.segments) d).works = some p →
      d = t ∧ p = s.segments := by
    intro d p hd
    rcases update_at s.pc t (.attach s.segments) d with ⟨hdt, hAt⟩ | ⟨-, hAt⟩ <;> rw [hAt] at hd
    · exact ⟨hdt, (Option.some.inj hd).symm⟩
    · exact absurd hd (hNobody d p)
  have hGrown : ∀ o < s.segments, (s.segment o).Grown
      (Function.update s.segment s.segments ⟨[], [], []⟩ o) := by
    intro o ho
    rw [Function.update_of_ne (Nat.ne_of_lt ho)]
    exact .refl _
  refine ⟨?_, ?_, ?_, ?_, ?_, ?_, ?_⟩
  · intro o ho
    obtain rfl := Option.some.inj ho
    exact Nat.lt_succ_self _
  · intro d p hd
    rw [(hOnly d p hd).2]
  · intro d e p q hd he
    rw [(hOnly d p hd).1, (hOnly e q he).1]
  · intro o
    show (Function.update s.segment s.segments ⟨[], [], []⟩ o).Ordered
    rcases update_at s.segment s.segments ⟨[], [], []⟩ o with ⟨-, ho⟩ | ⟨-, ho⟩ <;> rw [ho]
    · exact ⟨Nat.le_refl _, Nat.le_refl _⟩
    · exact h.ordered o
  · intro d p hd
    obtain ⟨rfl, rfl⟩ := hOnly d p hd
    show (Function.update s.pc d (.attach s.segments) d).Level
      (Function.update s.segment s.segments ⟨[], [], []⟩ s.segments)
    rw [Function.update_self, Function.update_self]
    exact ⟨rfl, rfl⟩
  · intro u
    show (Function.update s.pc t (.attach s.segments) u).Ok
      (Function.update s.segment s.segments ⟨[], [], []⟩) (s.segments + 1)
    rcases update_at s.pc t (.attach s.segments) u with ⟨-, hAt⟩ | ⟨-, hAt⟩ <;> rw [hAt]
    · trivial
    · exact (h.pc u).grown hGrown (Nat.le_succ _)
  · intro u line hMem
    exact (h.printed u line hMem).grown hGrown (Nat.le_succ _)

/-- Nothing but the pc of the process changes. -/
theorem Inv.setPc (h : Inv s)
    (hWorks : ∀ p, l.works = some p → (s.pc t).works = some p ∧ l.Level (s.segment p))
    (hOk : l.Ok s.segment s.segments) : Inv (s.setPc t l) :=
  h.goTo (k := []) rfl (List.append_nil _).symm rfl rfl rfl hWorks hOk (List.forall_mem_nil _)

/-- The process prints a line. -/
theorem Inv.print (h : Inv s) {line : Line V}
    (hWorks : ∀ p, l.works = some p → (s.pc t).works = some p ∧ l.Level (s.segment p))
    (hOk : l.Ok s.segment s.segments) (hLine : line.Ok s.segment s.segments) :
    Inv ((s.print t line).setPc t l) :=
  h.goTo (k := [line]) rfl rfl rfl rfl rfl hWorks hOk (by simpa using hLine)

/-- What is read after a timestamp is not older. -/
theorem notOlder_getLast {xs : List V} {stamps : List Nat} {time : Option Nat}
    (hTime : Is stamps time i) (hLe : stamps.length ≤ xs.length) : NotOlder xs xs.getLast? i :=
  ⟨xs.length, hTime.1.trans hLe, is_getLast xs⟩

/-- A case for each program point. -/
theorem inv_run {ok : Bool} (h : Inv s) (hst : run s t ok = some s') : Inv s' := by
  have hOk := h.pc t
  have hLevel := h.level t
  have hWorks := h.works t
  unfold run at hst
  cases hpc : s.pc t <;> simp only [hpc, Option.some.injEq, reduceCtorEq] at hst <;>
    rw [hpc] at hOk hLevel hWorks
  case attach o =>
    subst hst
    cases ok
    · exact h.setPc (by rw [hpc]; exact fun p hp => ⟨hp, hLevel p hp⟩) trivial
    · exact h.print (by rw [hpc]; exact fun p hp => ⟨hp, hLevel p hp⟩) trivial trivial
  case discard o => exact hst ▸ h.remove (o := o) (by rw [hpc]; rfl) ok false
  case loop o =>
    split at hst
    · simp at hst
    · obtain rfl := Option.some.inj hst
      exact h.print (by rw [hpc]; exact fun p hp => ⟨hp, hLevel p hp⟩) trivial trivial
  case storeTemp o cpuTemp ramUsed =>
    obtain ⟨hTime, hRam⟩ := hLevel o rfl
    subst hst
    refine h.store (by rw [hpc]; rfl) rfl ?_ ?_ ?_ trivial
    · exact ⟨List.prefix_refl _, List.prefix_append _ _, List.prefix_refl _⟩
    · simp only [Segment.Ordered, List.length_append, List.length_singleton]
      omega
    · simp only [Pc.Level, List.length_append, List.length_singleton]
      omega
  case storeRam o ramUsed =>
    obtain ⟨hTemp, hRam⟩ := hLevel o rfl
    subst hst
    refine h.store (by rw [hpc]; rfl) rfl ?_ ?_ ?_ trivial
    · exact ⟨List.prefix_refl _, List.prefix_refl _, List.prefix_append _ _⟩
    · simp only [Segment.Ordered, List.length_append, List.length_singleton]
      omega
    · simp only [Pc.Level, List.length_append, List.length_singleton]
      omega
  case storeTime o =>
    obtain ⟨hTemp, hRam⟩ := hLevel o rfl
    subst hst
    refine h.store (by rw [hpc]; rfl) rfl ?_ ?_ ?_ trivial
    · exact ⟨List.prefix_append _ _, List.prefix_refl _, List.prefix_refl _⟩
    · simp only [Segment.Ordered, List.length_append, List.length_singleton]
      omega
    · simp only [Pc.Level, Segment.Whole, List.length_append, List.length_singleton]
      omega
  case showTemp o =>
    subst hst
    refine h.setPc ?_ trivial
    rw [hpc]
    intro p hp
    obtain rfl : o = p := Option.some.inj hp
    exact ⟨rfl, hLevel o rfl, rfl⟩
  case showRam o cpuTemp =>
    obtain ⟨⟨hTime, hRam⟩, rfl⟩ := hLevel o rfl
    subst hst
    refine h.print ?_ trivial ?_
    · rw [hpc]
      intro p hp
      exact ⟨hp, (hLevel p hp).1⟩
    · refine ⟨o, (s.segment o).cpuTemp.length, h.key o (hWorks o rfl), hTime.ge, is_getLast _, ?_⟩
      rw [← hRam]
      exact is_getLast _
  case detach o => exact hst ▸ h.setPc (by rw [hpc]; exact fun p hp => ⟨hp, hLevel p hp⟩) trivial
  case remove o => exact hst ▸ h.remove (o := o) (by rw [hpc]; rfl) ok ok
  case attachCli o =>
    subst hst
    cases ok
    · exact h.setPc nofun trivial
    · exact h.setPc nofun hOk
  case readTime o => exact hst ▸ h.setPc nofun ⟨hOk, _, is_getLast _⟩
  case readTemp o timestamp =>
    obtain ⟨ho, i, hTime⟩ := hOk
    exact hst ▸ h.setPc nofun ⟨ho, i, hTime,
      notOlder_getLast hTime ((h.ordered o).1.trans (h.ordered o).2)⟩
  case readRam o timestamp cpuTemp =>
    obtain ⟨ho, i, hTime, hTemp⟩ := hOk
    exact hst ▸ h.print nofun trivial
      ⟨o, i, ho, hTime, hTemp, notOlder_getLast hTime (h.ordered o).1⟩
  case clock o => exact hst ▸ h.setPc nofun trivial
  case compare o now =>
    subst hst
    unfold SensorMonitor.compare
    split
    · exact h.print nofun trivial trivial
    · exact h.setPc nofun trivial
  case detachCli o => exact hst ▸ h.setPc nofun trivial

omit [DecidableEq τ] in
/-- Nothing that the invariant is about changes. -/
theorem Inv.congr (h : Inv s) (hPc : s'.pc = s.pc) (hSegment : s'.segment = s.segment)
    (hKey : s'.key = s.key) (hSegments : s'.segments = s.segments)
    (hPrinted : s'.printed = s.printed) : Inv s' := by
  constructor
  · rw [hKey, hSegments]
    exact h.key
  · rw [hPc, hKey]
    exact h.works
  · rw [hPc]
    exact h.one
  · rw [hSegment]
    exact h.ordered
  · rw [hPc, hSegment]
    exact h.level
  · rw [hPc, hSegment, hSegments]
    exact h.pc
  · rw [hPrinted, hSegment, hSegments]
    exact h.printed

/-- A case for each action; a kill leaves the segment as it is. -/
theorem inv_step (h : Inv s) (hst : step s a = some s') : Inv s' := by
  cases a with
  | start t program ok =>
    simp only [step] at hst
    split at hst
    · next hIdle =>
      obtain rfl := Option.some.inj hst
      unfold start
      split
      · next hKey => exact h.create hKey
      · exact h.setPc nofun trivial
      · next o hKey => exact h.setPc nofun (h.key o hKey)
      · exact h.print nofun trivial trivial
    · simp at hst
  | measure t sample =>
    simp only [step] at hst
    split at hst
    · next o hpc =>
      split at hst
      · obtain rfl := Option.some.inj hst
        cases sample with
        | none => exact h
        | some values =>
          have hLevel := h.level t
          rw [hpc] at hLevel
          exact h.setPc (by rw [hpc]; exact fun p hp => ⟨hp, hLevel p hp⟩) trivial
      · simp at hst
    · simp at hst
  | run t ok => exact inv_run h hst
  | interrupt t =>
    simp only [step] at hst
    split at hst
    · simp at hst
    · simp at hst
    · obtain rfl := Option.some.inj hst
      exact h.congr rfl rfl rfl rfl rfl
  | kill t =>
    simp only [step] at hst
    split at hst
    · simp at hst
    · simp at hst
    · obtain rfl := Option.some.inj hst
      exact h.setPc nofun trivial
  | tick =>
    obtain rfl := Option.some.inj hst
    exact h.congr rfl rfl rfl rfl rfl

/-- In every state. -/
theorem inv_reachable (h : (system τ V).Reachable s) : Inv s :=
  h.invariant inv_init fun _ _ _ _ hI _ hst => inv_step hI hst

-- ---------------------------------------------------------------------------
-- The contract
-- ---------------------------------------------------------------------------

/-- **The contract of the sensor data**, for any number of daemons and command line interfaces,
whichever of them are killed: -/
theorem sensor_contract (h : (system τ V).Reachable s) :
    -- one daemon at most is at work, on the segment that the key names,
    (∀ d e o p, (s.pc d).works = some o → (s.pc e).works = some p →
      d = e ∧ o = p ∧ s.key = some o) ∧
    -- no report shows a value that is older than its timestamp, and no daemon shows values of
    -- different samples.
    (∀ t line, (t, line) ∈ s.printed → line.Ok s.segment s.segments) := by
  have hI := inv_reachable h
  refine ⟨?_, hI.printed⟩
  intro d e o p hd he
  obtain rfl := hI.one d e o p hd he
  exact ⟨rfl, Option.some.inj (hd.symm.trans he), hI.works d o hd⟩

/-- A report between the stores of a sample. -/
theorem sensor_contract_between :
    ∃ s : State Bool Nat, (system Bool Nat).Reachable s ∧
      s.printed = [(false, .created), (false, .written (some 40) (some 10)),
        (true, .report (some 7) (some 42) (some 10))] ∧
      ∀ t line, (t, line) ∈ s.printed → line.Ok s.segment s.segments := by
  obtain ⟨s, hs, hPrinted⟩ := System.exists_reachable_of_exec (S := system Bool Nat)
    (p := fun s => s.printed = [(false, .created), (false, .written (some 40) (some 10)),
      (true, .report (some 7) (some 42) (some 10))])
    (List.flatten [[.start false .daemon true, .run false true, .measure false (some (40, 10))],
      List.replicate 7 .tick, List.replicate 5 (.run false true),
      [.start true .cli true, .run true true, .measure false (some (42, 12)), .run true true,
        .run false true, .run true true, .run true true, .run false true]])
    (by decide +kernel)
  exact ⟨s, hs, hPrinted, (sensor_contract hs).2⟩

end EmbLinux.Session09.SensorMonitor
