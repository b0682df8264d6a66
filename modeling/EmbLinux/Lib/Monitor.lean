import EmbLinux.Lib.Count
import EmbLinux.Lib.Linearizable
import EmbLinux.Lib.Mutex

/-!
# EmbLinux — monitors

An object behind one mutex, with one condition variable. An operation locks the mutex,
runs its region and unlocks; a region may have to wait, and it may call `notify_one` while
it has the mutex. Which sequential object this is, and which regions wait, is a `Monitor`;
nothing else in this module depends on it.

* `Monitor.system` — any number of threads, with the lists of a condition variable: a
  region that has to wait blocks and releases the mutex in one step, `notify_one` takes any
  one blocked thread, and a blocked thread may wake up spuriously. A thread that was woken
  locks the mutex again and tests again.
* `monitor_linearizable` — every monitor is linearizable, its operations being those of the
  sequential object, and an operation takes effect only where it need not wait.
* `HandsOn` and `no_wake_up_lost` — when `notify_one` in the region is enough.
* `monitor_not_stuck` — nobody waits for the mutex for ever.
-/

namespace EmbLinux

/-- What a region does to the object, what it answers, and whether it notifies. -/
structure Region (ρ σ : Type*) where
  object : σ
  answer : ρ
  notify : Bool

/-- A sequential object whose operations may have to wait (`none`). -/
structure Monitor (ο ρ σ : Type*) where
  init : σ
  region : σ → ο → Option (Region ρ σ)

namespace Monitor

/-- Where a thread stands: before the lock of its operation, with the mutex before the
region, blocked, before the lock after it was woken, with the mutex again, at `notify_one`,
or at the unlock. -/
inductive Pc (ο ρ : Type*)
  | idle
  | lock (op : ο)
  | inside (op : ο)
  | asleep (op : ο)
  | relock (op : ο)
  | recheck (op : ο)
  | notify (answer : ρ)
  | unlock (answer : ρ)
  deriving DecidableEq

/-- The object, its mutex, the threads blocked on the condition variable, and where each thread
stands. -/
structure State (τ ο ρ σ : Type*) where
  object : σ
  mutex : Option τ
  waiting : List τ
  pc : τ → Pc ο ρ

/-- What happens next: a call, a step of a thread, or a spurious wake-up. `pick` is the
place in the list of the thread that `notify_one` wakes. -/
inductive Action (τ ο : Type*)
  | call (t : τ) (op : ο)
  | run (t : τ) (pick : Nat)
  | wakeUp (t : τ)

variable {τ ο ρ σ : Type*} [DecidableEq τ]

def State.setPc (s : State τ ο ρ σ) (t : τ) (pc : Pc ο ρ) : State τ ο ρ σ :=
  { s with pc := Function.update s.pc t pc }

/-- A thread leaves the list of the condition variable. -/
def State.wake (s : State τ ο ρ σ) (t : τ) : State τ ο ρ σ :=
  match s.pc t with
  | .asleep op => { s.setPc t (.relock op) with waiting := s.waiting.erase t }
  | _ => s

/-- The region of thread `t`. -/
def runRegion (M : Monitor ο ρ σ) (s : State τ ο ρ σ) (t : τ) (op : ο) : State τ ο ρ σ :=
  match M.region s.object op with
  | some r =>
    { s.setPc t (if r.notify then .notify r.answer else .unlock r.answer) with object := r.object }
  | none => { s.setPc t (.asleep op) with mutex := none, waiting := s.waiting ++ [t] }

/-- The next step of thread `t`. -/
def run (M : Monitor ο ρ σ) (s : State τ ο ρ σ) (t : τ) (pick : Nat) : Option (State τ ο ρ σ) :=
  match s.pc t with
  | .idle | .asleep _ => none
  | .lock op =>
    match s.mutex with
    | none => some { s.setPc t (.inside op) with mutex := some t }
    | some _ => none
  | .relock op =>
    match s.mutex with
    | none => some { s.setPc t (.recheck op) with mutex := some t }
    | some _ => none
  | .inside op | .recheck op => some (runRegion M s t op)
  | .notify answer =>
    match s.waiting with
    | [] => some (s.setPc t (.unlock answer))
    | _ :: _ => s.waiting[pick]?.map fun u => (s.wake u).setPc t (.unlock answer)
  | .unlock _ => some { s.setPc t .idle with mutex := none }

/-- A call, the next step of a thread, or a spurious wake-up. -/
def step (M : Monitor ο ρ σ) (s : State τ ο ρ σ) : Action τ ο → Option (State τ ο ρ σ)
  | .call t op =>
    match s.pc t with
    | .idle => some (s.setPc t (.lock op))
    | _ => none
  | .run t pick => run M s t pick
  | .wakeUp t => if t ∈ s.waiting then some (s.wake t) else none

/-- The object at its beginning, and no thread inside. -/
def system (τ : Type*) [DecidableEq τ] (M : Monitor ο ρ σ) :
    System (State τ ο ρ σ) (Action τ ο) where
  init := ⟨M.init, none, [], fun _ => .idle⟩
  step := step M

-- ---------------------------------------------------------------------------
-- What a step does
-- ---------------------------------------------------------------------------

/-- The thread has the mutex. -/
def Pc.holds : Pc ο ρ → Bool
  | .inside _ | .recheck _ | .notify _ | .unlock _ => true
  | _ => false

/-- The operation of a thread that is blocked. -/
def Pc.asleep? : Pc ο ρ → Option ο
  | .asleep op => some op
  | _ => none

/-- The operation whose region the thread is about to run. -/
def Pc.ready? : Pc ο ρ → Option ο
  | .inside op | .recheck op => some op
  | _ => none

/-- The steps, with the thread that they are of. -/
inductive Effect (M : Monitor ο ρ σ) (s : State τ ο ρ σ) (t : τ) : State τ ο ρ σ → Prop
  | call {op : ο} (hpc : s.pc t = .idle) : Effect M s t (s.setPc t (.lock op))
  | lock {op : ο} (hpc : s.pc t = .lock op) (hFree : s.mutex = none) :
      Effect M s t { s.setPc t (.inside op) with mutex := some t }
  | relock {op : ο} (hpc : s.pc t = .relock op) (hFree : s.mutex = none) :
      Effect M s t { s.setPc t (.recheck op) with mutex := some t }
  | region {op : ο} {r : Region ρ σ} (hpc : (s.pc t).ready? = some op)
      (hRegion : M.region s.object op = some r) :
      Effect M s t { s.setPc t (if r.notify then .notify r.answer else .unlock r.answer) with
        object := r.object }
  | block {op : ο} (hpc : (s.pc t).ready? = some op) (hRegion : M.region s.object op = none) :
      Effect M s t { s.setPc t (.asleep op) with mutex := none, waiting := s.waiting ++ [t] }
  | notifyNone {answer : ρ} (hpc : s.pc t = .notify answer) (hEmpty : s.waiting = []) :
      Effect M s t (s.setPc t (.unlock answer))
  | notify {answer : ρ} {u : τ} (hpc : s.pc t = .notify answer) (hMem : u ∈ s.waiting) :
      Effect M s t ((s.wake u).setPc t (.unlock answer))
  | unlock {answer : ρ} (hpc : s.pc t = .unlock answer) :
      Effect M s t { s.setPc t .idle with mutex := none }
  | wake (hMem : t ∈ s.waiting) : Effect M s t (s.wake t)

variable {M : Monitor ο ρ σ} {s s' : State τ ο ρ σ} {t u : τ} {op : ο} {pick : Nat}
  {a : Action τ ο}

/-- A region ends with an answer, or blocks its thread, -/
theorem region_effect (hpc : (s.pc t).ready? = some op) : Effect M s t (runRegion M s t op) := by
  unfold runRegion
  split
  · next r hRegion => exact .region hpc hRegion
  · next hRegion => exact .block hpc hRegion

/-- and every other step of a thread locks, unlocks or notifies. -/
theorem run_effect (hst : run M s t pick = some s') : Effect M s t s' := by
  unfold run at hst
  split at hst
  · simp at hst
  · simp at hst
  · next op hpc =>
    split at hst
    · next hFree =>
      obtain rfl := Option.some.inj hst
      exact .lock hpc hFree
    · simp at hst
  · next op hpc =>
    split at hst
    · next hFree =>
      obtain rfl := Option.some.inj hst
      exact .relock hpc hFree
    · simp at hst
  · next op hpc =>
    obtain rfl := Option.some.inj hst
    exact region_effect (by rw [hpc]; rfl)
  · next op hpc =>
    obtain rfl := Option.some.inj hst
    exact region_effect (by rw [hpc]; rfl)
  · next answer hpc =>
    split at hst
    · next hEmpty =>
      obtain rfl := Option.some.inj hst
      exact .notifyNone hpc hEmpty
    · obtain ⟨u, hu, rfl⟩ := Option.map_eq_some_iff.mp hst
      exact .notify hpc (List.mem_of_getElem? hu)
  · next answer hpc =>
    obtain rfl := Option.some.inj hst
    exact .unlock hpc

/-- The thread that an action is of. -/
def Action.thread : Action τ ο → τ
  | .call t _ | .run t _ | .wakeUp t => t

/-- What one step does. -/
theorem step_effect (hst : step M s a = some s') : Effect M s a.thread s' := by
  cases a with
  | call t op =>
    simp only [step] at hst
    split at hst
    · next hpc =>
      obtain rfl := Option.some.inj hst
      exact .call hpc
    · simp at hst
  | run t pick => exact run_effect hst
  | wakeUp t =>
    simp only [step] at hst
    split at hst
    · next hMem =>
      obtain rfl := Option.some.inj hst
      exact .wake hMem
    · simp at hst

-- ---------------------------------------------------------------------------
-- The mutex and the list of the condition variable
-- ---------------------------------------------------------------------------

/-- The mutex is with the thread inside, and the list has the blocked threads, each once. -/
structure Sync (s : State τ ο ρ σ) : Prop where
  guards : Guards s.mutex fun t => (s.pc t).holds
  blocked : ∀ t, t ∈ s.waiting ↔ ((s.pc t).asleep?).isSome = true
  nodup : s.waiting.Nodup

omit [DecidableEq τ] in
/-- Who waits is blocked. -/
theorem Sync.asleep (h : Sync s) (hMem : u ∈ s.waiting) : ∃ op, s.pc u = .asleep op := by
  have hSome := (h.blocked u).mp hMem
  cases hpc : s.pc u with
  | asleep op => exact ⟨op, rfl⟩
  | idle | lock | inside | relock | recheck | notify | unlock =>
    rw [hpc] at hSome
    simp [Pc.asleep?] at hSome

/-- Waking a thread, with the list as it is. -/
theorem Sync.wake_eq (h : Sync s) (hMem : u ∈ s.waiting) : ∃ op, s.pc u = .asleep op ∧
    s.wake u = { s.setPc u (.relock op) with waiting := s.waiting.erase u } := by
  obtain ⟨op, hpc⟩ := h.asleep hMem
  refine ⟨op, hpc, ?_⟩
  unfold State.wake
  rw [hpc]

/-- Waking moves one thread. -/
theorem wake_pc_of_ne {v : τ} (hne : v ≠ u) : (s.wake u).pc v = s.pc v := by
  unfold State.wake
  split
  · exact Function.update_of_ne hne ..
  · rfl

omit [DecidableEq τ] in
/-- Who is not blocked does not wait. -/
theorem Sync.not_mem (h : Sync s) (hpc : (s.pc t).asleep? = none) : t ∉ s.waiting := by
  intro hMem
  have hSome := (h.blocked t).mp hMem
  simp [hpc] at hSome

/-- A step that leaves the list as it is. -/
theorem Sync.move (h : Sync s) {p : Pc ο ρ} (hPc : s'.pc = Function.update s.pc t p)
    (hWaiting : s'.waiting = s.waiting) (hOld : (s.pc t).asleep? = none)
    (hNew : p.asleep? = none) (hMutex : LockMove t s.mutex s'.mutex (s.pc t).holds p.holds) :
    Sync s' := by
  refine ⟨h.guards.move_part hPc hMutex, ?_, hWaiting ▸ h.nodup⟩
  intro v
  rw [hWaiting]
  rcases update_cases hPc v with ⟨rfl, hv⟩ | ⟨-, hv⟩ <;> rw [hv]
  · simpa [hNew] using h.not_mem hOld
  · exact h.blocked v

/-- A blocked thread leaves the list. -/
theorem Sync.wake (h : Sync s) (hMem : u ∈ s.waiting) : Sync (s.wake u) := by
  obtain ⟨op, hpc, hEq⟩ := h.wake_eq hMem
  rw [hEq]
  refine ⟨?_, ?_, h.nodup.erase u⟩
  · refine h.guards.move_part (p := Pc.holds) rfl ?_
    rw [hpc]
    exact .keep
  · intro v
    rw [h.nodup.mem_erase_iff, h.blocked v]
    rcases update_cases (g := (s.setPc u (.relock op)).pc) rfl v with ⟨rfl, hv⟩ | ⟨hne, hv⟩
    · simp [State.setPc, Pc.asleep?]
    · show _ ↔ (((s.setPc u (.relock op)).pc v).asleep?).isSome = true
      rw [hv]
      simp [hne]

/-- A thread before its region holds the mutex. -/
theorem Pc.asleep_of_ready {pc : Pc ο ρ} (h : pc.ready? = some op) :
    pc.asleep? = none ∧ pc.holds = true := by
  cases pc <;> simp_all [Pc.ready?, Pc.asleep?, Pc.holds]

/-- A case for each effect. -/
theorem sync_effect (h : Sync s) (he : Effect M s t s') : Sync s' := by
  cases he with
  | @call op hpc =>
    refine h.move (p := .lock op) rfl rfl (by rw [hpc]; rfl) rfl ?_
    rw [hpc]
    exact .keep
  | @lock op hpc hFree =>
    refine h.move (p := .inside op) rfl rfl (by rw [hpc]; rfl) rfl ?_
    rw [hpc, hFree]
    exact .lock
  | @relock op hpc hFree =>
    refine h.move (p := .recheck op) rfl rfl (by rw [hpc]; rfl) rfl ?_
    rw [hpc, hFree]
    exact .lock
  | @region op r hpc hRegion =>
    obtain ⟨hOld, hHolds⟩ := Pc.asleep_of_ready hpc
    refine h.move rfl rfl hOld (by split <;> rfl) ?_
    rw [hHolds]
    split <;> exact .keep
  | @block op hpc hRegion =>
    obtain ⟨hOld, hHolds⟩ := Pc.asleep_of_ready hpc
    refine ⟨?_, ?_, ?_⟩
    · refine h.guards.move_part (p := Pc.holds) rfl ?_
      rw [hHolds]
      exact .unlock
    · intro v
      rw [List.mem_append, List.mem_singleton, h.blocked v]
      rcases update_cases (g := (s.setPc t (.asleep op)).pc) rfl v with ⟨rfl, hv⟩ | ⟨hne, hv⟩
      · simp [State.setPc, Pc.asleep?]
      · show _ ↔ (((s.setPc t (.asleep op)).pc v).asleep?).isSome = true
        rw [hv]
        simp [hne]
    · exact List.nodup_append'.mpr ⟨h.nodup, List.nodup_singleton t,
        List.disjoint_singleton.mpr (h.not_mem hOld)⟩
  | @notifyNone answer hpc hEmpty =>
    refine h.move (p := .unlock answer) rfl rfl (by rw [hpc]; rfl) rfl ?_
    rw [hpc]
    exact .keep
  | @notify answer u hpc hMem =>
    have hWake := h.wake hMem
    obtain ⟨op, hpcU, hEq⟩ := h.wake_eq hMem
    have hut : t ≠ u := by
      rintro rfl
      simp [hpc] at hpcU
    have hpc' : (s.wake u).pc t = .notify answer := by rw [wake_pc_of_ne hut, hpc]
    refine hWake.move (p := .unlock answer) rfl rfl (by rw [hpc']; rfl) rfl ?_
    rw [hpc']
    exact .keep
  | @unlock answer hpc =>
    refine h.move (p := .idle) rfl rfl (by rw [hpc]; rfl) rfl ?_
    rw [hpc]
    exact .unlock
  | wake hMem => exact h.wake hMem

/-- In every state. -/
theorem sync_reachable (h : (system τ M).Reachable s) : Sync s := by
  refine h.invariant (I := Sync) ⟨?_, ?_, List.nodup_nil⟩ ?_
  · intro t
    simp [system, Pc.holds]
  · intro t
    simp [system, Pc.asleep?]
  · intro s a s' _ hI _ hst
    exact sync_effect hI (step_effect hst)

-- ---------------------------------------------------------------------------
-- Linearizability
-- ---------------------------------------------------------------------------

/-- The sequential object. An operation that would have to wait has no answer. -/
def object (M : Monitor ο ρ σ) : Object ο (Option ρ) σ where
  init := M.init
  apply q op :=
    match M.region q op with
    | some r => (r.object, some r.answer)
    | none => (q, none)

/-- A region that answers is an operation of the object. -/
theorem object_apply {q : σ} {r : Region ρ σ} (h : M.region q op = some r) :
    M.object.apply q op = (r.object, some r.answer) := by
  simp only [object, h]

/-- A monitor implements a sequential object whose operations are its regions. -/
theorem object_eq_of_apply {O : Object ο (Option ρ) σ} (hInit : M.init = O.init)
    (hApply : ∀ q op, M.object.apply q op = O.apply q op) : M.object = O := by
  obtain ⟨init, apply⟩ := O
  obtain rfl : M.init = init := hInit
  obtain rfl : M.object.apply = apply := funext fun q => funext fun op => hApply q op
  rfl

/-- Whether the operation of a thread has taken effect. -/
def Pc.stage : Pc ο ρ → Stage ο (Option ρ)
  | .idle => .idle
  | .lock op | .inside op | .asleep op | .relock op | .recheck op => .pending op
  | .notify answer | .unlock answer => .done (some answer)

/-- The calls that a history notes. -/
def Action.calls : Action τ ο → Option (τ × ο)
  | .call t op => some (t, op)
  | _ => none

/-- An operation is answered when it has unlocked. -/
def rets (s : State τ ο ρ σ) (a : Action τ ο) (_ : State τ ο ρ σ) : Option (τ × Option ρ) :=
  match s.pc a.thread with
  | .unlock answer => some (a.thread, some answer)
  | _ => none

/-- The system with the record of its calls and answers. -/
abbrev recorded (τ : Type*) [DecidableEq τ] (M : Monitor ο ρ σ) :
    System (State τ ο ρ σ × Record τ ο (Option ρ)) (Action τ ο) :=
  (system τ M).recorded Action.calls rets

/-- A step changes the stage of its own thread, -/
theorem stage_update {p : Pc ο ρ} (hPc : s'.pc = Function.update s.pc t p) :
    (fun u => (s'.pc u).stage) = Function.update (fun u => (s.pc u).stage) t p.stage := by
  rw [hPc, part_update Pc.stage]

/-- or of none. -/
theorem stage_same {p : Pc ο ρ} (hPc : s'.pc = Function.update s.pc t p)
    (hSame : p.stage = (s.pc t).stage) :
    (fun u => (s'.pc u).stage) = fun u => (s.pc u).stage := by
  rw [stage_update hPc, hSame, Function.update_eq_self]

/-- Waking changes no stage. -/
theorem wake_stage (h : Sync s) (hMem : u ∈ s.waiting) :
    (fun v => ((s.wake u).pc v).stage) = fun v => (s.pc v).stage := by
  obtain ⟨op, hpc, hEq⟩ := h.wake_eq hMem
  rw [hEq]
  exact stage_same (p := .relock op) rfl (by rw [hpc]; rfl)

/-- Waking leaves the object. -/
theorem wake_object (s : State τ ο ρ σ) (u : τ) : (s.wake u).object = s.object := by
  unfold State.wake
  split <;> rfl

/-- Before its region an operation is pending. -/
theorem Pc.stage_of_ready {pc : Pc ο ρ} (h : pc.ready? = some op) : pc.stage = .pending op := by
  cases pc <;> simp_all [Pc.ready?, Pc.stage]

omit [DecidableEq τ] in
/-- Only the unlocking at the end of a call answers it. -/
theorem rets_of_ne (h : ∀ answer, s.pc a.thread ≠ .unlock answer) : rets s a s' = none := by
  unfold rets
  split
  · next answer hpc => exact absurd hpc (h answer)
  · rfl

/-- A step that has no effect on the object. -/
theorem moves_stay {p : Pc ο ρ} (hPc : s'.pc = Function.update s.pc t p)
    (hSame : p.stage = (s.pc t).stage) (hObject : s'.object = s.object) :
    Moves M.object (fun u => (s.pc u).stage) s.object none none
      (fun u => (s'.pc u).stage) s'.object := by
  rw [stage_same hPc hSame, hObject]
  exact .stay

/-- A region that runs. -/
theorem moves_region {r : Region ρ σ} (hpc : (s.pc t).ready? = some op)
    (hRegion : M.region s.object op = some r)
    (hPc : s'.pc = Function.update s.pc t (if r.notify then .notify r.answer else .unlock r.answer))
    (hObject : s'.object = r.object) :
    Moves M.object (fun u => (s.pc u).stage) s.object none none
      (fun u => (s'.pc u).stage) s'.object := by
  have hStage : (if r.notify then .notify r.answer else .unlock r.answer : Pc ο ρ).stage =
      .done (some r.answer) := by
    split <;> rfl
  have hEffect : Moves M.object (fun u => (s.pc u).stage) s.object none none _ _ :=
    Moves.effect_only (Pc.stage_of_ready hpc)
  rw [object_apply hRegion] at hEffect
  rw [stage_update hPc, hStage, hObject]
  exact hEffect

/-- The end of a call is its answer, -/
theorem moves_ret {answer : ρ} (hpc : s.pc t = .unlock answer)
    (hPc : s'.pc = Function.update s.pc t .idle) (hObject : s'.object = s.object) :
    Moves M.object (fun u => (s.pc u).stage) s.object none (some (t, some answer))
      (fun u => (s'.pc u).stage) s'.object := by
  rw [stage_update hPc, hObject]
  exact .ret (by rw [hpc]; rfl)

/-- and its beginning is the call of an operation. -/
theorem moves_call {r : State τ ο ρ σ} (hpc : s.pc t = .idle)
    (hPc : r.pc = Function.update s.pc t (.lock op))
    (hObject : r.object = s.object) (answer : Option (τ × Option ρ)) :
    Moves M.object (fun u => (s.pc u).stage) s.object (some (t, op)) answer
      (fun u => (r.pc u).stage) r.object := by
  rw [stage_update hPc, hObject]
  exact .call (by rw [hpc]; rfl)

/-- A step of a running operation is an effect, its answer, or neither. -/
theorem run_moves (hSync : Sync s) (hst : run M s t pick = some s') :
    Moves M.object (fun u => (s.pc u).stage) s.object none (rets s (.run t pick) s')
      (fun u => (s'.pc u).stage) s'.object := by
  have hNone : (∀ answer, s.pc t ≠ .unlock answer) → rets s (.run t pick) s' = none :=
    fun h => rets_of_ne (a := .run t pick) h
  cases run_effect hst with
  | call hpc => simp [run, hpc] at hst
  | wake hMem =>
    obtain ⟨op, hpc⟩ := hSync.asleep hMem
    simp [run, hpc] at hst
  | @lock op hpc hFree =>
    rw [hNone (by simp [hpc])]
    exact moves_stay (p := .inside op) rfl (by rw [hpc]; rfl) rfl
  | @relock op hpc hFree =>
    rw [hNone (by simp [hpc])]
    exact moves_stay (p := .recheck op) rfl (by rw [hpc]; rfl) rfl
  | @region op r hpc hRegion =>
    rw [hNone (by intro answer hEq; simp [hEq, Pc.ready?] at hpc)]
    exact moves_region hpc hRegion rfl rfl
  | @block op hpc hRegion =>
    rw [hNone (by intro answer hEq; simp [hEq, Pc.ready?] at hpc)]
    exact moves_stay (p := .asleep op) rfl (Pc.stage_of_ready hpc).symm rfl
  | @notifyNone answer hpc hEmpty =>
    rw [hNone (by simp [hpc])]
    exact moves_stay (p := .unlock answer) rfl (by rw [hpc]; rfl) rfl
  | @notify answer u hpc hMem =>
    have hWake := wake_stage hSync hMem
    have hHere := congrFun hWake t
    rw [hNone (by simp [hpc]), ← hWake, ← wake_object s u]
    exact moves_stay (s := s.wake u) (p := .unlock answer) rfl (by rw [hHere, hpc]; rfl) rfl
  | @unlock answer hpc =>
    have hRet : rets s (.run t pick) { s.setPc t .idle with mutex := none } =
        some (t, some answer) := by
      simp [rets, Action.thread, hpc]
    rw [hRet]
    exact moves_ret hpc rfl rfl

/-- **Every monitor is linearizable**, for any number of threads, whatever the condition
variable does; and the object is what the operations of the sequential order make of it. -/
theorem monitor_linearizable {x : State τ ο ρ σ × Record τ ο (Option ρ)}
    (h : (recorded τ M).Reachable x) :
    ∃ log, M.object.Explains log x.2.history ∧ x.1.object = M.object.after log := by
  refine recorded_explained (O := M.object) (S := system τ M) (fun _ _ => True)
    (fun s u => (s.pc u).stage) (fun s q => s.object = q) rfl (fun _ => rfl) ?_ h
  rintro s a s' q hs rfl - hst
  refine ⟨s'.object, rfl, ?_⟩
  have hSync := sync_reachable (hs.mono fun _ _ _ => trivial)
  cases a with
  | call t op =>
    simp only [system, step] at hst
    split at hst
    · next hpc =>
      obtain rfl := Option.some.inj hst
      exact moves_call (r := s.setPc t (.lock op)) hpc rfl rfl _
    · simp at hst
  | run t pick => exact run_moves hSync hst
  | wakeUp t =>
    simp only [system, step] at hst
    split at hst
    · next hMem =>
      obtain rfl := Option.some.inj hst
      obtain ⟨op, hpc⟩ := hSync.asleep hMem
      rw [rets_of_ne (a := .wakeUp t) (by simp [Action.thread, hpc]), wake_stage hSync hMem,
        wake_object]
      exact .stay
    · simp at hst

/-- What a call returns is an answer of a region. -/
theorem answered_some {x : State τ ο ρ σ × Record τ ο (Option ρ)}
    (h : (recorded τ M).Reachable x) {id : Nat} {r : Option ρ} (hRet : .ret id r ∈ x.2.history) :
    ∃ answer, r = some answer := by
  have hAll : ∀ id r, Event.ret id r ∈ x.2.history → ∃ answer, r = some answer := by
    refine h.invariant
      (I := fun x => ∀ id r, Event.ret id r ∈ x.2.history → ∃ answer, r = some answer)
      (fun id r hMem => absurd hMem List.not_mem_nil) ?_
    rintro ⟨s, record⟩ a x' - hI - hst id r hMem
    simp only [System.recorded, Option.map_eq_some_iff] at hst
    obtain ⟨s', hs', rfl⟩ := hst
    unfold Record.after Record.call Record.ret at hMem
    split at hMem
    · rcases List.mem_append.mp hMem with hMem | hMem
      · exact hI id r hMem
      · simp at hMem
    · next hRets =>
      rcases List.mem_append.mp hMem with hMem | hMem
      · exact hI id r hMem
      · unfold rets at hRets
        split at hRets
        · next answer hpc =>
          refine ⟨answer, ?_⟩
          simp_all
        · simp at hRets
    · exact hI id r hMem
  exact hAll id r hRet

/-- Without the record it is a run of the monitor. -/
theorem recorded_state {x : State τ ο ρ σ × Record τ ο (Option ρ)}
    (h : (recorded τ M).Reachable x) : (system τ M).Reachable x.1 :=
  recorded_reachable h

-- ---------------------------------------------------------------------------
-- Wake-ups
-- ---------------------------------------------------------------------------

/-- `room` is the number of waiting operations that can go on: none while one has to wait,
one more at most after a region, and then the region notifies, and one less after an
operation that may have to wait. -/
structure HandsOn (M : Monitor ο ρ σ) (room : σ → Nat) : Prop where
  waits : ∀ q op, M.region q op = none → room q = 0
  adds : ∀ q op r, M.region q op = some r → room r.object ≤ room q + if r.notify then 1 else 0
  takes : ∀ q op r q₀, M.region q₀ op = none → M.region q op = some r →
    r.notify = false ∧ room r.object < room q

/-- The thread was woken and is on its way to its test. -/
def Pc.isWoken : Pc ο ρ → Bool
  | .relock _ | .recheck _ => true
  | _ => false

/-- The thread is about to notify. -/
def Pc.isNotifying : Pc ο ρ → Bool
  | .notify _ => true
  | _ => false

/-- The threads that were woken and have not tested again yet. -/
noncomputable def State.wokens (s : State τ ο ρ σ) : Nat :=
  count (fun pc : Pc ο ρ => pc.isWoken = true) s.pc

/-- The threads that are about to notify. -/
noncomputable def State.notifies (s : State τ ο ρ σ) : Nat :=
  count (fun pc : Pc ο ρ => pc.isNotifying = true) s.pc

/-- The operation of a thread that waits, or was woken. -/
def Pc.waits? : Pc ο ρ → Option ο
  | .asleep op | .relock op | .recheck op => some op
  | _ => none

/-- While somebody is blocked, the woken threads and the notifications under way are enough
for all that can go on. -/
structure Budget (M : Monitor ο ρ σ) (room : σ → Nat) (s : State τ ο ρ σ) : Prop where
  /-- While somebody waits, there is a woken thread or a notification for each thing that there
  is room for. -/
  covered : s.waiting ≠ [] → room s.object ≤ s.wokens + s.notifies
  /-- Only operations that cannot always go on wait. -/
  waits : ∀ t op, (s.pc t).waits? = some op → ∃ q, M.region q op = none
  wokens : {t | (s.pc t).isWoken = true}.Finite
  notifies : {t | (s.pc t).isNotifying = true}.Finite

/-- What a move of one thread does to the two counts. -/
theorem counts_update (hWokens : {t | (s.pc t).isWoken = true}.Finite)
    (hNotifies : {t | (s.pc t).isNotifying = true}.Finite) {pc : Pc ο ρ}
    (hPc : s'.pc = Function.update s.pc t pc) :
    s'.wokens + (if (s.pc t).isWoken then 1 else 0) = s.wokens + (if pc.isWoken then 1 else 0) ∧
      s'.notifies + (if (s.pc t).isNotifying then 1 else 0) =
        s.notifies + (if pc.isNotifying then 1 else 0) := by
  unfold State.wokens State.notifies
  rw [hPc]
  exact ⟨count_update_add (p := fun pc : Pc ο ρ => pc.isWoken = true) hWokens,
    count_update_add (p := fun pc : Pc ο ρ => pc.isNotifying = true) hNotifies⟩

variable {room : σ → Nat}

/-- A step of one thread, with what it does to the bound: `w` and `n` are the two counts
after it. -/
theorem Budget.move (h : Budget M room s) {p : Pc ο ρ} (hPc : s'.pc = Function.update s.pc t p)
    (hWaits : ∀ op, p.waits? = some op → ∃ q, M.region q op = none)
    (hCovered : s'.waiting ≠ [] → ∀ w n,
      w + (if (s.pc t).isWoken then 1 else 0) = s.wokens + (if p.isWoken then 1 else 0) →
      n + (if (s.pc t).isNotifying then 1 else 0) =
        s.notifies + (if p.isNotifying then 1 else 0) →
      room s'.object ≤ w + n) : Budget M room s' := by
  obtain ⟨hWokens, hNotifies⟩ := counts_update h.wokens h.notifies hPc
  refine ⟨fun hWaiting => hCovered hWaiting _ _ hWokens hNotifies, ?_, ?_, ?_⟩
  · intro u op hu
    rcases update_cases hPc u with ⟨-, hAt⟩ | ⟨-, hAt⟩ <;> rw [hAt] at hu
    · exact hWaits op hu
    · exact h.waits u op hu
  · rw [hPc]
    exact finite_update (p := fun p : Pc ο ρ => p.isWoken = true) h.wokens
  · rw [hPc]
    exact finite_update (p := fun p : Pc ο ρ => p.isNotifying = true) h.notifies

/-- A move that changes neither the object nor the list nor the counts. -/
theorem Budget.stay (h : Budget M room s) {p : Pc ο ρ} (hPc : s'.pc = Function.update s.pc t p)
    (hWaits : ∀ op, p.waits? = some op → (s.pc t).waits? = some op)
    (hObject : s'.object = s.object) (hWaiting : s'.waiting = s.waiting)
    (hWoken : p.isWoken = (s.pc t).isWoken) (hNotifying : p.isNotifying = (s.pc t).isNotifying) :
    Budget M room s' := by
  refine h.move hPc (fun op hop => h.waits t op (hWaits op hop)) ?_
  intro hSome w n hWokens hNotifies
  have hOld := h.covered (hWaiting ▸ hSome)
  rw [hWoken] at hWokens
  rw [hNotifying] at hNotifies
  rw [hObject]
  omega

/-- A thread that wakes up is one more on its way and one less that waits. -/
theorem Budget.wake (h : Budget M room s) (hSync : Sync s) (hMem : u ∈ s.waiting) :
    Budget M room (s.wake u) ∧ (s.wake u).wokens = s.wokens + 1 ∧
      (s.wake u).notifies = s.notifies := by
  obtain ⟨op, hpc, hEq⟩ := hSync.wake_eq hMem
  rw [hEq]
  have hPc : ({ s.setPc u (.relock op) with waiting := s.waiting.erase u } : State τ ο ρ σ).pc =
    Function.update s.pc u (.relock op) := rfl
  have hCounts := counts_update h.wokens h.notifies hPc
  rw [hpc] at hCounts
  refine ⟨h.move hPc ?_ ?_, hCounts⟩
  · intro op' hop
    exact h.waits u op' (by rw [hpc]; exact hop)
  · intro _ w n hWokens hNotifies
    have hOld := h.covered (List.ne_nil_of_mem hMem)
    simp only [hpc, Pc.isWoken, Pc.isNotifying, Bool.false_eq_true, if_false, if_true]
      at hWokens hNotifies
    show room s.object ≤ _
    omega

/-- The region of a thread, the first time or again. -/
theorem Budget.region (hHands : HandsOn M room) (h : Budget M room s) {r : Region ρ σ}
    (hpc : (s.pc t).ready? = some op) (hRegion : M.region s.object op = some r) :
    Budget M room { s.setPc t (if r.notify then .notify r.answer else .unlock r.answer) with
      object := r.object } := by
  refine h.move rfl (by intro op'; split <;> simp [Pc.waits?]) ?_
  intro hWaiting w n hWokens hNotifies
  have hOld := h.covered hWaiting
  have hAdds := hHands.adds s.object op r hRegion
  show room r.object ≤ _
  cases hAt : s.pc t with
  | inside op' =>
    rw [hAt] at hWokens hNotifies
    cases hNotify : r.notify <;> rw [hNotify] at hAdds hWokens hNotifies <;>
      simp only [Pc.isWoken, Pc.isNotifying, Bool.false_eq_true, if_false, if_true]
        at hAdds hWokens hNotifies <;> omega
  | recheck op' =>
    -- the woken thread takes what it was woken for
    obtain rfl : op' = op := by simpa [hAt, Pc.ready?] using hpc
    obtain ⟨q₀, hWaits⟩ := h.waits t op' (by rw [hAt]; rfl)
    obtain ⟨hQuiet, hLess⟩ := hHands.takes s.object op' r q₀ hWaits hRegion
    rw [hAt, hQuiet] at hWokens hNotifies
    simp only [Pc.isWoken, Pc.isNotifying, Bool.false_eq_true, if_false, if_true]
      at hWokens hNotifies
    omega
  | idle | lock | asleep | relock | notify | unlock => simp [hAt, Pc.ready?] at hpc

/-- `notify_one` with somebody in the list. -/
theorem Budget.notify (h : Budget M room s) (hSync : Sync s) {answer : ρ}
    (hpc : s.pc t = .notify answer) (hMem : u ∈ s.waiting) :
    Budget M room ((s.wake u).setPc t (.unlock answer)) := by
  obtain ⟨hWake, hWokens, hNotifies⟩ := h.wake hSync hMem
  have hOld := h.covered (List.ne_nil_of_mem hMem)
  obtain ⟨op, hpcU, hEq⟩ := hSync.wake_eq hMem
  have hut : t ≠ u := by
    rintro rfl
    simp [hpc] at hpcU
  have hpc' : (s.wake u).pc t = .notify answer := by rw [wake_pc_of_ne hut, hpc]
  refine hWake.move (p := .unlock answer) rfl (by simp [Pc.waits?]) ?_
  intro _ w n hWokens' hNotifies'
  simp only [hpc', Pc.isWoken, Pc.isNotifying, Bool.false_eq_true, if_false, if_true]
    at hWokens' hNotifies'
  show room (s.wake u).object ≤ _
  rw [wake_object]
  omega

/-- A case for each effect: a region that makes room for a waiting operation is followed by its
notification. -/
theorem budget_effect (hHands : HandsOn M room) (hSync : Sync s) (h : Budget M room s)
    (he : Effect M s t s') : Budget M room s' := by
  cases he with
  | @call op hpc =>
    exact h.stay (p := .lock op) rfl (by simp [Pc.waits?]) rfl rfl (by rw [hpc]; rfl)
      (by rw [hpc]; rfl)
  | @lock op hpc hFree =>
    exact h.stay (p := .inside op) rfl (by simp [Pc.waits?]) rfl rfl (by rw [hpc]; rfl)
      (by rw [hpc]; rfl)
  | @relock op hpc hFree =>
    exact h.stay (p := .recheck op) rfl (by rw [hpc]; simp [Pc.waits?]) rfl rfl (by rw [hpc]; rfl)
      (by rw [hpc]; rfl)
  | @region op r hpc hRegion => exact h.region hHands hpc hRegion
  | @block op hpc hRegion =>
    refine h.move (p := .asleep op) rfl ?_ ?_
    · intro op' hop
      obtain rfl : op = op' := by simpa [Pc.waits?] using hop
      exact ⟨s.object, hRegion⟩
    · intro _ _ _ _ _
      show room s.object ≤ _
      rw [hHands.waits s.object op hRegion]
      exact Nat.zero_le _
  | @notifyNone answer hpc hEmpty =>
    refine h.move (p := .unlock answer) rfl (by simp [Pc.waits?]) ?_
    intro hWaiting
    exact absurd hEmpty hWaiting
  | @notify answer u hpc hMem => exact h.notify hSync hpc hMem
  | @unlock answer hpc =>
    exact h.stay (p := .idle) rfl (by simp [Pc.waits?]) rfl rfl (by rw [hpc]; rfl)
      (by rw [hpc]; rfl)
  | wake hMem => exact (h.wake hSync hMem).1

/-- In every state of a monitor that hands on. -/
theorem budget_reachable (hHands : HandsOn M room) (h : (system τ M).Reachable s) :
    Budget M room s := by
  refine h.invariant (I := Budget M room) ⟨fun hWaiting => absurd rfl hWaiting, ?_, ?_, ?_⟩ ?_
  · simp [system, Pc.waits?]
  · simp [system, Pc.isWoken]
  · simp [system, Pc.isNotifying]
  · intro s a s' hs hI _ hst
    exact budget_effect hHands (sync_reachable hs) hI (step_effect hst)

/-- **No wake-up is lost**: while a blocked operation could go on, a woken thread has yet to
test again, or a notification is under way. -/
theorem no_wake_up_lost (hHands : HandsOn M room) (h : (system τ M).Reachable s)
    (hWaiting : s.waiting ≠ []) (hRoom : 0 < room s.object) :
    ∃ t, (s.pc t).isWoken = true ∨ (s.pc t).isNotifying = true := by
  have hCovered := (budget_reachable hHands h).covered hWaiting
  have hSome : 0 < s.wokens ∨ 0 < s.notifies := by omega
  rcases hSome with hWokens | hNotifies
  · obtain ⟨t, ht⟩ := exists_of_count_pos hWokens
    exact ⟨t, Or.inl ht⟩
  · obtain ⟨t, ht⟩ := exists_of_count_pos hNotifies
    exact ⟨t, Or.inr ht⟩

-- ---------------------------------------------------------------------------
-- Progress
-- ---------------------------------------------------------------------------

/-- The thread with the mutex can make a step. -/
theorem exists_run_of_holds (hHolds : (s.pc t).holds = true) :
    ∃ pick s', run M s t pick = some s' := by
  unfold run
  cases hpc : s.pc t with
  | inside op | recheck op | unlock answer => exact ⟨0, _, rfl⟩
  | notify answer =>
    cases hWaiting : s.waiting with
    | nil => exact ⟨0, _, rfl⟩
    | cons u rest => exact ⟨0, _, rfl⟩
  | idle | lock | asleep | relock => simp [hpc, Pc.holds] at hHolds

/-- **Nobody waits for the mutex for ever**: when no thread can make a step, each is outside
or blocked. -/
theorem monitor_not_stuck (h : (system τ M).Reachable s)
    (hStuck : ∀ t pick, run M s t pick = none) (t : τ) :
    s.pc t = .idle ∨ ∃ op, s.pc t = .asleep op := by
  have hSync := sync_reachable h
  have hFree : s.mutex = none := by
    cases hMutex : s.mutex with
    | none => rfl
    | some u =>
      obtain ⟨pick, s', hRun⟩ := exists_run_of_holds (M := M) ((hSync.guards u).mp hMutex)
      simp [hStuck u pick] at hRun
  have hRun := hStuck t 0
  unfold run at hRun
  cases hpc : s.pc t with
  | idle => exact Or.inl rfl
  | asleep op => exact Or.inr ⟨op, rfl⟩
  | lock op | relock op => simp [hpc, hFree] at hRun
  | inside op | recheck op | unlock answer => simp [hpc] at hRun
  | notify answer =>
    obtain ⟨pick, s', hSome⟩ := exists_run_of_holds (M := M) (s := s) (t := t) (by rw [hpc]; rfl)
    simp [hStuck t pick] at hSome

/-- A monitor in which no operation has to wait. -/
theorem handsOn_of_total (h : ∀ q op, (M.region q op).isSome = true) :
    HandsOn M fun _ => 0 := by
  have hNot : ∀ q op, M.region q op ≠ none := fun q op hNone => by simpa [hNone] using h q op
  refine ⟨fun q op hNone => absurd hNone (hNot q op), fun _ _ _ _ => Nat.zero_le _, ?_⟩
  intro q op r q₀ hNone
  exact absurd hNone (hNot q₀ op)

/-- In such a monitor every call goes on until it has returned. -/
theorem idle_of_stuck (hTotal : ∀ q op, (M.region q op).isSome = true)
    (h : (system τ M).Reachable s) (hStuck : ∀ t pick, run M s t pick = none) (t : τ) :
    s.pc t = .idle := by
  rcases monitor_not_stuck h hStuck t with hIdle | ⟨op, hpc⟩
  · exact hIdle
  · obtain ⟨q, hq⟩ := (budget_reachable (handsOn_of_total hTotal) h).waits t op (by rw [hpc]; rfl)
    simpa [hq] using hTotal q op

/-- When no thread can make a step, those that are blocked have nothing to go on with. -/
theorem room_of_stuck (hHands : HandsOn M room) (h : (system τ M).Reachable s)
    (hStuck : ∀ t pick, run M s t pick = none) (hWaiting : s.waiting ≠ []) :
    room s.object = 0 := by
  by_contra hRoom
  obtain ⟨t, ht⟩ := no_wake_up_lost hHands h hWaiting (Nat.pos_of_ne_zero hRoom)
  rcases monitor_not_stuck h hStuck t with hpc | ⟨op, hpc⟩ <;>
    simp [hpc, Pc.isWoken, Pc.isNotifying] at ht

end Monitor

end EmbLinux
