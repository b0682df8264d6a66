import EmbLinux.Task.Direct
import EmbLinux.Task.Steps
import Mathlib.Data.List.Perm.Basic

/-!
# EmbLinux — the machine follows the direct calls

`Follows` says what a piece of the machine's run has to do with the evaluation of a
body: from the start of the body in a frame, the machine comes to the point where the
coroutine leaves with the result of the evaluation, its `Task` objects and their
frames gone, and all other frames as they were.

The induction is on the body. Where the body creates a `Task`, the child is a part of
it, so it follows its own evaluation; this is kept with the `Task` until it is awaited.
-/

namespace EmbLinux.Task

variable {V E : Type} {bad_alloc : E} {max_coroutines block_size buffer : Nat}
  {held : List Nat} {pool : CoroutinePool.State} {size : Nat} {root : Body V E}
  {s s' : State V E} {h : Handle} {f g : Frame V E} {a : Nat}

/-- The exception that gets out of a body. -/
def thrown : Except E (Option V) → Option E
  | .error e => some e
  | .ok _ => none

/-- The value that a body leaves in its promise. -/
def returned : Except E (Option V) → Option V
  | .error _ => none
  | .ok value => value

/-- A `Task` that is not awaited yet has a new frame for its body; one that was awaited
has a frame that its awaiting coroutine has gone on from. -/
def Slot (s : State V E) (a : Nat) : Option (Body V E) → Prop
  | some child => s.frames (.block a) = some (.new child)
  | none => ∃ g, s.frames (.block a) = some g ∧ g.locals = [] ∧ g.point = .final ∧
      g.events = life.take 5

/-- The coroutine `h` is active, and `tasks` are its `Task` objects. -/
structure Running (s : State V E) (h : Handle) (f : Frame V E) (tasks : List (Option (Body V E))) :
    Prop where
  frame : s.frames h = some f
  /-- The coroutine runs: it has a frame and no result yet. -/
  active : f.point = .active
  value : f.promise.value = none
  exception : f.promise.exception = none
  length : f.locals.length = tasks.length
  /-- Its `Task` objects are those of the direct evaluation, awaited or not, -/
  slots : ∀ (i : Nat) a t, f.locals[i]? = some a → tasks[i]? = some t → Slot s a t
  nodup : f.locals.Nodup
  /-- and the frame is none of them. -/
  own : ∀ a ∈ f.locals, h ≠ .block a

/-- The coroutine `h`, which ran in frame `f` of state `s`, leaves with a result. -/
structure Left (s s' : State V E) (h : Handle) (f : Frame V E) (result : Except E (Option V)) :
    Prop where
  control : s'.control = .leave h (thrown result)
  frames : s'.frames = Function.update (without s.frames f.locals) h
    (some { f with promise := { f.promise with value := returned result }, locals := [] })
  outstanding : s.pool.outstanding.length = s'.pool.outstanding.length + f.locals.length

/-- From a state where `h` runs `body`, the machine does what the evaluation does. -/
def Follows (bad_alloc : E) (max_coroutines block_size buffer : Nat) (held : List Nat)
    (pool : CoroutinePool.State) (size : Nat) (root : Body V E) (body : Body V E)
    (tasks : List (Option (Body V E))) : Prop :=
  ∀ (s : State V E) (h : Handle) (f : Frame V E), s.control = .run h body →
    Good max_coroutines block_size buffer held s → Running s h f tasks →
    ∃ result s', body.eval bad_alloc (tasks.map (Option.map fun child => child.eval bad_alloc []))
        (s.free max_coroutines) = some (result, s.free max_coroutines + tasks.length) ∧
      (machine bad_alloc pool size root).Passes (Good max_coroutines block_size buffer held) s s' ∧
      Left s s' h f result

/-- A frame that is executed has been created, awaited and started. -/
theorem life_active (hGood : Good max_coroutines block_size buffer held s)
    (hRunning : s.frames h = some f) (hActive : f.point = .active) :
    ∀ a, h = .block a → f.events = life.take 3 := by
  rintro a rfl
  have hOk := hGood.frames a f hRunning
  unfold Frame.Ok at hOk
  rw [hActive] at hOk
  exact hOk

/-- What is written to a frame that goes away is not seen. -/
theorem without_update_of_mem {frames : Handle → Option (Frame V E)} {locals : List Nat}
    (ha : a ∈ locals) (x : Option (Frame V E)) :
    without (Function.update frames (.block a) x) locals = without frames locals := by
  funext k
  by_cases hk : k ∈ locals.map Handle.block
  · simp only [without, if_pos hk]
  · have hne : k ≠ .block a := fun hEq => hk (hEq ▸ List.mem_map_of_mem ha)
    simp only [without, if_neg hk, Function.update_of_ne hne]

/-- Two heaps that differ at one place only are the same after a write to it. -/
theorem update_congr {frames frames' : Handle → Option (Frame V E)} {x : Option (Frame V E)}
    (hOther : ∀ k, k ≠ h → frames k = frames' k) :
    Function.update frames h x = Function.update frames' h x := by
  funext k
  by_cases hk : k = h
  · rw [hk, Function.update_self, Function.update_self]
  · rw [Function.update_of_ne hk, Function.update_of_ne hk, hOther k hk]

/-- A task in a local variable has a frame that is suspended. -/
theorem Slot.idle {t : Option (Body V E)} (hSlot : Slot s a t) :
    ∃ g, s.frames (.block a) = some g ∧ g.Idle := by
  cases t with
  | some child => exact ⟨_, hSlot, rfl, nofun, Or.inr rfl⟩
  | none =>
    obtain ⟨g, hFrame, hLocals, hFinal, hEvents⟩ := hSlot
    refine ⟨g, hFrame, hLocals, ?_, Or.inl ?_⟩
    · rw [hFinal]
      exact nofun
    · rw [hEvents]
      rfl

/-- Writes to other frames leave it there. -/
theorem Slot.congr {t : Option (Body V E)} (hSlot : Slot s a t)
    (hSame : s'.frames (.block a) = s.frames (.block a)) : Slot s' a t := by
  cases t with
  | some child => exact hSame.trans hSlot
  | none =>
    obtain ⟨g, hFrame, hRest⟩ := hSlot
    exact ⟨g, hSame.trans hFrame, hRest⟩

variable {tasks : List (Option (Body V E))}

/-- So have all tasks of the running frame. -/
theorem Running.idle (hRunning : Running s h f tasks) {a : Nat} (ha : a ∈ f.locals) :
    ∃ g, s.frames (.block a) = some g ∧ g.Idle := by
  obtain ⟨i, hi⟩ := List.mem_iff_getElem?.mp ha
  have hIn : i < tasks.length := by
    rw [← hRunning.length]
    exact (List.getElem?_eq_some_iff.mp hi).1
  exact (hRunning.slots i a tasks[i] hi (List.getElem?_eq_getElem hIn)).idle

/-- Leaving a coroutine ends the scope of all its `Task` objects. -/
theorem passes_leave (bad_alloc : E) (pool : CoroutinePool.State) (size : Nat) (root : Body V E)
    (hGood : Good max_coroutines block_size buffer held s)
    (hRunning : Running s h f tasks) (promise : Promise V E) (exception : Option E) :
    ∃ s', (machine bad_alloc pool size root).Passes (Good max_coroutines block_size buffer held)
        { s.setFrame h { f with promise := promise, locals := [] } with
          control := .cleanup (destroyAll f.locals) (.leave h exception) } s' ∧
      s'.control = .leave h exception ∧
      s'.frames = Function.update (without s.frames f.locals) h
        (some { f with promise := promise, locals := [] }) ∧
      s.pool.outstanding.length = s'.pool.outstanding.length + f.locals.length := by
  have hLife := life_active hGood hRunning.frame hRunning.active
  have hFrame : Good max_coroutines block_size buffer held
      (s.setFrame h { f with promise := promise, locals := [] }) := by
    refine hGood.setFrame hRunning.frame fun a ha => ?_
    unfold Frame.Ok
    simp only [hRunning.active]
    exact hLife a ha
  obtain ⟨s', hPasses, hControl, hFrames, hCount⟩ := passes_destroyAll bad_alloc pool
    size root f.locals.reverse (List.nodup_reverse.mpr hRunning.nodup)
    (s := { s.setFrame h { f with promise := promise, locals := [] } with
      control := .cleanup (destroyAll f.locals) (.leave h exception) })
    (by
      intro a ha
      have hMem := List.mem_reverse.mp ha
      obtain ⟨g, hg, hIdle⟩ := hRunning.idle hMem
      exact ⟨g, (Function.update_of_ne (hRunning.own a hMem).symm ..).trans hg, hIdle⟩)
    (hFrame.setControl _) [] (.leave h exception) (by rw [List.append_nil]; rfl)
  have hLast : step bad_alloc s' = some { s' with control := .leave h exception } := by
    rw [step, hControl]
    rfl
  refine ⟨_, hPasses.snoc (a := ()) hLast (hPasses.last.setControl _), rfl, ?_, ?_⟩
  · refine hFrames.trans ?_
    funext k
    by_cases hk : k = h
    · subst hk
      have hNot : k ∉ f.locals.reverse.map Handle.block := by
        intro hMem
        obtain ⟨a, ha, hEq⟩ := List.mem_map.mp hMem
        exact hRunning.own a (List.mem_reverse.mp ha) hEq.symm
      simp only [without, if_neg hNot, Function.update_self]
      exact Function.update_self ..
    · rw [Function.update_of_ne hk]
      simp only [without, List.map_reverse, List.mem_reverse]
      exact if_congr Iff.rfl rfl (Function.update_of_ne hk ..)
  · rw [List.length_reverse] at hCount
    exact hCount

/-- A body that returns does what the direct call does: its locals are destroyed and its value
is in the promise, -/
theorem follows_coReturn (value : Option V) :
    Follows bad_alloc max_coroutines block_size buffer held pool size root (.coReturn value)
      tasks := by
  intro s h f hControl hGood hRunning
  obtain ⟨s', hPasses, hLeave, hFrames, hCount⟩ := passes_leave bad_alloc pool size root
    hGood hRunning (f.promise.returnValue value) none
  have hStep : step bad_alloc s = some
      { s.setFrame h { f with promise := f.promise.returnValue value, locals := [] } with
        control := .cleanup (destroyAll f.locals) (.leave h none) } := by
    simp only [step, hControl, stepBody, hRunning.frame, Option.bind_eq_bind, Option.bind_some]
  refine ⟨.ok value, s', ?_, .step (a := ()) hGood hStep hPasses, hLeave, ?_, hCount⟩
  · rw [Body.eval, List.length_map]
  · rw [hFrames]
    have hPromise : f.promise.returnValue value = { f.promise with value := value } := by
      cases value with
      | some v => rfl
      | none =>
        show f.promise = { f.promise with value := none }
        rw [← hRunning.value]
    rw [hPromise]
    rfl

/-- and so does one that throws. -/
theorem follows_raise (e : E) :
    Follows bad_alloc max_coroutines block_size buffer held pool size root (.raise e) tasks := by
  intro s h f hControl hGood hRunning
  obtain ⟨s', hPasses, hLeave, hFrames, hCount⟩ := passes_leave bad_alloc pool size root
    hGood hRunning f.promise (some e)
  have hStep : step bad_alloc s = some { s.setFrame h { f with locals := [] } with
        control := .cleanup (destroyAll f.locals) (.leave h (some e)) } := by
    simp only [step, hControl, stepBody, hRunning.frame, Option.bind_eq_bind, Option.bind_some]
  refine ⟨.error e, s', ?_, .step (a := ()) hGood hStep hPasses, hLeave, ?_, hCount⟩
  · rw [Body.eval, List.length_map]
  · rw [hFrames]
    have hPromise : f.promise = { f.promise with value := none } := by
      rw [← hRunning.value]
    rw [hPromise]
    rfl

/-- No block is left, and the body goes on with the exception. -/
theorem follows_create_full {frame : Nat} {child : Body V E} {next : Except E Unit → Body V E}
    (hNoOverflow : CoroutinePool.NoOverflow max_coroutines block_size)
    (hNext : Follows bad_alloc max_coroutines block_size buffer held pool size root
      (next (.error bad_alloc)) tasks)
    (hControl : s.control = .run h (.create frame child next))
    (hGood : Good max_coroutines block_size buffer held s) (hRunning : Running s h f tasks)
    (hNone : (s.pool.allocate frame).1 = none) (hFull : s.free max_coroutines = 0) :
    ∃ result s', (Body.create frame child next).eval bad_alloc
        (tasks.map (Option.map fun child => child.eval bad_alloc [])) (s.free max_coroutines) =
          some (result, s.free max_coroutines + tasks.length) ∧
      (machine bad_alloc pool size root).Passes (Good max_coroutines block_size buffer held) s s' ∧
      Left s s' h f result := by
  have hSame := (hGood.pooled.contract hNoOverflow).refused frame hNone
  have hAllocate : s.pool.allocate frame = (none, s.pool) := Prod.ext hNone hSame
  have hStep : step bad_alloc s = some { s with control := .run h (next (.error bad_alloc)) } := by
    simp only [step, hControl, stepBody, hAllocate]
  obtain ⟨result, s', hEval, hPasses, hLeft⟩ := hNext
    { s with control := .run h (next (.error bad_alloc)) } h f rfl (hGood.setControl _)
    ⟨hRunning.frame, hRunning.active, hRunning.value, hRunning.exception, hRunning.length,
      hRunning.slots, hRunning.nodup, hRunning.own⟩
  refine ⟨result, s', ?_, .step (a := ()) hGood hStep hPasses, hLeft.control, hLeft.frames,
    hLeft.outstanding⟩
  rw [Body.eval, if_pos hFull]
  exact hEval

/-- A frame that stays active is at the same point of its life. -/
theorem Good.setActive (hGood : Good max_coroutines block_size buffer held s)
    (hFrame : s.frames h = some f) (hActive : f.point = .active) (hPoint : g.point = .active)
    (hEvents : g.events = f.events) :
    Good max_coroutines block_size buffer held (s.setFrame h g) := by
  refine hGood.setFrame hFrame fun a ha => ?_
  unfold Frame.Ok
  rw [hPoint, hEvents]
  exact life_active hGood hFrame hActive a ha

/-- The step that creates a frame, in a fresh block. -/
theorem step_create (bad_alloc : E) {frame : Nat} {child : Body V E}
    {next : Except E Unit → Body V E}
    (hNoOverflow : CoroutinePool.NoOverflow max_coroutines block_size)
    (hControl : s.control = .run h (.create frame child next))
    (hGood : Good max_coroutines block_size buffer held s) (hFrame : s.frames h = some f)
    (hActive : f.point = .active) {ptr : Nat} (hSome : (s.pool.allocate frame).1 = some ptr) :
    s.frames (.block ptr) = none ∧ ∃ s', step bad_alloc s = some s' ∧
      s'.control = .run h (next (.ok ())) ∧
      s'.frames = Function.update
        (Function.update s.frames h (some { f with locals := f.locals ++ [ptr] })) (.block ptr)
        (some (.new child)) ∧
      s'.pool.outstanding = ptr :: s.pool.outstanding ∧
      Good max_coroutines block_size buffer held s' := by
  obtain ⟨pool', hAllocate⟩ : ∃ pool', s.pool.allocate frame = (some ptr, pool') :=
    ⟨_, Prod.ext hSome rfl⟩
  have hMoved := hGood.setActive (g := { f with locals := f.locals ++ [ptr] }) hFrame hActive
    hActive rfl
  obtain ⟨hNew, hOutstanding, hCreated⟩ := hMoved.create hNoOverflow child hAllocate
  have hFresh : s.frames (.block ptr) = none :=
    hGood.fresh ((hGood.pooled.contract hNoOverflow).fresh frame ptr hSome).1
  refine ⟨hFresh, _, ?_, rfl, rfl, hOutstanding, hCreated.setControl _⟩
  simp only [step, hControl, stepBody, hAllocate, hFrame, Option.bind_eq_bind, Option.bind_some]

/-- A `Task` is created, and the body goes on. -/
theorem follows_create_fresh {frame : Nat} {child : Body V E} {next : Except E Unit → Body V E}
    (hNoOverflow : CoroutinePool.NoOverflow max_coroutines block_size)
    (hNext : Follows bad_alloc max_coroutines block_size buffer held pool size root
      (next (.ok ())) (tasks ++ [some child]))
    (hControl : s.control = .run h (.create frame child next))
    (hGood : Good max_coroutines block_size buffer held s) (hRunning : Running s h f tasks)
    {ptr : Nat} (hSome : (s.pool.allocate frame).1 = some ptr)
    (hFree : s.pool.outstanding.length < max_coroutines) :
    ∃ result s', (Body.create frame child next).eval bad_alloc
        (tasks.map (Option.map fun child => child.eval bad_alloc [])) (s.free max_coroutines) =
          some (result, s.free max_coroutines + tasks.length) ∧
      (machine bad_alloc pool size root).Passes (Good max_coroutines block_size buffer held) s s' ∧
      Left s s' h f result := by
  obtain ⟨hFresh, s₁, hStep, hControl₁, hFrames₁, hOutstanding₁, hGood₁⟩ :=
    step_create bad_alloc hNoOverflow hControl hGood hRunning.frame hRunning.active
      hSome
  have hne : h ≠ .block ptr := by
    rintro rfl
    rw [hRunning.frame] at hFresh
    cases hFresh
  have hLive : ∀ a ∈ f.locals, a ≠ ptr := by
    rintro a ha rfl
    obtain ⟨g, hg, -⟩ := hRunning.idle ha
    rw [hFresh] at hg
    cases hg
  have hSame : ∀ a ∈ f.locals, s₁.frames (.block a) = s.frames (.block a) := by
    intro a ha
    have hOther : Handle.block a ≠ .block ptr := fun hEq => hLive a ha (Handle.block.inj hEq)
    rw [hFrames₁, Function.update_of_ne hOther, Function.update_of_ne (hRunning.own a ha).symm]
  have hRunning₁ : Running s₁ h { f with locals := f.locals ++ [ptr] } (tasks ++ [some child]) := by
    refine ⟨?_, hRunning.active, hRunning.value, hRunning.exception, ?_, ?_, ?_, ?_⟩
    · rw [hFrames₁, Function.update_of_ne hne, Function.update_self]
    · simp [hRunning.length]
    · intro i a t ha ht
      by_cases hi : i < f.locals.length
      · rw [List.getElem?_append_left hi] at ha
        rw [List.getElem?_append_left (hRunning.length ▸ hi)] at ht
        exact (hRunning.slots i a t ha ht).congr (hSame a (List.mem_of_getElem? ha))
      · rw [List.getElem?_append_right (Nat.le_of_not_lt hi)] at ha
        rw [List.getElem?_append_right (hRunning.length ▸ Nat.le_of_not_lt hi),
          ← hRunning.length] at ht
        rw [List.getElem?_singleton] at ha ht
        split at ha
        · next hZero =>
          rw [if_pos hZero] at ht
          cases ha
          cases ht
          show s₁.frames (.block ptr) = some (.new child)
          rw [hFrames₁, Function.update_self]
        · cases ha
    · refine List.nodup_append.mpr ⟨hRunning.nodup, List.nodup_singleton ptr, ?_⟩
      intro a ha b hb
      rw [List.mem_singleton.mp hb]
      exact hLive a ha
    · intro a ha
      rcases List.mem_append.mp ha with ha | ha
      · exact hRunning.own a ha
      · rw [List.mem_singleton.mp ha]
        exact hne
  obtain ⟨result, s', hEval, hPasses, hLeft⟩ := hNext s₁ h _ hControl₁ hGood₁ hRunning₁
  refine ⟨result, s', ?_, .step (a := ()) hGood hStep hPasses, hLeft.control, ?_, ?_⟩
  · have hPos : ¬ s.free max_coroutines = 0 := by
      unfold State.free
      omega
    have hTaken : s₁.free max_coroutines = s.free max_coroutines - 1 := by
      unfold State.free
      rw [hOutstanding₁, List.length_cons]
      omega
    rw [hTaken, List.map_append, List.length_append] at hEval
    rw [Body.eval, if_neg hPos]
    refine hEval.trans ?_
    rw [List.length_singleton]
    congr 2
    omega
  · rw [hLeft.frames]
    refine update_congr fun k hk => ?_
    by_cases hPtr : k = .block ptr
    · simp [without, hPtr, hFresh]
    · simp [without, hFrames₁, hPtr, hk]
  · have hCount := hLeft.outstanding
    rw [hOutstanding₁, List.length_cons, List.length_append, List.length_singleton] at hCount
    omega

/-- A body that creates a child goes on with a block of the pool, or with `bad_alloc`: a case
for each. -/
theorem follows_create {frame : Nat} {child : Body V E} {next : Except E Unit → Body V E}
    (hNoOverflow : CoroutinePool.NoOverflow max_coroutines block_size) (hFits : frame ≤ block_size)
    (hFull : Follows bad_alloc max_coroutines block_size buffer held pool size root
      (next (.error bad_alloc)) tasks)
    (hFresh : Follows bad_alloc max_coroutines block_size buffer held pool size root
      (next (.ok ())) (tasks ++ [some child])) :
    Follows bad_alloc max_coroutines block_size buffer held pool size root
      (.create frame child next) tasks := by
  intro s h f hControl hGood hRunning
  have hContract := hGood.pooled.contract hNoOverflow
  by_cases hFree : s.pool.outstanding.length < max_coroutines
  · obtain ⟨ptr, hSome⟩ := (hContract.succeeds frame).mpr ⟨hFits.trans hContract.roomy, hFree⟩
    exact follows_create_fresh hNoOverflow hFresh hControl hGood hRunning hSome hFree
  · refine follows_create_full hNoOverflow hFull hControl hGood hRunning ?_ ?_
    · cases hAllocate : (s.pool.allocate frame).1 with
      | none => rfl
      | some ptr => exact absurd ((hContract.succeeds frame).mp ⟨ptr, hAllocate⟩).2 hFree
    · unfold State.free
      omega

-- ---------------------------------------------------------------------------
-- The end of a `Task`
-- ---------------------------------------------------------------------------

/-- Erasing an element and mapping commute. -/
theorem map_eraseIdx {α β : Type} (l : List α) (i : Nat) (m : α → β) :
    (l.eraseIdx i).map m = (l.map m).eraseIdx i := by
  induction l generalizing i with
  | nil => rfl
  | cons a rest ih =>
    cases i with
    | zero => rfl
    | succ i => rw [List.eraseIdx_cons_succ, List.map_cons, ih, List.map_cons,
        List.eraseIdx_cons_succ]

/-- There are no more blocks out than the pool has. -/
theorem Good.outstanding_le (hNoOverflow : CoroutinePool.NoOverflow max_coroutines block_size)
    (hGood : Good max_coroutines block_size buffer held s) :
    s.pool.outstanding.length ≤ max_coroutines := by
  have hContract := hGood.pooled.contract hNoOverflow
  obtain ⟨free, -, hPerm⟩ := hContract.conserved
  have hLength := hPerm.length_eq
  rw [List.length_append, hContract.length] at hLength
  omega

/-- The `Task` objects that are left have their frames. -/
theorem Running.erase (hRunning : Running s h f tasks) {i ptr : Nat}
    (hPtr : f.locals[i]? = some ptr)
    (hFrames : s'.frames = without
      (Function.update s.frames h (some { f with locals := f.locals.eraseIdx i })) [ptr]) :
    Running s' h { f with locals := f.locals.eraseIdx i } (tasks.eraseIdx i) := by
  obtain ⟨hIn, rfl⟩ := List.getElem?_eq_some_iff.mp hPtr
  have hPerm := List.getElem_cons_eraseIdx_perm hIn
  obtain ⟨hGone, hNodup⟩ := List.nodup_cons.mp (hPerm.nodup_iff.mpr hRunning.nodup)
  have hMem : ∀ a ∈ f.locals.eraseIdx i, a ∈ f.locals :=
    fun a ha => hPerm.mem_iff.mp (List.mem_cons_of_mem _ ha)
  refine ⟨?_, hRunning.active, hRunning.value, hRunning.exception, ?_, ?_, hNodup,
    fun a ha => hRunning.own a (hMem a ha)⟩
  · have hOwn := hRunning.own _ (List.getElem_mem hIn)
    simp [hFrames, without, hOwn]
  · rw [List.length_eraseIdx_of_lt hIn, List.length_eraseIdx_of_lt (hRunning.length ▸ hIn),
      hRunning.length]
  · intro j a t ha ht
    have hLocal : a ∈ f.locals.eraseIdx i := List.mem_of_getElem? ha
    have hOther : Handle.block a ≠ .block f.locals[i] := by
      intro hEq
      rw [Handle.block.inj hEq] at hLocal
      exact hGone hLocal
    have hSame : s'.frames (.block a) = s.frames (.block a) := by
      have hOwn := (hRunning.own a (hMem a hLocal)).symm
      simp [hFrames, without, hOther, hOwn]
    rw [List.getElem?_eraseIdx] at ha ht
    split at ha
    · next hj =>
      rw [if_pos hj] at ht
      exact (hRunning.slots j a t ha ht).congr hSame
    · next hj =>
      rw [if_neg hj] at ht
      exact (hRunning.slots (j + 1) a t ha ht).congr hSame

/-- A task that is dropped destroys its frame with all tasks in it. -/
theorem follows_drop {i : Nat} {next : Body V E}
    (hNoOverflow : CoroutinePool.NoOverflow max_coroutines block_size) (hi : i < tasks.length)
    (hNext : Follows bad_alloc max_coroutines block_size buffer held pool size root next
      (tasks.eraseIdx i)) :
    Follows bad_alloc max_coroutines block_size buffer held pool size root (.drop i next)
      tasks := by
  intro s h f hControl hGood hRunning
  have hIn : i < f.locals.length := hRunning.length ▸ hi
  have hPtr : f.locals[i]? = some f.locals[i] := List.getElem?_eq_getElem hIn
  have hMem : f.locals[i] ∈ f.locals := List.getElem_mem hIn
  have hStep : step bad_alloc s = some
      { s.setFrame h { f with locals := f.locals.eraseIdx i } with
        control := .cleanup [.destroy f.locals[i]] (.run h next) } := by
    simp only [step, hControl, stepBody, hRunning.frame, hPtr, Option.bind_eq_bind,
      Option.bind_some]
  have hMoved := hGood.setActive (g := { f with locals := f.locals.eraseIdx i }) hRunning.frame
    hRunning.active hRunning.active rfl
  obtain ⟨s₂, hPasses₂, hControl₂, hFrames₂, hCount₂⟩ := passes_destroyAll
    bad_alloc pool size root [f.locals[i]] (List.nodup_singleton _)
    (s := { s.setFrame h { f with locals := f.locals.eraseIdx i } with
      control := .cleanup [.destroy f.locals[i]] (.run h next) })
    (by
      intro a ha
      rw [List.mem_singleton.mp ha]
      obtain ⟨g, hg, hIdle⟩ := hRunning.idle hMem
      exact ⟨g, (Function.update_of_ne (hRunning.own _ hMem).symm ..).trans hg, hIdle⟩)
    (hMoved.setControl _) [] (.run h next) rfl
  have hLast : step bad_alloc s₂ = some { s₂ with control := .run h next } := by
    rw [step, hControl₂]
    rfl
  obtain ⟨result, s', hEval, hPasses, hLeft⟩ := hNext { s₂ with control := .run h next } h _ rfl
    (hPasses₂.last.setControl _) (hRunning.erase hPtr hFrames₂)
  refine ⟨result, s', ?_, .step (a := ()) hGood hStep (hPasses₂.trans
    (.step (a := ()) hPasses₂.last hLast hPasses)), hLeft.control, ?_, ?_⟩
  · have hCount : s.pool.outstanding.length = s₂.pool.outstanding.length + 1 := hCount₂
    have hLe := hGood.outstanding_le hNoOverflow
    have hFree : State.free { s₂ with control := .run h next } max_coroutines =
        s.free max_coroutines + 1 := by
      unfold State.free
      show max_coroutines - s₂.pool.outstanding.length = _
      omega
    rw [hFree, map_eraseIdx, List.length_eraseIdx_of_lt hi] at hEval
    rw [Body.eval, List.length_map, if_pos hi]
    refine hEval.trans ?_
    congr 2
    omega
  · rw [hLeft.frames]
    refine update_congr fun k hk => ?_
    have hPerm := List.getElem_cons_eraseIdx_perm hIn
    have hIff : k ∈ f.locals.map Handle.block ↔
        k = .block f.locals[i] ∨ k ∈ (f.locals.eraseIdx i).map Handle.block := by
      rw [← (hPerm.map Handle.block).mem_iff, List.map_cons, List.mem_cons]
    show without s₂.frames (f.locals.eraseIdx i) k = without s.frames f.locals k
    rw [hFrames₂]
    by_cases hErased : k ∈ (f.locals.eraseIdx i).map Handle.block
    · simp only [without, if_pos hErased, if_pos (hIff.mpr (Or.inr hErased))]
    · by_cases hHere : k = .block f.locals[i]
      · simp [without, hHere]
      · have hNot : k ∉ f.locals.map Handle.block := fun hIs => (hIff.mp hIs).elim hHere hErased
        simp only [without, if_neg hErased, if_neg hNot]
        simp [hHere, hk]
  · have hCount := hLeft.outstanding
    have hCount' : s.pool.outstanding.length = s₂.pool.outstanding.length + 1 := hCount₂
    replace hCount : s₂.pool.outstanding.length =
      s'.pool.outstanding.length + (f.locals.eraseIdx i).length := hCount
    rw [List.length_eraseIdx_of_lt hIn] at hCount
    omega

-- ---------------------------------------------------------------------------
-- `co_await`
-- ---------------------------------------------------------------------------

/-- The frame of a `Task` that `h` awaits. -/
def Frame.awaitedBy (h : Handle) : Frame V E where
  promise := { Promise.new with continuation := some h }
  point := .active
  locals := []
  events := life.take 3

/-- The frame after `await_resume`. -/
def Frame.after (h : Handle) (result : Except E (Option V)) : Frame V E where
  promise := ⟨returned result, thrown result, some h⟩
  point := .final
  locals := []
  events := life.take 5

/-- `await_suspend` hands control to the child, which starts. -/
theorem passes_start (bad_alloc : E) (pool : CoroutinePool.State) (size : Nat) (root : Body V E)
    {i ptr : Nat} {next : Except E (Option V) → Body V E} {child : Body V E}
    (hControl : s.control = .run h (.coAwait i next))
    (hGood : Good max_coroutines block_size buffer held s) (hFrame : s.frames h = some f)
    (hActive : f.point = .active) (hPtr : f.locals[i]? = some ptr)
    (hChild : s.frames (.block ptr) = some (.new child)) (hOwn : h ≠ .block ptr) :
    ∃ s', (machine bad_alloc pool size root).Passes
        (Good max_coroutines block_size buffer held) s s' ∧
      s'.control = .run (.block ptr) child ∧ s'.pool = s.pool ∧
      s'.frames = Function.update
        (Function.update s.frames h (some { f with point := .awaiting i next })) (.block ptr)
        (some (.awaitedBy h)) := by
  obtain ⟨g, hg⟩ : ∃ g : Frame V E, g =
      ⟨{ Promise.new with continuation := some h }, .initial child, [], life.take 2⟩ := ⟨_, rfl⟩
  obtain ⟨s₁, hs₁⟩ : ∃ s₁ : State V E, s₁ =
      { (s.setFrame h { f with point := .awaiting i next }).setFrame (.block ptr) g with
        control := .resume (.block ptr) } := ⟨_, rfl⟩
  have hNew : (Frame.new child).done = false := rfl
  have hAwait : step bad_alloc s = some s₁ := by
    simp only [step, hControl, stepBody, hFrame, hPtr, hChild, hNew, Option.bind_eq_bind,
      Option.bind_some, hs₁, hg]
    rfl
  have hGood₁ : Good max_coroutines block_size buffer held s₁ := by
    have hSuspended : Good max_coroutines block_size buffer held
        (s.setFrame h { f with point := .awaiting i next }) := by
      refine hGood.setFrame hFrame fun a ha => ?_
      have hLife : f.events = life.take 3 := life_active hGood hFrame hActive a ha
      exact hLife
    rw [hs₁]
    refine Good.setControl (hSuspended.setFrame (f := .new child) ?_ ?_) _
    · exact (Function.update_of_ne hOwn.symm ..).trans hChild
    · intro a _
      rw [hg]
      exact Or.inr rfl
  have hFrame₁ : s₁.frames (.block ptr) = some g := by
    rw [hs₁]
    exact Function.update_self ..
  obtain ⟨s₂, hs₂⟩ : ∃ s₂ : State V E, s₂ =
      { s₁.setFrame (.block ptr) (.awaitedBy h) with control := .run (.block ptr) child } :=
    ⟨_, rfl⟩
  have hStart : step bad_alloc s₁ = some s₂ := by
    have hResume : s₁.control = .resume (.block ptr) := by rw [hs₁]
    simp only [step, hResume, stepResume, hFrame₁, hg, Option.bind_eq_bind, Option.bind_some, hs₂]
    rfl
  have hGood₂ : Good max_coroutines block_size buffer held s₂ := by
    rw [hs₂]
    refine Good.setControl (hGood₁.setFrame (g := .awaitedBy h) hFrame₁ fun a _ => ?_) _
    rfl
  refine ⟨s₂, .step (a := ()) hGood hAwait (.step (a := ()) hGood₁ hStart (.refl hGood₂)), ?_, ?_,
    ?_⟩
  · rw [hs₂]
  · rw [hs₂, hs₁]
    rfl
  · rw [hs₂, hs₁]
    exact Function.update_idem ..

/-- The child leaves, and its continuation is resumed with the result. -/
theorem passes_finish (bad_alloc : E) (pool : CoroutinePool.State) (size : Nat) (root : Body V E)
    {i ptr : Nat} (next : Except E (Option V) → Body V E)
    {result : Except E (Option V)} (hControl : s.control = .leave (.block ptr) (thrown result))
    (hGood : Good max_coroutines block_size buffer held s)
    (hFrame : s.frames h = some { f with point := .awaiting i next })
    (hActive : f.point = .active) (hPtr : f.locals[i]? = some ptr)
    (hChild : s.frames (.block ptr) = some { (Frame.awaitedBy h : Frame V E) with
      promise := ⟨returned result, none, some h⟩ }) (hOwn : h ≠ .block ptr) :
    ∃ s', (machine bad_alloc pool size root).Passes
        (Good max_coroutines block_size buffer held) s s' ∧
      s'.control = .run h (next result) ∧ s'.pool = s.pool ∧
      s'.frames = Function.update (Function.update s.frames h (some f)) (.block ptr)
        (some (.after h result)) := by
  obtain ⟨g, hg⟩ : ∃ g : Frame V E, g = { Frame.after h result with events := life.take 4 } :=
    ⟨_, rfl⟩
  obtain ⟨s₁, hs₁⟩ : ∃ s₁ : State V E, s₁ =
      { s.setFrame (.block ptr) g with control := .resume h } := ⟨_, rfl⟩
  have hLeave : step bad_alloc s = some s₁ := by
    simp only [step, hControl, stepLeave, hChild, Option.bind_eq_bind, Option.bind_some, hs₁, hg]
    cases result <;> rfl
  have hGood₁ : Good max_coroutines block_size buffer held s₁ := by
    rw [hs₁]
    refine Good.setControl (hGood.setFrame hChild fun a _ => ?_) _
    rw [hg]
    exact Or.inl rfl
  have hFrame₁ : s₁.frames h = some { f with point := .awaiting i next } := by
    rw [hs₁]
    exact (Function.update_of_ne hOwn ..).trans hFrame
  have hChild₁ : s₁.frames (.block ptr) = some g := by
    rw [hs₁]
    exact Function.update_self ..
  have hResult : g.promise.awaitResume = result := by
    rw [hg]
    cases result <;> rfl
  obtain ⟨s₂, hs₂⟩ : ∃ s₂ : State V E, s₂ =
      { (s₁.setFrame h { f with point := .active }).setFrame (.block ptr)
          { g with events := g.events ++ [.resumed] } with
        control := .run h (next result) } := ⟨_, rfl⟩
  have hResume : step bad_alloc s₁ = some s₂ := by
    have hHere : s₁.control = .resume h := by rw [hs₁]
    simp only [step, hHere, stepResume, hFrame₁, hPtr, hChild₁, hResult, Option.bind_eq_bind,
      Option.bind_some, hs₂]
  have hGood₂ : Good max_coroutines block_size buffer held s₂ := by
    have hResumed : Good max_coroutines block_size buffer held
        (s₁.setFrame h { f with point := .active }) := by
      refine hGood₁.setFrame hFrame₁ fun a ha => ?_
      subst ha
      have hOk := hGood₁.frames a _ hFrame₁
      exact hOk
    rw [hs₂]
    refine Good.setControl (hResumed.setFrame (f := g) ?_ ?_) _
    · exact (Function.update_of_ne hOwn.symm ..).trans hChild₁
    · intro a _
      rw [hg]
      exact Or.inr rfl
  have hSame : ({ f with point := .active } : Frame V E) = f := by
    rw [← hActive]
  refine ⟨s₂, .step (a := ()) hGood hLeave (.step (a := ()) hGood₁ hResume (.refl hGood₂)), ?_, ?_,
    ?_⟩
  · rw [hs₂]
  · rw [hs₂, hs₁]
    rfl
  · rw [hs₂, hs₁, hSame, hg]
    refine update_congr fun k hk => ?_
    show Function.update (Function.update s.frames (.block ptr) _) h (some f) k = _
    by_cases hkh : k = h
    · rw [hkh, Function.update_self, Function.update_self]
    · rw [Function.update_of_ne hkh, Function.update_of_ne hk, Function.update_of_ne hkh]

/-- The `Task` was awaited, and nothing else has changed. -/
theorem Running.await (hRunning : Running s h f tasks) {i ptr : Nat}
    (hPtr : f.locals[i]? = some ptr) {result : Except E (Option V)}
    (hFrames : s'.frames = Function.update s.frames (.block ptr) (some (.after h result))) :
    Running s' h f (tasks.set i none) := by
  have hOwn := hRunning.own ptr (List.mem_of_getElem? hPtr)
  refine ⟨?_, hRunning.active, hRunning.value, hRunning.exception, ?_, ?_, hRunning.nodup,
    hRunning.own⟩
  · rw [hFrames, Function.update_of_ne hOwn]
    exact hRunning.frame
  · rw [List.length_set]
    exact hRunning.length
  · intro j a t ha ht
    rw [List.getElem?_set] at ht
    split at ht
    · next hij =>
      rw [← hij, hPtr] at ha
      split at ht <;> cases ht
      cases ha
      refine ⟨.after h result, ?_, rfl, rfl, rfl⟩
      rw [hFrames, Function.update_self]
    · next hij =>
      have hOther : Handle.block a ≠ .block ptr := by
        intro hEq
        obtain ⟨hi, hAt⟩ := List.getElem?_eq_some_iff.mp hPtr
        obtain ⟨hj, hAt'⟩ := List.getElem?_eq_some_iff.mp ha
        have hSame : f.locals[i] = f.locals[j] := by rw [hAt, hAt', Handle.block.inj hEq]
        exact hij (hRunning.nodup.getElem_inj_iff.mp hSame)
      refine (hRunning.slots j a t ha ht).congr ?_
      rw [hFrames, Function.update_of_ne hOther]

/-- An awaited child is evaluated to its end, and the parent goes on with its result: the
induction hypothesis is used for the child's body and for what follows. -/
theorem follows_coAwait {i : Nat} {next : Except E (Option V) → Body V E} {child : Body V E}
    (hTask : tasks[i]? = some (some child))
    (hChild : Follows bad_alloc max_coroutines block_size buffer held pool size root child [])
    (hNext : ∀ result, Follows bad_alloc max_coroutines block_size buffer held pool size root
      (next result) (tasks.set i none)) :
    Follows bad_alloc max_coroutines block_size buffer held pool size root (.coAwait i next)
      tasks := by
  intro s h f hControl hGood hRunning
  obtain ⟨ptr, hPtr⟩ : ∃ ptr, f.locals[i]? = some ptr := by
    have hIn := (List.getElem?_eq_some_iff.mp hTask).1
    rw [← hRunning.length] at hIn
    exact ⟨_, List.getElem?_eq_getElem hIn⟩
  have hMem : ptr ∈ f.locals := List.mem_of_getElem? hPtr
  have hOwn := hRunning.own ptr hMem
  have hNew : s.frames (.block ptr) = some (.new child) := hRunning.slots i ptr _ hPtr hTask
  -- the child starts, follows its own evaluation, and leaves
  obtain ⟨s₁, hPasses₁, hControl₁, hPool₁, hFrames₁⟩ := passes_start bad_alloc pool size root
    hControl hGood hRunning.frame hRunning.active
    hPtr hNew hOwn
  have hRunning₁ : Running s₁ (.block ptr) (.awaitedBy h) [] := by
    refine ⟨?_, rfl, rfl, rfl, rfl, nofun, List.nodup_nil, nofun⟩
    rw [hFrames₁, Function.update_self]
  obtain ⟨result, s₂, hEval₂, hPasses₂, hLeft₂⟩ := hChild s₁ (.block ptr) _ hControl₁
    hPasses₁.last hRunning₁
  have hWithout : without s₁.frames (Frame.awaitedBy h : Frame V E).locals = s₁.frames := rfl
  have hFrames₂ := hLeft₂.frames
  rw [hWithout, hFrames₁, Function.update_idem] at hFrames₂
  obtain ⟨s₃, hPasses₃, hControl₃, hPool₃, hFrames₃⟩ := passes_finish bad_alloc pool size root
    (h := h) (f := f) next hLeft₂.control hPasses₂.last
    (by rw [hFrames₂, Function.update_of_ne hOwn, Function.update_self]) hRunning.active hPtr
    (by rw [hFrames₂, Function.update_self]; rfl) hOwn
  have hFrames : s₃.frames = Function.update s.frames (.block ptr) (some (.after h result)) := by
    rw [hFrames₃]
    refine update_congr fun k hk => ?_
    by_cases hkh : k = h
    · rw [hkh, Function.update_self]
      exact hRunning.frame.symm
    · rw [Function.update_of_ne hkh, hFrames₂, Function.update_of_ne hk, Function.update_of_ne hkh]
  have hCount : s₃.pool.outstanding.length = s.pool.outstanding.length := by
    have hCount₂ := hLeft₂.outstanding
    rw [hPool₃, ← hPool₁]
    exact hCount₂.symm
  -- and the body goes on with its result
  obtain ⟨result', s', hEval, hPasses, hLeft⟩ := hNext result s₃ h f hControl₃ hPasses₃.last
    (hRunning.await hPtr hFrames)
  refine ⟨result', s', ?_, hPasses₁.trans (hPasses₂.trans (hPasses₃.trans hPasses)),
    hLeft.control, ?_, ?_⟩
  · have hFree₁ : s₁.free max_coroutines = s.free max_coroutines := by
      unfold State.free
      rw [hPool₁]
    have hFree₃ : s₃.free max_coroutines = s.free max_coroutines := by
      unfold State.free
      rw [hCount]
    rw [hFree₁] at hEval₂
    rw [hFree₃, List.map_set, List.length_set] at hEval
    have hCall : (tasks.map (Option.map fun child => child.eval bad_alloc []))[i]? =
        some (some (child.eval bad_alloc [])) := by
      rw [List.getElem?_map, hTask]
      rfl
    rw [Body.eval, hCall]
    simp only
    rw [show child.eval bad_alloc [] (s.free max_coroutines) =
      some (result, s.free max_coroutines) from hEval₂]
    exact hEval
  · rw [hLeft.frames, hFrames, without_update_of_mem hMem]
  · rw [← hCount]
    exact hLeft.outstanding

-- ---------------------------------------------------------------------------
-- All bodies
-- ---------------------------------------------------------------------------

/-- **The machine follows the direct calls.** -/
theorem follows (hNoOverflow : CoroutinePool.NoOverflow max_coroutines block_size)
    (body : Body V E) (tasks : List (Option (Body V E)))
    (hCalls : ∀ child, some child ∈ tasks →
      Follows bad_alloc max_coroutines block_size buffer held pool size root child [])
    (hWellFormed : body.WellFormed block_size (tasks.map Option.isSome)) :
    Follows bad_alloc max_coroutines block_size buffer held pool size root body tasks := by
  induction body generalizing tasks with
  | coReturn value => exact follows_coReturn value
  | raise e => exact follows_raise e
  | create frame child next ihChild ihNext =>
    obtain ⟨hFits, hChild, hFull, hFresh⟩ := hWellFormed
    refine follows_create hNoOverflow hFits (ihNext _ tasks hCalls (hFull bad_alloc)) ?_
    refine ihNext _ _ ?_ (by rw [List.map_append]; exact hFresh)
    intro c hc
    rcases List.mem_append.mp hc with hc | hc
    · exact hCalls c hc
    · cases List.mem_singleton.mp hc
      exact ihChild [] nofun hChild
  | coAwait i next ihNext =>
    obtain ⟨hTask, hNext⟩ := hWellFormed
    rw [List.getElem?_map] at hTask
    obtain ⟨task, hAt, hSome⟩ := Option.map_eq_some_iff.mp hTask
    obtain ⟨child, rfl⟩ := Option.isSome_iff_exists.mp hSome
    refine follows_coAwait hAt (hCalls child (List.mem_of_getElem? hAt)) fun result => ?_
    refine ihNext result _ ?_ (by rw [List.map_set]; exact hNext result)
    intro c hc
    rcases List.mem_or_eq_of_mem_set hc with hc | hc
    · exact hCalls c hc
    · cases hc
  | drop i next ih =>
    obtain ⟨hIn, hNext⟩ := hWellFormed
    rw [List.length_map] at hIn
    refine follows_drop hNoOverflow hIn (ih _ ?_ (by rw [map_eraseIdx]; exact hNext))
    intro c hc
    exact hCalls c (List.mem_of_mem_eraseIdx hc)

end EmbLinux.Task
