import EmbLinux.CoroutinePool.Accounting
import EmbLinux.Lib.Deterministic
import EmbLinux.Lib.Update
import EmbLinux.Task.Model

/-!
# EmbLinux — frames and blocks

`Good` holds in every state of the machine: the frames are in the blocks that the
tree holds, and each frame is at the point of its life that its events tell. The
lemmas say how the steps keep it: a frame moves on, a frame is created in a fresh
block, a frame is freed. `passes_destroyAll` puts the steps together that destroy the
`Task` objects of a scope.
-/

namespace EmbLinux.Task

open CoroutinePool (Pooled)

variable {V E : Type} {max_coroutines block_size buffer : Nat} {held : List Nat} {size : Nat}
  {s s' : State V E} {h : Handle} {f g : Frame V E} {a : Nat}

/-- The events of a frame whose `Task` is awaited. -/
def life : List Event :=
  [.created, .awaited, .started, .finished, .resumed, .destroyed]

/-- The events of a frame are those that brought it to its point. -/
def Frame.Ok (f : Frame V E) : Prop :=
  match f.point with
  | .initial _ => f.events = life.take 1 ∨ f.events = life.take 2
  | .active => f.events = life.take 3
  | .awaiting _ _ => f.events = life.take 3
  | .final => f.events = life.take 4 ∨ f.events = life.take 5

/-- A `Task` was awaited in all its life, or in none of it. -/
def Ended (events : List Event) : Prop :=
  events = life ∨ events = [.created, .destroyed]

/-- `held` are the blocks that others hold. -/
structure Good (max_coroutines block_size buffer : Nat) (held : List Nat) (s : State V E) :
    Prop where
  pooled : Pooled max_coroutines block_size buffer s.pool
  /-- The frames are in the blocks that are outstanding, but for those that others hold. -/
  live : ∀ a, s.frames (.block a) ≠ none ↔ a ∈ s.pool.outstanding ∧ a ∉ held
  held : ∀ a ∈ held, a ∈ s.pool.outstanding
  /-- Each frame is at some point of its life, -/
  frames : ∀ a f, s.frames (.block a) = some f → f.Ok
  /-- and each destroyed one has had a whole life. -/
  ended : ∀ l ∈ s.ended, Ended l

/-- The blocks that are free. -/
def State.free (s : State V E) (max_coroutines : Nat) : Nat :=
  max_coroutines - s.pool.outstanding.length

-- ---------------------------------------------------------------------------
-- The steps
-- ---------------------------------------------------------------------------

/-- The invariant is about the pool and the frames. -/
theorem Good.setControl (hGood : Good max_coroutines block_size buffer held s)
    (control : Control V E) :
    Good max_coroutines block_size buffer held { s with control := control } :=
  ⟨hGood.pooled, hGood.live, hGood.held, hGood.frames, hGood.ended⟩

/-- A frame moves on. -/
theorem Good.setFrame (hGood : Good max_coroutines block_size buffer held s)
    (hFrame : s.frames h = some f) (hOk : ∀ a, h = .block a → g.Ok) :
    Good max_coroutines block_size buffer held (s.setFrame h g) := by
  refine ⟨hGood.pooled, ?_, hGood.held, ?_, hGood.ended⟩
  · intro a
    refine Iff.trans ?_ (hGood.live a)
    show Function.update s.frames h (some g) (.block a) ≠ none ↔ _
    rcases update_at s.frames h (some g) (.block a) with ⟨rfl, hAt⟩ | ⟨-, hAt⟩ <;> rw [hAt]
    rw [hFrame]
    exact ⟨fun _ => nofun, fun _ => nofun⟩
  · intro a f' hf'
    rcases update_cases (g := (s.setFrame h g).frames) rfl (.block a) with ⟨rfl, hAt⟩ | ⟨-, hAt⟩
    · rw [hAt] at hf'
      cases hf'
      exact hOk a rfl
    · exact hGood.frames a f' (hAt ▸ hf')

/-- A block that is free holds no frame. -/
theorem Good.fresh (hGood : Good max_coroutines block_size buffer held s)
    (hNew : a ∉ s.pool.outstanding) : s.frames (.block a) = none := by
  by_contra hSome
  exact hNew ((hGood.live a).mp hSome).1

/-- A frame is created in a fresh block. -/
theorem Good.create (hGood : Good max_coroutines block_size buffer held s)
    (hNoOverflow : CoroutinePool.NoOverflow max_coroutines block_size) (body : Body V E)
    {pool' : CoroutinePool.State} (hAllocate : s.pool.allocate size = (some a, pool')) :
    s.frames (.block a) = none ∧ pool'.outstanding = a :: s.pool.outstanding ∧
      Good max_coroutines block_size buffer held
        { s.setFrame (.block a) (.new body) with pool := pool' } := by
  have hContract := hGood.pooled.contract hNoOverflow
  have hNew := (hContract.fresh size a (congrArg Prod.fst hAllocate)).1
  have hOutstanding : pool'.outstanding = a :: s.pool.outstanding := by
    unfold CoroutinePool.State.allocate at hAllocate
    split at hAllocate <;> cases hAllocate
    rfl
  have hPooled : Pooled max_coroutines block_size buffer pool' := by
    refine CoroutinePool.pooled_step (c := .allocate size) hGood.pooled trivial ?_
    rw [CoroutinePool.callStep, hAllocate]
  refine ⟨hGood.fresh hNew, hOutstanding, hPooled, ?_, ?_, ?_, hGood.ended⟩
  · intro b
    show Function.update s.frames (.block a) _ (.block b) ≠ none ↔ b ∈ pool'.outstanding ∧ b ∉ held
    rw [hOutstanding, List.mem_cons]
    by_cases hb : b = a
    · subst hb
      rw [Function.update_self]
      exact ⟨fun _ => ⟨Or.inl rfl, fun hHeld => hNew (hGood.held b hHeld)⟩,
        fun _ => Option.some_ne_none _⟩
    · have hne : Handle.block b ≠ .block a := fun hEq => hb (Handle.block.inj hEq)
      rw [Function.update_of_ne hne, hGood.live b]
      exact and_congr_left fun _ => ⟨Or.inr, fun hOr => hOr.resolve_left hb⟩
  · intro b hb
    exact hOutstanding ▸ List.mem_cons_of_mem a (hGood.held b hb)
  · intro b f' hf'
    replace hf' : Function.update s.frames (.block a) _ (.block b) = some f' := hf'
    rcases update_at s.frames (.block a) (some (.new body)) (.block b) with ⟨-, hAt⟩ | ⟨-, hAt⟩ <;>
      rw [hAt] at hf'
    · cases hf'
      exact Or.inl rfl
    · exact hGood.frames b f' hf'

/-- A frame is freed. -/
theorem Good.free (hGood : Good max_coroutines block_size buffer held s)
    (hFrame : s.frames (.block a) = some g) {events : List Event} (hEnded : Ended events) :
    s.pool.outstanding.length = (s.pool.deallocate a).outstanding.length + 1 ∧
      Good max_coroutines block_size buffer held { s with
        pool := s.pool.deallocate a
        frames := Function.update s.frames (.block a) none
        ended := s.ended ++ [events] } := by
  obtain ⟨hMem, hNot⟩ := (hGood.live a).mp (by rw [hFrame]; exact nofun)
  obtain ⟨p, hRepresents⟩ := hGood.pooled.represents
  have hNodup : s.pool.outstanding.Nodup := hRepresents.taken ▸ hRepresents.accounts.takenNodup
  have hOutstanding : (s.pool.deallocate a).outstanding = s.pool.outstanding.erase a := rfl
  have hPooled : Pooled max_coroutines block_size buffer (s.pool.deallocate a) :=
    CoroutinePool.pooled_step (c := .deallocate a) hGood.pooled hMem rfl
  refine ⟨?_, hPooled, ?_, ?_, ?_, ?_⟩
  · rw [hOutstanding, List.length_erase_of_mem hMem]
    have hPos := List.length_pos_of_mem hMem
    omega
  · intro b
    show Function.update s.frames (.block a) none (.block b) ≠ none ↔
      b ∈ s.pool.outstanding.erase a ∧ b ∉ held
    rw [hNodup.mem_erase_iff]
    by_cases hb : b = a
    · rw [hb, Function.update_self]
      exact ⟨fun hne => absurd rfl hne, fun hAnd => absurd rfl hAnd.1.1⟩
    · have hne : Handle.block b ≠ .block a := fun hEq => hb (Handle.block.inj hEq)
      rw [Function.update_of_ne hne, hGood.live b]
      exact and_congr_left fun _ => ⟨fun hb' => ⟨hb, hb'⟩, fun hAnd => hAnd.2⟩
  · intro b hb
    refine hNodup.mem_erase_iff.mpr ⟨?_, hGood.held b hb⟩
    rintro rfl
    exact hNot hb
  · intro b f' hf'
    replace hf' : Function.update s.frames (.block a) none (.block b) = some f' := hf'
    rcases update_at s.frames (.block a) none (.block b) with ⟨-, hAt⟩ | ⟨-, hAt⟩ <;>
      rw [hAt] at hf'
    · cases hf'
    · exact hGood.frames b f' hf'
  · intro l hl
    rcases List.mem_append.mp hl with hl | hl
    · exact hGood.ended l hl
    · rw [List.mem_singleton.mp hl]
      exact hEnded

-- ---------------------------------------------------------------------------
-- The end of a scope
-- ---------------------------------------------------------------------------

/-- The frames without those in these blocks. -/
def without (frames : Handle → Option (Frame V E)) (locals : List Nat) :
    Handle → Option (Frame V E) :=
  fun k => if k ∈ locals.map .block then none else frames k

/-- A frame that was never awaited, or whose awaiting coroutine has gone on. -/
def Frame.Idle (f : Frame V E) : Prop :=
  f.locals = [] ∧ f.point ≠ .active ∧ Ended (f.events ++ [.destroyed])

/-- Destroying suspended tasks frees their blocks, by induction on the list; the frames of tasks
inside them are destroyed on the way. -/
theorem passes_destroyAll (bad_alloc : E) (pool : CoroutinePool.State) (size : Nat)
    (root : Body V E) (locals : List Nat) (hNodup : locals.Nodup)
    (hIdle : ∀ a ∈ locals, ∃ g, s.frames (.block a) = some g ∧ g.Idle)
    (hGood : Good max_coroutines block_size buffer held s) (items : List Cleanup)
    (after : Control V E) (hControl : s.control = .cleanup (locals.map .destroy ++ items) after) :
    ∃ s', (machine bad_alloc pool size root).Passes
        (Good max_coroutines block_size buffer held) s s' ∧
      s'.control = .cleanup items after ∧ s'.frames = without s.frames locals ∧
      s.pool.outstanding.length = s'.pool.outstanding.length + locals.length := by
  induction locals generalizing s with
  | nil => exact ⟨s, .refl hGood, hControl, rfl, rfl⟩
  | cons a rest ih =>
    obtain ⟨hFront, hRest⟩ := List.nodup_cons.mp hNodup
    obtain ⟨g, hFrame, hNoLocals, hSuspended, hEnded⟩ := hIdle a List.mem_cons_self
    -- `destroy` finds no `Task` in the frame
    have hDestroy : step bad_alloc s = some { s with
        control := .cleanup (.free a :: (rest.map .destroy ++ items)) after } := by
      unfold step
      rw [hControl]
      simp only [List.map_cons, List.cons_append, stepCleanup, hFrame, hNoLocals, destroyAll,
        List.reverse_nil, List.map_nil, List.nil_append, Option.bind_eq_bind, Option.bind_some]
    obtain ⟨hCount, hGood'⟩ := hGood.free hFrame hEnded
    obtain ⟨s', hPasses, hControl', hFrames, hLength⟩ := ih
      (s := { s with
        pool := s.pool.deallocate a
        frames := Function.update s.frames (.block a) none
        control := .cleanup (rest.map .destroy ++ items) after
        ended := s.ended ++ [g.events ++ [.destroyed]] })
      hRest (by
        intro b hb
        obtain ⟨g', hg', hIdle'⟩ := hIdle b (List.mem_cons_of_mem a hb)
        have hne : Handle.block b ≠ .block a := by
          intro hEq
          rw [Handle.block.inj hEq] at hb
          exact hFront hb
        exact ⟨g', (Function.update_of_ne hne ..).trans hg', hIdle'⟩)
      (hGood'.setControl _) rfl
    have hFree : step bad_alloc { s with
        control := .cleanup (.free a :: (rest.map .destroy ++ items)) after } = some { s with
        pool := s.pool.deallocate a
        frames := Function.update s.frames (.block a) none
        control := .cleanup (rest.map .destroy ++ items) after
        ended := s.ended ++ [g.events ++ [.destroyed]] } := by
      simp only [step, stepCleanup, hFrame, Option.bind_eq_bind, Option.bind_some]
    refine ⟨s', .step (a := ()) hGood hDestroy
      (.step (a := ()) (hGood.setControl _) hFree hPasses), hControl', ?_, ?_⟩
    · rw [hFrames]
      funext k
      by_cases hk : k = .block a
      · simp [without, hk]
      · simp [without, hk]
    · rw [List.length_cons]
      have hRestCount : (s.pool.deallocate a).outstanding.length =
        s'.pool.outstanding.length + rest.length := hLength
      omega

end EmbLinux.Task
