import EmbLinux.DesignConcurrentCode.QuickSort.Model

/-!
# EmbLinux — the call stacks of `parallel_quick_sort`

What the value that a thread returns next must be. A thread that helps while it waits has the
activations of unrelated chunks on its stack, one above the other; each of them owes the
sorted list of its own elements to the promise of its chunk, or to the activation below.

A future that an activation waits for is younger than every chunk below it.
-/

namespace EmbLinux.DesignConcurrentCode.QuickSort

variable {α : Type*} {lt : α → α → Prop} {input : List α} {s s' : State α} {t : Nat}
  {frames : List (Frame α)} {owed owed' : List α}

-- ---------------------------------------------------------------------------
-- Chunks and futures on a stack
-- ---------------------------------------------------------------------------

/-- The chunk that is being sorted above the frame. -/
def Frame.chunk? : Frame α → Option Nat
  | .helping _ _ id | .working id => some id
  | .higher _ _ => none

/-- The future that the activation will wait for, or waits for. -/
def Frame.lower? : Frame α → Option Nat
  | .higher _ lower | .helping _ lower _ => some lower
  | .working _ => none

/-- The chunk that the thread itself waits for, or will. -/
def Control.lower? : Control α → Option Nat
  | .spawn _ _ lower _ | .wait _ lower | .help _ lower => some lower
  | _ => none

/-- The chunks that a thread is sorting. -/
def chunksOf (frames : List (Frame α)) : List Nat :=
  frames.filterMap Frame.chunk?

/-- An activation of the thread needs the result of chunk `id`. -/
def Thread.Awaits (th : Thread α) (id : Nat) : Prop :=
  th.control.lower? = some id ∨ ∃ f ∈ th.frames, f.lower? = some id

/-- The chunk is pushed, and younger than those that the activations below sort. -/
def Above (next lower : Nat) (frames : List (Frame α)) : Prop :=
  lower < next ∧ ∀ c ∈ chunksOf frames, c < lower

@[simp] theorem chunksOf_nil : chunksOf ([] : List (Frame α)) = [] := rfl

@[simp] theorem chunksOf_higher (pivot : α) (lower : Nat) (frames : List (Frame α)) :
    chunksOf (.higher pivot lower :: frames) = chunksOf frames := rfl

@[simp] theorem chunksOf_helping (result : List α) (lower id : Nat) (frames : List (Frame α)) :
    chunksOf (.helping result lower id :: frames) = id :: chunksOf frames := rfl

@[simp] theorem chunksOf_working (id : Nat) (frames : List (Frame α)) :
    chunksOf (.working id :: frames) = id :: chunksOf frames := rfl

/-- An activation that sorts a chunk adds it to the thread's. -/
theorem chunksOf_cons {f : Frame α} {id : Nat} (h : f.chunk? = some id) (frames : List (Frame α)) :
    chunksOf (f :: frames) = id :: chunksOf frames :=
  List.filterMap_cons_some h

/-- What the activation on top waited for, it waits for below another one. -/
theorem Thread.Awaits.cons {control control' : Control α} {f : Frame α} {id : Nat}
    (h : Thread.Awaits ⟨control, frames⟩ id) (hKeep : control.lower? = f.lower?) :
    Thread.Awaits ⟨control', f :: frames⟩ id := by
  refine Or.inr ?_
  rcases h with hTop | ⟨g, hg, hLower⟩
  · exact ⟨f, List.mem_cons_self, hKeep ▸ hTop⟩
  · exact ⟨g, List.mem_cons_of_mem _ hg, hLower⟩

/-- The activation on top returns, and the one below goes on waiting. -/
theorem Thread.Awaits.tail {control control' : Control α} {f : Frame α} {id : Nat}
    (h : Thread.Awaits ⟨control, f :: frames⟩ id) (hTop : control.lower? = none)
    (hKeep : f.lower? = control'.lower?) : Thread.Awaits ⟨control', frames⟩ id := by
  rcases h with hSome | ⟨g, hg, hLower⟩
  · exact absurd (hTop.symm.trans hSome) (by simp)
  · rcases List.mem_cons.mp hg with rfl | hg
    · exact Or.inl (hKeep ▸ hLower)
    · exact Or.inr ⟨g, hg, hLower⟩

-- ---------------------------------------------------------------------------
-- What is owed
-- ---------------------------------------------------------------------------

/-- The elements that the value returned to these frames has to consist of, and what the
frames rely on for the rest. -/
def Owes (lt : α → α → Prop) (input : List α) (s : State α) (t : Nat) :
    List (Frame α) → List α → Prop
  | [], owed => t = 0 ∧ owed.Perm input
  | .higher pivot lower :: frames, owed =>
    Above s.next lower frames ∧ (∀ a ∈ s.data lower, lt a pivot) ∧ (∀ b ∈ owed, ¬ lt b pivot) ∧
      Owes lt input s t frames (s.data lower ++ pivot :: owed)
  | .helping result lower id :: frames, owed =>
    id < s.next ∧ owed.Perm (s.data id) ∧ Above s.next lower frames ∧ Ascending lt result ∧
      (∀ a ∈ s.data lower, ∀ b ∈ result, ¬ lt b a) ∧
      Owes lt input s t frames (s.data lower ++ result)
  | .working id :: frames, owed =>
    t ≠ 0 ∧ frames = [] ∧ id < s.next ∧ owed.Perm (s.data id)

/-- An activation that has its higher half and waits for the lower one. -/
def Waits (lt : α → α → Prop) (input : List α) (s : State α) (t : Nat) (result : List α)
    (lower : Nat) (frames : List (Frame α)) : Prop :=
  Above s.next lower frames ∧ Ascending lt result ∧
    (∀ a ∈ s.data lower, ∀ b ∈ result, ¬ lt b a) ∧
    Owes lt input s t frames (s.data lower ++ result)

/-- Where a thread stands, with the stack below. -/
def ThreadOk (lt : α → α → Prop) (input : List α) (s : State α) (t : Nat) (th : Thread α) : Prop :=
  match th.control with
  | .unborn | .idle | .fetch | .exited => t ≠ 0 ∧ th.frames = []
  | .sort data => Owes lt input s t th.frames data
  | .spawn _ pivot lower higher =>
    Above s.next lower th.frames ∧ (∀ a ∈ s.data lower, lt a pivot) ∧
      (∀ b ∈ higher, ¬ lt b pivot) ∧
      Owes lt input s t th.frames (s.data lower ++ pivot :: higher)
  | .wait result lower | .help result lower => Waits lt input s t result lower th.frames
  | .ret result =>
    ∃ owed, Owes lt input s t th.frames owed ∧ Ascending lt result ∧ result.Perm owed
  | .joining result | .finished result =>
    t = 0 ∧ th.frames = [] ∧ Ascending lt result ∧ result.Perm input

/-- More chunks may have been pushed meanwhile. -/
theorem Above.mono {next next' lower : Nat} (h : Above next lower frames) (hNext : next ≤ next') :
    Above next' lower frames :=
  ⟨Nat.lt_of_lt_of_le h.1 hNext, h.2⟩

/-- What is owed does not depend on the order. -/
theorem Owes.perm (h : Owes lt input s t frames owed) (hPerm : owed'.Perm owed) :
    Owes lt input s t frames owed' := by
  induction frames generalizing owed owed' with
  | nil => exact ⟨h.1, hPerm.trans h.2⟩
  | cons f frames ih =>
    cases f with
    | higher pivot lower =>
      obtain ⟨hAbove, hLower, hHigher, hOwes⟩ := h
      exact ⟨hAbove, hLower, fun b hb => hHigher b (hPerm.subset hb),
        ih hOwes ((hPerm.cons pivot).append_left _)⟩
    | helping result lower id =>
      obtain ⟨hid, hOwed, hRest⟩ := h
      exact ⟨hid, hPerm.trans hOwed, hRest⟩
    | working id =>
      obtain ⟨ht, hLast, hid, hOwed⟩ := h
      exact ⟨ht, hLast, hid, hPerm.trans hOwed⟩

/-- Chunks that are pushed later change nothing. -/
theorem Owes.mono (h : Owes lt input s t frames owed) (hNext : s.next ≤ s'.next)
    (hData : ∀ id < s.next, s'.data id = s.data id) : Owes lt input s' t frames owed := by
  induction frames generalizing owed with
  | nil => exact h
  | cons f frames ih =>
    cases f with
    | higher pivot lower =>
      obtain ⟨hAbove, hLower, hHigher, hOwes⟩ := h
      have hSame := hData lower hAbove.1
      exact ⟨hAbove.mono hNext, hSame ▸ hLower, hHigher, hSame ▸ ih hOwes⟩
    | helping result lower id =>
      obtain ⟨hid, hOwed, hAbove, hResult, hCross, hOwes⟩ := h
      have hSame := hData lower hAbove.1
      exact ⟨Nat.lt_of_lt_of_le hid hNext, hData id hid ▸ hOwed, hAbove.mono hNext, hResult,
        hSame ▸ hCross, hSame ▸ ih hOwes⟩
    | working id =>
      obtain ⟨ht, hLast, hid, hOwed⟩ := h
      exact ⟨ht, hLast, Nat.lt_of_lt_of_le hid hNext, hData id hid ▸ hOwed⟩

/-- So what a thread knows of its own stays true. -/
theorem ThreadOk.mono {th : Thread α} (h : ThreadOk lt input s t th) (hNext : s.next ≤ s'.next)
    (hData : ∀ id < s.next, s'.data id = s.data id) : ThreadOk lt input s' t th := by
  unfold ThreadOk at h ⊢
  have hWaits : ∀ {result lower}, Waits lt input s t result lower th.frames →
      Waits lt input s' t result lower th.frames := by
    rintro result lower ⟨hAbove, hResult, hCross, hOwes⟩
    have hSame := hData lower hAbove.1
    exact ⟨hAbove.mono hNext, hResult, hSame ▸ hCross, hSame ▸ hOwes.mono hNext hData⟩
  cases hControl : th.control with
  | sort data =>
    rw [hControl] at h
    exact Owes.mono h hNext hData
  | spawn stage pivot lower higher =>
    rw [hControl] at h
    obtain ⟨hAbove, hLower, hHigher, hOwes⟩ := h
    have hSame := hData lower hAbove.1
    exact ⟨hAbove.mono hNext, hSame ▸ hLower, hHigher, hSame ▸ hOwes.mono hNext hData⟩
  | wait result lower =>
    rw [hControl] at h
    exact hWaits h
  | help result lower =>
    rw [hControl] at h
    exact hWaits h
  | ret result =>
    rw [hControl] at h
    obtain ⟨owed, hOwes, hResult⟩ := h
    exact ⟨owed, hOwes.mono hNext hData, hResult⟩
  | unborn => simpa only [hControl] using h
  | idle => simpa only [hControl] using h
  | fetch => simpa only [hControl] using h
  | exited => simpa only [hControl] using h
  | joining result => simpa only [hControl] using h
  | finished result => simpa only [hControl] using h

-- ---------------------------------------------------------------------------
-- Older and younger chunks
-- ---------------------------------------------------------------------------

/-- The chunks of a thread have been pushed. -/
theorem Owes.lt_next (h : Owes lt input s t frames owed) : ∀ c ∈ chunksOf frames, c < s.next := by
  induction frames generalizing owed with
  | nil => exact fun c hc => absurd hc List.not_mem_nil
  | cons f frames ih =>
    cases f with
    | higher pivot lower => exact ih h.2.2.2
    | helping result lower id =>
      intro c hc
      rw [chunksOf_helping, List.mem_cons] at hc
      rcases hc with rfl | hc
      · exact h.1
      · exact ih h.2.2.2.2.2 c hc
    | working id =>
      intro c hc
      obtain ⟨-, rfl, hid, -⟩ := h
      rw [chunksOf_working, chunksOf_nil, List.mem_singleton] at hc
      exact hc ▸ hid

/-- A worker has a chunk at the bottom of its stack. -/
theorem Owes.exists_chunk (h : Owes lt input s t frames owed) (ht : t ≠ 0) :
    ∃ c, c ∈ chunksOf frames := by
  induction frames generalizing owed with
  | nil => exact absurd h.1 ht
  | cons f frames ih =>
    cases f with
    | higher pivot lower => exact ih h.2.2.2
    | helping result lower id => exact ⟨id, List.mem_cons_self⟩
    | working id => exact ⟨id, List.mem_cons_self⟩

/-- What an activation of a worker waits for is younger than some chunk that the worker
sorts. -/
theorem Owes.exists_older (h : Owes lt input s t frames owed) (ht : t ≠ 0) {f : Frame α}
    (hf : f ∈ frames) {lower : Nat} (hLower : f.lower? = some lower) :
    ∃ c ∈ chunksOf frames, c < lower := by
  induction frames generalizing owed with
  | nil => exact absurd hf List.not_mem_nil
  | cons g frames ih =>
    cases g with
    | higher pivot lower' =>
      obtain ⟨hAbove, -, -, hOwes⟩ := h
      rcases List.mem_cons.mp hf with rfl | hf
      · obtain ⟨c, hc⟩ := hOwes.exists_chunk ht
        exact ⟨c, hc, Option.some.inj hLower ▸ hAbove.2 c hc⟩
      · exact ih hOwes hf
    | helping result lower' id =>
      obtain ⟨-, -, hAbove, -, -, hOwes⟩ := h
      rcases List.mem_cons.mp hf with rfl | hf
      · obtain ⟨c, hc⟩ := hOwes.exists_chunk ht
        exact ⟨c, List.mem_cons_of_mem _ hc, Option.some.inj hLower ▸ hAbove.2 c hc⟩
      · obtain ⟨c, hc, hLess⟩ := ih hOwes hf
        exact ⟨c, List.mem_cons_of_mem _ hc, hLess⟩
    | working id =>
      obtain ⟨-, rfl, -, -⟩ := h
      rcases List.mem_cons.mp hf with rfl | hf
      · cases hLower
      · exact absurd hf List.not_mem_nil

/-- The same for everything that a worker waits for. -/
theorem ThreadOk.exists_older {th : Thread α} (h : ThreadOk lt input s t th) (ht : t ≠ 0)
    {lower : Nat} (hAwaits : th.Awaits lower) : ∃ c ∈ chunksOf th.frames, c < lower := by
  unfold ThreadOk at h
  have hAbove : ∀ {owed lower'}, Owes lt input s t th.frames owed →
      Above s.next lower' th.frames → some lower' = some lower →
      ∃ c ∈ chunksOf th.frames, c < lower := by
    rintro owed lower' hOwes hAbove hEq
    obtain ⟨c, hc⟩ := hOwes.exists_chunk ht
    exact ⟨c, hc, Option.some.inj hEq ▸ hAbove.2 c hc⟩
  have hNone : ∀ {f}, th.frames = [] → f ∈ th.frames → ∃ c ∈ chunksOf th.frames, c < lower := by
    intro f hEmpty hf
    rw [hEmpty] at hf
    exact absurd hf List.not_mem_nil
  unfold Thread.Awaits at hAwaits
  cases hControl : th.control with
  | sort data =>
    rw [hControl] at h hAwaits
    obtain ⟨f, hf, hLower⟩ := hAwaits.resolve_left (by simp [Control.lower?])
    exact Owes.exists_older h ht hf hLower
  | spawn stage pivot lower' higher =>
    rw [hControl] at h hAwaits
    rcases hAwaits with hEq | ⟨f, hf, hLower⟩
    · exact hAbove h.2.2.2 h.1 hEq
    · exact h.2.2.2.exists_older ht hf hLower
  | wait result lower' =>
    rw [hControl] at h hAwaits
    rcases hAwaits with hEq | ⟨f, hf, hLower⟩
    · exact hAbove h.2.2.2 h.1 hEq
    · exact h.2.2.2.exists_older ht hf hLower
  | help result lower' =>
    rw [hControl] at h hAwaits
    rcases hAwaits with hEq | ⟨f, hf, hLower⟩
    · exact hAbove h.2.2.2 h.1 hEq
    · exact h.2.2.2.exists_older ht hf hLower
  | ret result =>
    rw [hControl] at h hAwaits
    obtain ⟨owed, hOwes, -⟩ := h
    obtain ⟨f, hf, hLower⟩ := hAwaits.resolve_left (by simp [Control.lower?])
    exact hOwes.exists_older ht hf hLower
  | unborn =>
    rw [hControl] at h hAwaits
    obtain ⟨f, hf, -⟩ := hAwaits.resolve_left (by simp [Control.lower?])
    exact hNone h.2 hf
  | idle =>
    rw [hControl] at h hAwaits
    obtain ⟨f, hf, -⟩ := hAwaits.resolve_left (by simp [Control.lower?])
    exact hNone h.2 hf
  | fetch =>
    rw [hControl] at h hAwaits
    obtain ⟨f, hf, -⟩ := hAwaits.resolve_left (by simp [Control.lower?])
    exact hNone h.2 hf
  | exited =>
    rw [hControl] at h hAwaits
    obtain ⟨f, hf, -⟩ := hAwaits.resolve_left (by simp [Control.lower?])
    exact hNone h.2 hf
  | joining result =>
    rw [hControl] at h
    exact absurd h.1 ht
  | finished result =>
    rw [hControl] at h
    exact absurd h.1 ht

end EmbLinux.DesignConcurrentCode.QuickSort
