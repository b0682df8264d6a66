import EmbLinux.DesignConcurrentCode.QuickSort.Stacks
import EmbLinux.Lib.Update
import Mathlib.Data.List.Nodup
import Mathlib.Data.Nat.Basic
import Mathlib.Order.RelClasses

/-!
# EmbLinux — the schedules of `parallel_quick_sort`

The chunks, the promises and the call stacks of all threads together, in every order of
their steps.

* `Inv` — a chunk is on the stack, with one thread, or done, and somebody waits for it until
  it is done;
* `inv_reachable` — it holds in every state, up to a data race if there is one;
* `Inv.all_done`, `Inv.not_stuck` — what follows for the end of the call, and before it.
-/

namespace EmbLinux.DesignConcurrentCode.QuickSort

variable {α : Type*} {lt : α → α → Prop} {input : List α} {s s' : State α} {t : Nat}
  {control : Control α} {frames : List (Frame α)}

-- ---------------------------------------------------------------------------
-- The invariant
-- ---------------------------------------------------------------------------

/-- Each chunk that is not sorted yet is on the stack or with one thread, and somebody waits for
it; a sorted one has the elements that it was pushed with. -/
structure Inv (lt : α → α → Prop) (input : List α) (s : State α) : Prop where
  /-- What each thread owes to its frames. -/
  threads : ∀ t, ThreadOk lt input s t (s.thread t)
  /-- Workers are started in the order of their numbers. -/
  born : ∀ t, s.started < t → (s.thread t).control = .unborn
  distinct : ∀ t, (chunksOf (s.thread t).frames).Nodup
  stack : s.chunks.Nodup
  /-- A chunk on the stack was not taken by anybody, -/
  queued : ∀ id ∈ s.chunks, id < s.next ∧ s.promise id = none ∧ s.startedBy id = []
  /-- one on the frames of a thread was taken by this thread, -/
  running : ∀ t, ∀ id ∈ chunksOf (s.thread t).frames,
    id < s.next ∧ s.promise id = none ∧ s.startedBy id = [t]
  /-- and an unfinished chunk is at one of these places. -/
  placed : ∀ id < s.next, s.promise id = none →
    id ∈ s.chunks ∨ ∃ t, id ∈ chunksOf (s.thread t).frames
  /-- Somebody waits for its future. -/
  awaited : ∀ id < s.next, s.promise id = none → ∃ t, (s.thread t).Awaits id
  /-- A future that is ready has the sorted chunk, -/
  done : ∀ id v, s.promise id = some v → id < s.next ∧ Ascending lt v ∧ v.Perm (s.data id) ∧
    ∃ t, s.startedBy id = [t]
  /-- and was made ready once. -/
  fulfilled : ∀ id, s.fulfilled id = if (s.promise id).isSome then 1 else 0
  fresh : ∀ id, s.next ≤ id → s.startedBy id = []

/-- No chunk has been pushed. -/
theorem inv_init (input : List α) : Inv lt input (init input) := by
  have hFrames : ∀ t, ((init input).thread t).frames = [] := by
    intro t
    rcases update_cases (g := (init input).thread) rfl t with ⟨-, hHere⟩ | ⟨-, hOther⟩
    · rw [hHere]
    · rw [hOther]
  have hNone : ∀ t, chunksOf ((init input).thread t).frames = [] := by
    intro t
    rw [hFrames]
    rfl
  refine ⟨?_, ?_, ?_, List.nodup_nil, ?_, ?_, ?_, ?_, ?_, fun _ => rfl, fun _ _ => rfl⟩
  · intro t
    rcases update_cases (g := (init input).thread) rfl t with ⟨rfl, hHere⟩ | ⟨hne, hOther⟩
    · rw [hHere]
      cases input with
      | nil => exact ⟨rfl, rfl, Ascending.nil, List.Perm.refl _⟩
      | cons x rest => exact ⟨rfl, List.Perm.refl _⟩
    · rw [hOther]
      exact ⟨hne, rfl⟩
  · intro t ht
    change 0 < t at ht
    rcases update_cases (g := (init input).thread) rfl t with ⟨rfl, -⟩ | ⟨-, hOther⟩
    · exact absurd ht (Nat.lt_irrefl _)
    · rw [hOther]
  · intro t
    rw [hNone]
    exact List.nodup_nil
  · intro id hid
    exact absurd hid List.not_mem_nil
  · intro t id hid
    rw [hNone] at hid
    exact absurd hid List.not_mem_nil
  · intro id hid
    exact absurd hid (Nat.not_lt_zero id)
  · intro id hid
    exact absurd hid (Nat.not_lt_zero id)
  · intro id v hv
    exact absurd hv (by simp [init])

/-- A thread that was not started has no activation. -/
theorem Inv.unborn_frames (h : Inv lt input s) (ht : (s.thread t).control = .unborn) :
    (s.thread t).frames = [] := by
  have hOk := h.threads t
  rw [ThreadOk, ht] at hOk
  exact hOk.2

/-- A thread that runs was started. -/
theorem Inv.le_started (h : Inv lt input s) (hLive : (s.thread t).control ≠ .unborn) :
    t ≤ s.started := by
  by_contra hLate
  exact hLive (h.born t (Nat.lt_of_not_le hLate))

/-- One thread moves, and the others stand where they stood. -/
theorem threads_update {th : Thread α} (hThread : s'.thread = Function.update s.thread t th)
    (hMoved : ThreadOk lt input s' t th) (hOthers : ∀ u, ThreadOk lt input s' u (s.thread u))
    (u : Nat) : ThreadOk lt input s' u (s'.thread u) := by
  rcases update_cases hThread u with ⟨rfl, hHere⟩ | ⟨-, hSame⟩
  · rwa [hHere]
  · rw [hSame]
    exact hOthers u

/-- A step of a thread that runs starts no other. -/
theorem Inv.born_update (h : Inv lt input s) (hLive : t ≤ s.started) {th : Thread α}
    (hThread : s'.thread = Function.update s.thread t th) (u : Nat) (hu : s.started < u) :
    (s'.thread u).control = .unborn := by
  rcases update_cases hThread u with ⟨rfl, -⟩ | ⟨-, hSame⟩
  · exact absurd hLive (Nat.not_le_of_gt hu)
  · rw [hSame]
    exact h.born u hu

/-- A chunk that a thread waits for stays awaited while the thread waits. -/
theorem awaited_update {th : Thread α} (hThread : s'.thread = Function.update s.thread t th)
    {id : Nat} (hKeep : (s.thread t).Awaits id → th.Awaits id)
    (hAwaited : ∃ u, (s.thread u).Awaits id) : ∃ u, (s'.thread u).Awaits id := by
  obtain ⟨u, hu⟩ := hAwaited
  refine ⟨u, ?_⟩
  rcases update_cases hThread u with ⟨rfl, hHere⟩ | ⟨-, hSame⟩
  · rw [hHere]
    exact hKeep hu
  · rwa [hSame]

-- ---------------------------------------------------------------------------
-- Steps that leave the chunks where they are
-- ---------------------------------------------------------------------------

/-- One thread moves; the chunks that it sorts stay the same, and it goes on waiting for
what is not done. -/
theorem Inv.setThread (h : Inv lt input s) (hLive : t ≤ s.started)
    (hOk : ThreadOk lt input s t ⟨control, frames⟩)
    (hChunks : chunksOf frames = chunksOf (s.thread t).frames)
    (hAwaits : ∀ id, s.promise id = none → (s.thread t).Awaits id →
      Thread.Awaits ⟨control, frames⟩ id) :
    Inv lt input (s.setThread t control frames) := by
  have hThread : (s.setThread t control frames).thread =
    Function.update s.thread t ⟨control, frames⟩ := rfl
  have hSame : ∀ u, chunksOf ((s.setThread t control frames).thread u).frames =
      chunksOf (s.thread u).frames :=
    observe_update (fun th => chunksOf th.frames) hThread hChunks
  refine ⟨?_, h.born_update hLive hThread, ?_, h.stack, h.queued, ?_, ?_, ?_, h.done, h.fulfilled,
    h.fresh⟩
  · exact threads_update hThread (hOk.mono (Nat.le_refl _) fun _ _ => rfl)
      fun u => (h.threads u).mono (Nat.le_refl _) fun _ _ => rfl
  · intro u
    rw [hSame]
    exact h.distinct u
  · intro u id hid
    rw [hSame] at hid
    exact h.running u id hid
  · intro id hid hNone
    refine (h.placed id hid hNone).imp_right ?_
    rintro ⟨u, hu⟩
    exact ⟨u, by rwa [hSame]⟩
  · intro id hid hNone
    exact awaited_update hThread (hAwaits id hNone) (h.awaited id hid hNone)

/-- What the invariant does not speak of may change. -/
theorem Inv.congr (h : Inv lt input s) (threads : List Nat) (appending : Option Nat)
    (race endOfData : Bool) :
    Inv lt input { s with
      threads := threads, appending := appending, race := race, endOfData := endOfData } :=
  ⟨fun u => (h.threads u).mono (Nat.le_refl _) fun _ _ => rfl, h.born, h.distinct, h.stack,
    h.queued, h.running, h.placed, h.awaited, h.done, h.fulfilled, h.fresh⟩

/-- A worker starts. -/
theorem Inv.launch (h : Inv lt input s) :
    Inv lt input { s.setThread (s.started + 1) .idle [] with started := s.started + 1 } := by
  have hUnborn := h.born (s.started + 1) (Nat.lt_succ_self _)
  have hFrames := h.unborn_frames hUnborn
  have hRaised : Inv lt input { s with started := s.started + 1 } :=
    ⟨fun u => (h.threads u).mono (Nat.le_refl _) fun _ _ => rfl,
      fun u hu => h.born u (Nat.lt_of_succ_lt hu), h.distinct, h.stack, h.queued, h.running,
      h.placed, h.awaited, h.done, h.fulfilled, h.fresh⟩
  refine hRaised.setThread (Nat.le_refl _) ⟨Nat.succ_ne_zero _, rfl⟩ ?_ ?_
  · show chunksOf [] = chunksOf (s.thread (s.started + 1)).frames
    rw [hFrames]
  · intro id _ hAwaits
    change (s.thread (s.started + 1)).Awaits id at hAwaits
    rw [Thread.Awaits, hUnborn, hFrames] at hAwaits
    rcases hAwaits with hControl | ⟨f, hf, -⟩
    · cases hControl
    · exact absurd hf List.not_mem_nil

/-- An access to the vector changes nothing that the invariant speaks of, or is a race. -/
theorem Inv.access (h : Inv lt input s) {otherwise : State α} (hNext : Inv lt input otherwise) :
    Inv lt input (s.access otherwise) := by
  unfold State.access
  split
  · exact h.congr s.threads s.appending true s.endOfData
  · exact hNext

/-- Step 4, in which the thread goes on waiting for its lower half. -/
theorem Inv.spawn (h : Inv lt input s) (hLive : t ≤ s.started) {stage : Spawn} {pivot : α}
    {lower : Nat} {higher : List α}
    (hThread : s.thread t = ⟨.spawn stage pivot lower higher, frames⟩)
    (maxThreadCount : Nat) :
    Inv lt input (s.spawn maxThreadCount t stage pivot lower higher frames) := by
  have hOk := h.threads t
  rw [hThread] at hOk
  have hStay : ∀ stage' : Spawn,
      Inv lt input (s.setThread t (.spawn stage' pivot lower higher) frames) := by
    intro stage'
    refine h.setThread hLive hOk (by rw [hThread]) fun i _ hAwaits => ?_
    rw [hThread] at hAwaits
    exact hAwaits
  have hSort : Inv lt input (s.setThread t (.sort higher) (.higher pivot lower :: frames)) := by
    refine h.setThread hLive hOk (by rw [hThread]; rfl) fun i _ hAwaits => ?_
    rw [hThread] at hAwaits
    exact hAwaits.cons rfl
  unfold State.spawn
  cases stage with
  | test =>
    refine h.access ?_
    split
    · exact hStay .launch
    · exact hSort
  | launch =>
    have hSame : (s.setThread (s.started + 1) .idle []).thread t =
        ⟨.spawn .launch pivot lower higher, frames⟩ :=
      (Function.update_of_ne (Nat.ne_of_lt (Nat.lt_succ_of_le hLive)) _ _).trans hThread
    have hOk' := h.launch.threads t
    change ThreadOk lt input _ t ((s.setThread (s.started + 1) .idle []).thread t) at hOk'
    rw [hSame] at hOk'
    refine h.launch.setThread (Nat.le_succ_of_le hLive) hOk' ?_ fun i _ hAwaits => ?_
    · show chunksOf frames = chunksOf ((s.setThread (s.started + 1) .idle []).thread t).frames
      rw [hSame]
    · change ((s.setThread (s.started + 1) .idle []).thread t).Awaits i at hAwaits
      rw [hSame] at hAwaits
      exact hAwaits
  | append worker =>
    exact h.access ((hStay (.appending worker)).congr s.threads (some t) s.race s.endOfData)
  | appending worker =>
    exact hSort.congr (s.threads ++ [worker]) none s.race s.endOfData

-- ---------------------------------------------------------------------------
-- Chunks that are pushed, popped and done
-- ---------------------------------------------------------------------------

/-- Steps 1 to 3: a new chunk, that the thread will wait for. -/
theorem Inv.push (h : Inv lt input s) {pivot : α} {rest : List α}
    (hThread : s.thread t = ⟨.sort (pivot :: rest), frames⟩) [DecidableRel lt]
    (halves : Partition (fun val => decide (lt val pivot)) rest) :
    Inv lt input
      ((s.push halves.front).setThread t (.spawn .test pivot s.next halves.back) frames) := by
  have hOk := h.threads t
  rw [hThread] at hOk
  have hOwes : Owes lt input s t frames (pivot :: rest) := hOk
  have hLive : t ≤ s.started := h.le_started (by rw [hThread]; simp)
  have hData : ∀ id < s.next, (s.push halves.front).data id = s.data id :=
    fun id hid => Function.update_of_ne (Nat.ne_of_lt hid) _ _
  have hHere : (s.push halves.front).data s.next = halves.front := Function.update_self ..
  have hThread' : ((s.push halves.front).setThread t (.spawn .test pivot s.next halves.back)
      frames).thread =
      Function.update s.thread t ⟨.spawn .test pivot s.next halves.back, frames⟩ := rfl
  have hSame : ∀ u, chunksOf ((((s.push halves.front).setThread t
      (.spawn .test pivot s.next halves.back) frames).thread u).frames) =
      chunksOf (s.thread u).frames :=
    observe_update (fun th => chunksOf th.frames) hThread' (by rw [hThread])
  refine ⟨?_, h.born_update hLive hThread', ?_, ?_, ?_, ?_, ?_, ?_, ?_, h.fulfilled, ?_⟩
  · refine threads_update hThread'
      ⟨⟨Nat.lt_succ_self _, fun c hc => hOwes.lt_next c hc⟩, ?_, ?_, ?_⟩
      fun u => (h.threads u).mono (Nat.le_succ _) hData
    · intro a ha
      change a ∈ (s.push halves.front).data s.next at ha
      rw [hHere] at ha
      exact of_decide_eq_true (halves.all_front a ha)
    · intro b hb
      exact of_decide_eq_false (halves.all_back b hb)
    · show Owes lt input _ t frames ((s.push halves.front).data s.next ++ pivot :: halves.back)
      rw [hHere]
      have hOld : Owes lt input ((s.push halves.front).setThread t
          (.spawn .test pivot s.next halves.back) frames) t frames (pivot :: rest) :=
        hOwes.mono (Nat.le_succ _) hData
      exact hOld.perm (List.perm_middle.trans (halves.perm.cons pivot))
  · intro u
    rw [hSame]
    exact h.distinct u
  · exact List.nodup_cons.mpr ⟨fun hMem => Nat.lt_irrefl _ (h.queued _ hMem).1, h.stack⟩
  · intro id hid
    rcases List.mem_cons.mp hid with rfl | hid
    · refine ⟨Nat.lt_succ_self _, ?_, h.fresh _ (Nat.le_refl _)⟩
      by_contra hSome
      obtain ⟨v, hv⟩ := Option.ne_none_iff_exists'.mp hSome
      exact Nat.lt_irrefl _ (h.done _ v hv).1
    · obtain ⟨hLess, hRest⟩ := h.queued id hid
      exact ⟨Nat.lt_succ_of_lt hLess, hRest⟩
  · intro u id hid
    rw [hSame] at hid
    obtain ⟨hLess, hRest⟩ := h.running u id hid
    exact ⟨Nat.lt_succ_of_lt hLess, hRest⟩
  · intro id hid hNone
    rcases Nat.lt_succ_iff_lt_or_eq.mp hid with hOld | rfl
    · refine (h.placed id hOld hNone).imp (List.mem_cons_of_mem _) ?_
      rintro ⟨u, hu⟩
      exact ⟨u, by rwa [hSame]⟩
    · exact Or.inl List.mem_cons_self
  · intro id hid hNone
    rcases Nat.lt_succ_iff_lt_or_eq.mp hid with hOld | rfl
    · refine awaited_update hThread' (fun hAwaits => ?_) (h.awaited id hOld hNone)
      rw [Thread.Awaits, hThread] at hAwaits
      exact hAwaits.imp_left (by simp [Control.lower?])
    · refine ⟨t, Or.inl ?_⟩
      rw [hThread', Function.update_self]
      rfl
  · intro id v hv
    obtain ⟨hLess, hSorted, hPerm, hStarted⟩ := h.done id v hv
    exact ⟨Nat.lt_succ_of_lt hLess, hSorted, (hData id hLess).symm ▸ hPerm, hStarted⟩
  · intro id hid
    exact h.fresh id (Nat.le_of_succ_le hid)

/-- A chunk goes from the stack to a thread. -/
theorem Inv.pop (h : Inv lt input s) (hThread : s.thread t = ⟨control, frames⟩)
    (hLive : t ≤ s.started) {id : Nat} {chunks : List Nat} (hChunks : s.chunks = id :: chunks)
    {frame : Frame α} (hFrame : frame.chunk? = some id)
    (hOwes : Owes lt input s t (frame :: frames) (s.data id))
    (hAwaits : ∀ i, (s.thread t).Awaits i →
      Thread.Awaits ⟨.sort (s.data id), frame :: frames⟩ i) :
    Inv lt input ((s.pop t id chunks).setThread t (.sort (s.data id)) (frame :: frames)) := by
  obtain ⟨hid, hUnset, hUnstarted⟩ := h.queued id (hChunks ▸ List.mem_cons_self)
  have hNodup := h.stack
  rw [hChunks, List.nodup_cons] at hNodup
  have hThread' : ((s.pop t id chunks).setThread t (.sort (s.data id)) (frame :: frames)).thread =
    Function.update s.thread t ⟨.sort (s.data id), frame :: frames⟩ := rfl
  have hStartedBy : ((s.pop t id chunks).setThread t (.sort (s.data id))
    (frame :: frames)).startedBy = Function.update s.startedBy id (s.startedBy id ++ [t]) := rfl
  -- nobody has the chunk yet
  have hNew : ∀ u, ∀ c ∈ chunksOf (s.thread u).frames, c ≠ id := by
    rintro u c hc rfl
    have hStarted := (h.running u c hc).2.2
    rw [hUnstarted] at hStarted
    cases hStarted
  have hOther : ∀ c, c ≠ id → ((s.pop t id chunks).setThread t (.sort (s.data id))
      (frame :: frames)).startedBy c = s.startedBy c :=
    fun c hc => Function.update_of_ne hc _ _
  refine ⟨?_, h.born_update hLive hThread', ?_, hNodup.2, ?_, ?_, ?_, ?_, ?_, h.fulfilled, ?_⟩
  · exact threads_update hThread' (hOwes.mono (Nat.le_refl _) fun _ _ => rfl)
      fun u => (h.threads u).mono (Nat.le_refl _) fun _ _ => rfl
  · intro u
    rcases update_cases hThread' u with ⟨rfl, hHere⟩ | ⟨-, hSame⟩
    · have hOld := h.distinct u
      have hFirst := hNew u id
      rw [hThread] at hOld hFirst
      rw [hHere, chunksOf_cons hFrame]
      exact List.nodup_cons.mpr ⟨fun hMem => hFirst hMem rfl, hOld⟩
    · exact hSame ▸ h.distinct u
  · intro c hc
    obtain ⟨hLess, hNone, hStarted⟩ := h.queued c (hChunks ▸ List.mem_cons_of_mem _ hc)
    have hne : c ≠ id := by
      rintro rfl
      exact hNodup.1 hc
    exact ⟨hLess, hNone, (hOther c hne).trans hStarted⟩
  · intro u c hc
    rcases update_cases hThread' u with ⟨rfl, hHere⟩ | ⟨-, hSame⟩
    · rw [hHere, chunksOf_cons hFrame, List.mem_cons] at hc
      rcases hc with rfl | hc
      · refine ⟨hid, hUnset, ?_⟩
        rw [hStartedBy, Function.update_self, hUnstarted]
        rfl
      · have hMem : c ∈ chunksOf (s.thread u).frames := by rwa [hThread]
        obtain ⟨hLess, hNone, hStarted⟩ := h.running u c hMem
        exact ⟨hLess, hNone, (hOther c (hNew u c hMem)).trans hStarted⟩
    · rw [hSame] at hc
      obtain ⟨hLess, hNone, hStarted⟩ := h.running u c hc
      exact ⟨hLess, hNone, (hOther c (hNew u c hc)).trans hStarted⟩
  · intro c hc hNone
    have hHolds : ∀ u, c ∈ chunksOf (s.thread u).frames →
        c ∈ chunksOf (((s.pop t id chunks).setThread t (.sort (s.data id))
          (frame :: frames)).thread u).frames := by
      intro u hu
      rcases update_cases hThread' u with ⟨rfl, hHere⟩ | ⟨-, hSame⟩
      · rw [hThread] at hu
        rw [hHere, chunksOf_cons hFrame]
        exact List.mem_cons_of_mem _ hu
      · rwa [hSame]
    rcases h.placed c hc hNone with hMem | ⟨u, hu⟩
    · rw [hChunks, List.mem_cons] at hMem
      refine hMem.symm.imp_right ?_
      rintro rfl
      refine ⟨t, ?_⟩
      rw [hThread', Function.update_self, chunksOf_cons hFrame]
      exact List.mem_cons_self
    · exact Or.inr ⟨u, hHolds u hu⟩
  · intro c hc hNone
    exact awaited_update hThread' (hAwaits c) (h.awaited c hc hNone)
  · intro c v hv
    obtain ⟨hLess, hSorted, hPerm, u, hStarted⟩ := h.done c v hv
    have hne : c ≠ id := by
      rintro rfl
      rw [show s.promise c = some v from hv] at hUnset
      cases hUnset
    exact ⟨hLess, hSorted, hPerm, u, (hOther c hne).trans hStarted⟩
  · intro c hc
    have hne : c ≠ id := Nat.ne_of_gt (Nat.lt_of_lt_of_le hid hc)
    exact (hOther c hne).trans (h.fresh c hc)

/-- `sort_chunk` has the sorted list and sets the promise. -/
theorem Inv.fulfil (h : Inv lt input s) {sorted : List α} {frame : Frame α}
    (hThread : s.thread t = ⟨.ret sorted, frame :: frames⟩) {id : Nat}
    (hFrame : frame.chunk? = some id) (hSorted : Ascending lt sorted)
    (hPerm : sorted.Perm (s.data id)) (hOk : ThreadOk lt input s t ⟨control, frames⟩)
    (hAwaits : ∀ i, (s.thread t).Awaits i → Thread.Awaits ⟨control, frames⟩ i) :
    Inv lt input ((s.fulfil id sorted).setThread t control frames) := by
  have hChunks : chunksOf (s.thread t).frames = id :: chunksOf frames := by
    rw [hThread, chunksOf_cons hFrame]
  obtain ⟨hid, hUnset, hStarted⟩ := h.running t id (hChunks ▸ List.mem_cons_self)
  have hNodup := h.distinct t
  rw [hChunks, List.nodup_cons] at hNodup
  have hLive : t ≤ s.started := h.le_started (by rw [hThread]; simp)
  have hThread' : ((s.fulfil id sorted).setThread t control frames).thread =
    Function.update s.thread t ⟨control, frames⟩ := rfl
  have hPromise : ((s.fulfil id sorted).setThread t control frames).promise =
    Function.update s.promise id (some sorted) := rfl
  have hOther : ∀ c, c ≠ id →
      ((s.fulfil id sorted).setThread t control frames).promise c = s.promise c :=
    fun c hc => Function.update_of_ne hc _ _
  have hOpen : ∀ c, ((s.fulfil id sorted).setThread t control frames).promise c = none →
      c ≠ id ∧ s.promise c = none := by
    intro c hNone
    rcases update_cases hPromise c with ⟨rfl, hHere⟩ | ⟨hne, hSame⟩
    · rw [hHere] at hNone
      cases hNone
    · exact ⟨hne, hSame ▸ hNone⟩
  refine ⟨?_, h.born_update hLive hThread', ?_, h.stack, ?_, ?_, ?_, ?_, ?_, ?_, h.fresh⟩
  · exact threads_update hThread' (hOk.mono (Nat.le_refl _) fun _ _ => rfl)
      fun u => (h.threads u).mono (Nat.le_refl _) fun _ _ => rfl
  · intro u
    rcases update_cases hThread' u with ⟨rfl, hHere⟩ | ⟨-, hSame⟩
    · rw [hHere]
      exact hNodup.2
    · exact hSame ▸ h.distinct u
  · intro c hc
    obtain ⟨hLess, hNone, hUnstarted⟩ := h.queued c hc
    have hne : c ≠ id := by
      rintro rfl
      rw [show s.startedBy c = [t] from hStarted] at hUnstarted
      cases hUnstarted
    exact ⟨hLess, (hOther c hne).trans hNone, hUnstarted⟩
  · intro u c hc
    rcases update_cases hThread' u with ⟨rfl, hHere⟩ | ⟨hne, hSame⟩
    · rw [hHere] at hc
      obtain ⟨hLess, hNone, hBy⟩ := h.running u c (hChunks ▸ List.mem_cons_of_mem _ hc)
      have hne : c ≠ id := by
        rintro rfl
        exact hNodup.1 hc
      exact ⟨hLess, (hOther c hne).trans hNone, hBy⟩
    · rw [hSame] at hc
      obtain ⟨hLess, hNone, hBy⟩ := h.running u c hc
      have hneId : c ≠ id := by
        rintro rfl
        exact hne (List.singleton_inj.mp (hBy.symm.trans hStarted))
      exact ⟨hLess, (hOther c hneId).trans hNone, hBy⟩
  · intro c hc hNone
    obtain ⟨hne, hOld⟩ := hOpen c hNone
    refine (h.placed c hc hOld).imp_right ?_
    rintro ⟨u, hu⟩
    refine ⟨u, ?_⟩
    rcases update_cases hThread' u with ⟨rfl, hHere⟩ | ⟨-, hSame⟩
    · rw [hHere]
      rw [hChunks] at hu
      exact (List.mem_cons.mp hu).resolve_left hne
    · rwa [hSame]
  · intro c hc hNone
    exact awaited_update hThread' (hAwaits c) (h.awaited c hc (hOpen c hNone).2)
  · intro c v hv
    rcases update_cases hPromise c with ⟨rfl, hHere⟩ | ⟨-, hSame⟩
    · cases Option.some.inj (hHere.symm.trans hv)
      exact ⟨hid, hSorted, hPerm, t, hStarted⟩
    · exact h.done c v (hSame ▸ hv)
  · intro c
    have hCount : ((s.fulfil id sorted).setThread t control frames).fulfilled =
      Function.update s.fulfilled id (s.fulfilled id + 1) := rfl
    rcases update_cases hCount c with ⟨rfl, hHere⟩ | ⟨hne, hSame⟩
    · rw [hHere, h.fulfilled, hUnset, hPromise, Function.update_self]
      rfl
    · rw [hSame, hOther c hne]
      exact h.fulfilled c

/-- `try_sort_chunk`, with a chunk or without. -/
theorem Inv.trySortChunk (h : Inv lt input s) (hThread : s.thread t = ⟨control, frames⟩)
    (hLive : t ≤ s.started) {frame : Nat → Frame α} {otherwise : Control α}
    (hFrame : ∀ id, (frame id).chunk? = some id)
    (hOwes : ∀ id < s.next, Owes lt input s t (frame id :: frames) (s.data id))
    (hOtherwise : ThreadOk lt input s t ⟨otherwise, frames⟩)
    (hChunk : ∀ id, control.lower? = (frame id).lower?)
    (hNoChunk : control.lower? = otherwise.lower?) :
    Inv lt input (s.trySortChunk t frame frames otherwise) := by
  unfold State.trySortChunk
  cases hChunks : s.chunks with
  | nil =>
    refine h.setThread hLive hOtherwise (by rw [hThread]) fun i _ hAwaits => ?_
    rw [hThread] at hAwaits
    exact hAwaits.imp_left fun hTop => hNoChunk ▸ hTop
  | cons id chunks =>
    have hid := (h.queued id (hChunks ▸ List.mem_cons_self)).1
    refine h.pop hThread hLive hChunks (hFrame id) (hOwes id hid) fun i hAwaits => ?_
    rw [hThread] at hAwaits
    exact hAwaits.cons (hChunk id)

-- ---------------------------------------------------------------------------
-- Every step
-- ---------------------------------------------------------------------------

section

variable [DecidableRel lt] {divide : (p : α → Bool) → (l : List α) → Partition p l}
  {maxThreadCount : Nat}

/-- A case for each program point. -/
theorem inv_run [IsStrictOrder α lt] (h : Inv lt input s)
    (hst : run lt divide maxThreadCount s t = some s') : Inv lt input s' := by
  have hOk := h.threads t
  have hBorn : (s.thread t).control ≠ .unborn → t ≤ s.started := h.le_started
  unfold run at hst
  cases hThread : s.thread t with
  | mk control frames =>
  rw [hThread] at hOk hBorn hst
  cases control with
  | unborn => cases hst
  | sort data =>
    cases data with
    -- an empty chunk is its own result
    | nil =>
      cases hst
      refine h.setThread (hBorn (by simp)) ⟨[], hOk, Ascending.nil, List.Perm.refl _⟩
        (by rw [hThread]) fun i _ hAwaits => ?_
      rw [hThread] at hAwaits
      exact hAwaits
    -- the lower half goes to the stack of chunks
    | cons pivot rest =>
      cases hst
      exact h.push hThread (divide _ rest)
  | spawn stage pivot lower higher =>
    cases hst
    exact h.spawn (hBorn (by simp)) hThread maxThreadCount
  | wait result lower =>
    obtain ⟨hAbove, hResult, hCross, hOwes⟩ := hOk
    cases hPromise : s.promise lower with
    | none =>
      simp only [hPromise] at hst
      cases hst
      refine h.setThread (hBorn (by simp)) ⟨hAbove, hResult, hCross, hOwes⟩
        (by rw [hThread]) fun i _ hAwaits => ?_
      rw [hThread] at hAwaits
      exact hAwaits
    -- the future is ready: its list is the lower half, sorted
    | some sorted =>
      simp only [hPromise] at hst
      cases hst
      obtain ⟨-, hSorted, hPerm, -⟩ := h.done lower sorted hPromise
      refine h.setThread (hBorn (by simp)) ⟨s.data lower ++ result, hOwes, ?_, hPerm.append_right _⟩
        (by rw [hThread]) fun i hNone hAwaits => ?_
      · exact hSorted.append hResult fun a ha b hb => hCross a (hPerm.subset ha) b hb
      · rw [hThread] at hAwaits
        refine Or.inr (hAwaits.resolve_left fun hTop => ?_)
        cases Option.some.inj hTop
        exact absurd (hNone.symm.trans hPromise) (by simp)
  | help result lower =>
    cases hst
    exact h.trySortChunk hThread (hBorn (by simp)) (fun _ => rfl)
      (fun id hid => ⟨hid, List.Perm.refl _, hOk⟩) hOk (fun _ => rfl) rfl
  -- what a finished call goes back to is the frame below it
  | ret result =>
    obtain ⟨owed, hOwes, hSorted, hPerm⟩ := hOk
    cases frames with
    -- the whole list: `sort` returns and the destructor joins
    | nil =>
      cases hst
      have hJoining : ThreadOk lt input s t ⟨.joining result, []⟩ :=
        ⟨hOwes.1, rfl, hSorted, hPerm.trans hOwes.2⟩
      refine (h.setThread (hBorn (by simp)) hJoining (by rw [hThread])
        fun i _ hAwaits => ?_).congr s.threads s.appending s.race true
      rw [hThread] at hAwaits
      exact hAwaits
    | cons f frames =>
      cases f with
      | higher pivot lower =>
        cases hst
        obtain ⟨hAbove, hLower, hHigher, hBelow⟩ := hOwes
        have hNot : ∀ b ∈ result, ¬ lt b pivot := fun b hb => hHigher b (hPerm.subset hb)
        refine h.setThread (hBorn (by simp)) ⟨hAbove, hSorted.cons hNot,
          not_lt_of_pivot hLower hNot, hBelow.perm ((hPerm.cons pivot).append_left _)⟩
          (by rw [hThread]; rfl) fun i _ hAwaits => ?_
        rw [hThread] at hAwaits
        exact hAwaits.tail rfl rfl
      | helping below lower id =>
        cases hst
        obtain ⟨-, hData, hWaits⟩ := hOwes
        refine h.fulfil hThread rfl hSorted (hPerm.trans hData) hWaits fun i hAwaits => ?_
        rw [hThread] at hAwaits
        exact hAwaits.tail rfl rfl
      | working id =>
        cases hst
        obtain ⟨ht, hLast, -, hData⟩ := hOwes
        refine h.fulfil hThread rfl hSorted (hPerm.trans hData) ⟨ht, hLast⟩ fun i hAwaits => ?_
        rw [hThread] at hAwaits
        exact hAwaits.tail rfl rfl
  | idle =>
    cases hst
    refine h.setThread (hBorn (by simp)) ?_ (by rw [hThread]) fun i _ hAwaits => ?_
    · split
      · exact hOk
      · exact hOk
    · rw [hThread] at hAwaits
      refine hAwaits.imp_left fun hTop => ?_
      cases hTop
  | fetch =>
    cases hst
    exact h.trySortChunk hThread (hBorn (by simp)) (fun _ => rfl)
      (fun id hid => ⟨hOk.1, hOk.2, hid, List.Perm.refl _⟩) hOk (fun _ => rfl) rfl
  | exited => cases hst
  -- the destructor goes through `threads`, when nothing is owed any more
  | joining result =>
    simp only at hst
    split at hst
    · cases hst
      refine h.access (h.setThread (hBorn (by simp)) hOk (by rw [hThread]) fun i _ hAwaits => ?_)
      rw [hThread] at hAwaits
      exact hAwaits
    · cases hst
  | finished result => cases hst

/-- A step comes before any race. -/
theorem step_eq (hst : step lt divide maxThreadCount s t = some s') :
    s.race = false ∧ run lt divide maxThreadCount s t = some s' := by
  unfold step at hst
  split at hst
  · cases hst
  · next hRace => exact ⟨by simpa using hRace, hst⟩

/-- The invariant holds whatever the vector of the threads goes through. -/
theorem inv_reachable [IsStrictOrder α lt]
    (h : (system lt divide maxThreadCount input).Reachable s) : Inv lt input s :=
  h.invariant (I := Inv lt input) (inv_init input) fun _ _ _ _ hInv _ hst =>
    inv_run hInv (step_eq hst).2

end

-- ---------------------------------------------------------------------------
-- The end of the call
-- ---------------------------------------------------------------------------

/-- `do_sort` has returned `v` to `parallel_quick_sort`. -/
def Returned (s : State α) (v : List α) : Prop :=
  (s.thread 0).frames = [] ∧
    ((s.thread 0).control = .ret v ∨ (s.thread 0).control = .joining v ∨
      (s.thread 0).control = .finished v)

instance returnedDecidable [DecidableEq α] (s : State α) (v : List α) : Decidable (Returned s v) :=
  inferInstanceAs (Decidable (_ ∧ (_ ∨ _ ∨ _)))

/-- All that the thread can do, with an empty stack, is look again. -/
def Futile (s : State α) (th : Thread α) : Prop :=
  match th.control with
  | .unborn | .idle | .fetch | .exited => True
  | .wait _ lower | .help _ lower => s.promise lower = none
  | .sort _ | .spawn _ _ _ _ | .ret _ | .joining _ | .finished _ => False

/-- Every thread waits for the lower half of a list, or for work, and there is none. -/
def Stuck (s : State α) : Prop :=
  s.chunks = [] ∧ ∀ t, Futile s (s.thread t)

/-- What the outermost call returns is sorted and has the elements of the input. -/
theorem Inv.sorted {v : List α} (h : Inv lt input s) (hReturned : Returned s v) :
    Ascending lt v ∧ v.Perm input := by
  obtain ⟨hFrames, hControl⟩ := hReturned
  have hOk := h.threads 0
  rw [ThreadOk, hFrames] at hOk
  rcases hControl with hRet | hJoining | hFinished
  · rw [hRet] at hOk
    obtain ⟨owed, hOwes, hSorted, hPerm⟩ := hOk
    exact ⟨hSorted, hPerm.trans hOwes.2⟩
  · rw [hJoining] at hOk
    exact hOk.2.2
  · rw [hFinished] at hOk
    exact hOk.2.2

/-- A chunk is taken off the stack once, -/
theorem Inv.startedBy_le (h : Inv lt input s) (id : Nat) : (s.startedBy id).length ≤ 1 := by
  rcases Nat.lt_or_ge id s.next with hid | hid
  · cases hPromise : s.promise id with
    | none =>
      rcases h.placed id hid hPromise with hMem | ⟨t, ht⟩
      · rw [(h.queued id hMem).2.2]
        exact Nat.zero_le _
      · rw [(h.running t id ht).2.2]
        exact Nat.le_refl _
    | some v =>
      obtain ⟨-, -, -, t, hStarted⟩ := h.done id v hPromise
      rw [hStarted]
      exact Nat.le_refl _
  · rw [h.fresh id hid]
    exact Nat.zero_le _

/-- and its promise is set once. -/
theorem Inv.fulfilled_le (h : Inv lt input s) (id : Nat) : s.fulfilled id ≤ 1 := by
  rw [h.fulfilled]
  split
  · exact Nat.le_refl _
  · exact Nat.zero_le _

/-- At the end thread 0 waits for nothing, and what a worker waits for is younger than a
chunk that is not done either. -/
theorem Inv.all_done {v : List α} (h : Inv lt input s) (hReturned : Returned s v) (id : Nat)
    (hid : id < s.next) : s.promise id ≠ none := by
  induction id using Nat.strongRecOn with
  | ind id ih =>
    intro hNone
    obtain ⟨t, hAwaits⟩ := h.awaited id hid hNone
    by_cases ht : t = 0
    · obtain ⟨hFrames, hControl⟩ := hReturned
      rw [ht, Thread.Awaits, hFrames] at hAwaits
      obtain ⟨f, hf, -⟩ := hAwaits.resolve_left
        (by rcases hControl with h | h | h <;> rw [h] <;> simp [Control.lower?])
      exact List.not_mem_nil hf
    · obtain ⟨c, hc, hOlder⟩ := (h.threads t).exists_older ht hAwaits
      obtain ⟨hLess, hUnset, -⟩ := h.running t c hc
      exact ih c hOlder hLess hUnset

/-- With an empty stack and nobody able to go on, a chunk that is not done belongs to a
thread that waits for a younger one. -/
theorem Inv.exists_younger (h : Inv lt input s) (hStuck : Stuck s) {id : Nat} (hid : id < s.next)
    (hNone : s.promise id = none) : ∃ c, id < c ∧ c < s.next ∧ s.promise c = none := by
  rcases h.placed id hid hNone with hMem | ⟨t, ht⟩
  · rw [hStuck.1] at hMem
    exact absurd hMem List.not_mem_nil
  · have hOk := h.threads t
    have hFutile := hStuck.2 t
    have hEmpty : (s.thread t).frames ≠ [] := by
      intro hFrames
      rw [hFrames] at ht
      exact List.not_mem_nil ht
    unfold ThreadOk at hOk
    unfold Futile at hFutile
    split at hFutile
    case h_1 hControl | h_2 hControl | h_3 hControl | h_4 hControl =>
      rw [hControl] at hOk
      exact absurd hOk.2 hEmpty
    case h_5 result lower hControl | h_6 result lower hControl =>
      rw [hControl] at hOk
      exact ⟨lower, hOk.1.2 id ht, hOk.1.1, hFutile⟩
    all_goals exact hFutile.elim

/-- If nobody could go on, every chunk would be sorted: of those that are not, the youngest is
waited for by a thread that can go on. -/
theorem Inv.done_of_stuck (h : Inv lt input s) (hStuck : Stuck s) {id : Nat} (hid : id < s.next) :
    s.promise id ≠ none := by
  induction hk : s.next - id using Nat.strongRecOn generalizing id with
  | ind k ih =>
    intro hNone
    obtain ⟨c, hLess, hc, hUnset⟩ := h.exists_younger hStuck hid hNone
    exact ih (s.next - c) (by omega) hc rfl hUnset

/-- Thread 0 waits for something, as long as it has not returned. -/
theorem Inv.not_stuck (h : Inv lt input s) : ¬ Stuck s := by
  intro hStuck
  have hOk := h.threads 0
  have hFutile := hStuck.2 0
  unfold ThreadOk at hOk
  unfold Futile at hFutile
  split at hFutile
  case h_1 hControl | h_2 hControl | h_3 hControl | h_4 hControl =>
    rw [hControl] at hOk
    exact hOk.1 rfl
  case h_5 result lower hControl | h_6 result lower hControl =>
    rw [hControl] at hOk
    exact h.done_of_stuck hStuck hOk.1.1 hFutile
  all_goals exact hFutile

end EmbLinux.DesignConcurrentCode.QuickSort
