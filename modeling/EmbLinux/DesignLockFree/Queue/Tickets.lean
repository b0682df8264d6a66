import EmbLinux.DesignLockFree.Queue.Values
import EmbLinux.Lib.Placement

/-!
# EmbLinux — each value of the queue is in one place

A numbered value is with the `push` that brings it, in the tail node, among the items
of the queue, in the hands of one `pop`, or returned, and in exactly one of these
places. This carries the parts of the contract that are about numbers: no value is lost
or returned twice, and two running `push` calls never have the same value in nodes.
-/

namespace EmbLinux.DesignLockFree.Queue

variable {τ α : Type*} [DecidableEq τ] {s s' : State τ α} {a : Action τ α} {t : τ}
  {before after : List Nat} {q q' : Fifo (Numbered α)}

/-- Where a value is, once its `push` was called. -/
inductive Place (τ : Type*)
  | pushing (t : τ)
  | tail
  | stored
  | popping (t : τ)
  | returned

/-- The value of a running `push` that updates the counts. -/
def Cont.pushing {β : Type*} : Cont β → Option β
  | .pushRetry value _ _ => some value
  | _ => none

/-- The value of a running `push` that is in no node yet. -/
def Pc.pushing {β : Type*} : Pc β → Option β
  | .pushNew value | .pushLoad value _ | .pushIncrease value _ _ | .pushData value _ _
  | .helpNext value _ _ | .helpNew value _ _ | .setNewTail (.help value _) _ _ => some value
  | .freeLoad _ _ k | .freeCas _ _ _ k | .releaseLoad _ k | .releaseCas _ _ k | .delete _ k =>
    k.pushing
  | _ => none

/-- The value that a running `pop` returns when it has updated the counts. -/
def Cont.popping {β : Type*} : Cont β → Option β
  | .popReturn result => result
  | _ => none

/-- The value that a running `pop` took and has not returned yet. -/
def inHand (s : State τ α) : Pc (Numbered α) → Option (Numbered α)
  | .popData old => s.data old.ptr
  | .freeLoad _ _ k | .freeCas _ _ _ k | .releaseLoad _ k | .releaseCas _ _ k | .delete _ k =>
    k.popping
  | _ => none

/-- The values at each place. -/
def queues (s : State τ α) (q : Fifo (Numbered α)) : Place τ → List (Numbered α)
  | .pushing t => (s.pc t).pushing.toList
  | .tail => (s.data (s.counter .tail).ptr).toList
  | .stored => q.items
  | .popping t => (inHand s (s.pc t)).toList
  | .returned => s.returned

/-- Every value handed to `push` has exactly one place. -/
structure Tickets (s : State τ α) (q : Fifo (Numbered α))
    (place : Numbered α → Option (Place τ)) : Prop where
  placement : Placement (queues s q) place
  bound : ∀ x, place x ≠ none → x.1 < s.calls
  /-- What was popped is returned or in the hands of a `pop`, -/
  taken : ∀ x ∈ s.popped, x ∈ s.returned ∨ ∃ t, inHand s (s.pc t) = some x
  /-- and what a `push` has returned from was pushed. -/
  finished : ∀ x ∈ s.finished, x ∈ s.pushed

-- ---------------------------------------------------------------------------
-- The threads that do not move
-- ---------------------------------------------------------------------------

/-- A step moves one thread. -/
theorem pc_frame (he : Effect s t s') {u : τ} (hut : u ≠ t) : s'.pc u = s.pc u := by
  cases he with
  | close hpc =>
    rw [dropped_pc, Function.update_of_ne hut]
    rfl
  | release hpc =>
    rw [dropped_pc, Function.update_of_ne hut]
    rfl
  | delete hpc =>
    rw [resume_pc, Function.update_of_ne hut]
    rfl
  | _ => exact Function.update_of_ne hut _ _

/-- What a step does to the data: it leaves those that another `pop` will take. -/
theorem data_frame (h : Values s before q) (hInv : Inv s before after) (he : Effect s t s')
    {u : τ} (hut : u ≠ t) {old : CountedNodePtr} (hpc : s.pc u = .popData old) :
    s'.data old.ptr = s.data old.ptr := by
  have hOk := h.pcs u
  rw [hpc] at hOk
  have hRole : s.role u = ⟨some old.ptr, some (.head, old), none, none⟩ := by
    rw [State.role, hpc]
    rfl
  cases he with
  | @popData old' hpc' =>
    have hne : old.ptr ≠ old'.ptr := by
      intro hEq
      refine hut (hInv.counts.closingUnique u t .head old old' (by rw [hRole]) ?_ hEq)
      rw [State.role, hpc']
      rfl
    exact Function.update_of_ne hne ..
  | @pushData value new old' hpc' hData =>
    have hne : old.ptr ≠ old'.ptr := fun hEq => hOk (by rw [hEq]; exact hData)
    exact Function.update_of_ne hne ..
  | @alloc p pc hAllocates hZero hFree =>
    have hne : old.ptr ≠ p := by
      rintro rfl
      rw [(hInv.nodes.held u old.ptr (by rw [hRole])).1] at hFree
      cases hFree
    exact Function.update_of_ne hne ..
  | close hpc' => exact congrFun (dropped_values ..).1 old.ptr
  | release hpc' => exact congrFun (dropped_values ..).1 old.ptr
  | @delete p k hpc' => exact congrFun (resume_values (s.deleteNode p) t k).1 old.ptr
  | _ => rfl

/-- What another thread has taken stays as it is. -/
theorem hand_frame (h : Values s before q) (hInv : Inv s before after) (he : Effect s t s')
    {u : τ} (hut : u ≠ t) : inHand s' (s'.pc u) = inHand s (s.pc u) := by
  rw [pc_frame he hut]
  cases hpc : s.pc u with
  | popData old => exact data_frame h hInv he hut hpc
  | _ => rfl

/-- The threads other than `t` keep the values they have. -/
structure OthersKeep (s s' : State τ α) (t : τ) : Prop where
  pushing : ∀ u, u ≠ t → (s'.pc u).pushing = (s.pc u).pushing
  hand : ∀ u, u ≠ t → inHand s' (s'.pc u) = inHand s (s.pc u)

/-- A step moves the values of its own thread only. -/
theorem others_keep (h : Values s before q) (hInv : Inv s before after) (he : Effect s t s') :
    OthersKeep s s' t :=
  ⟨fun _ hut => by rw [pc_frame he hut], fun _ hut => hand_frame h hInv he hut⟩

namespace OthersKeep

variable (h : OthersKeep s s' t)

include h

/-- A place keeps its values, if it is one of another thread, or what is there is the same. -/
theorem queues_eq {k : Place τ}
    (hPushing : k = .pushing t → (s'.pc t).pushing = (s.pc t).pushing)
    (hTail : k = .tail → s'.data (s'.counter .tail).ptr = s.data (s.counter .tail).ptr)
    (hStored : k = .stored → q'.items = q.items)
    (hHand : k = .popping t → inHand s' (s'.pc t) = inHand s (s.pc t))
    (hReturned : k = .returned → s'.returned = s.returned) : queues s' q' k = queues s q k := by
  cases k with
  | pushing u =>
    by_cases hut : u = t
    · rw [queues, queues, hut, hPushing (by rw [hut])]
    · rw [queues, queues, h.pushing u hut]
  | tail => rw [queues, queues, hTail rfl]
  | stored => exact hStored rfl
  | popping u =>
    by_cases hut : u = t
    · rw [queues, queues, hut, hHand (by rw [hut])]
    · rw [queues, queues, h.hand u hut]
  | returned => exact hReturned rfl

omit [DecidableEq τ] in
/-- A thread without a value in its hands leaves the others theirs. -/
theorem taken {place : Numbered α → Option (Place τ)} (hTickets : Tickets s q place)
    (hNone : inHand s (s.pc t) = none) (hReturned : s'.returned = s.returned) (x : Numbered α)
    (hx : x ∈ s.popped) : x ∈ s'.returned ∨ ∃ u, inHand s' (s'.pc u) = some x := by
  rw [hReturned]
  rcases hTickets.taken x hx with hBack | ⟨u, hu⟩
  · exact Or.inl hBack
  · have hut : u ≠ t := by
      rintro rfl
      rw [hNone] at hu
      cases hu
    exact Or.inr ⟨u, (h.hand u hut).trans hu⟩

end OthersKeep

-- ---------------------------------------------------------------------------
-- Numbers are used once
-- ---------------------------------------------------------------------------

omit [DecidableEq τ] in
/-- The value that a `push` is about to put into a node is in no node. -/
theorem Tickets.not_finishing {place : Numbered α → Option (Place τ)} (h : Tickets s q place)
    (hValues : Values s before q) (hFifo : (unbounded (Numbered α)).Reachable q)
    {value : Numbered α}
    (hpc : (s.pc t).pushing = some value) (u : τ) (p : Nat) :
    (s.pc u).finishing ≠ some (value, p) := by
  intro hFinishing
  have hHere : value ∈ queues s q (.pushing t) := by
    rw [queues, hpc]
    exact List.mem_cons_self
  obtain ⟨-, hPlaced⟩ := hValues.placed hFinishing
  -- so the value is at the tail, stored, popping or returned
  have hElsewhere : ∀ k, value ∈ queues s q k → k = .pushing t :=
    fun k hk => h.placement.unique hk hHere
  rcases hPlaced with ⟨rfl, hTail⟩ | ⟨-, hPushed⟩
  · have hMem : value ∈ queues s q .tail := by
      rw [queues, hTail]
      exact List.mem_cons_self
    cases hElsewhere .tail hMem
  · rw [← hValues.pushed, Fifo.pushed_eq hFifo, hValues.popped] at hPushed
    rcases List.mem_append.mp hPushed with hPopped | hStored
    · rcases h.taken value hPopped with hReturned | ⟨v, hHand⟩
      · cases hElsewhere .returned hReturned
      · have hMem : value ∈ queues s q (.popping v) := by
          rw [queues, hHand]
          exact List.mem_cons_self
        cases hElsewhere (.popping v) hMem
    · cases hElsewhere .stored hStored

-- ---------------------------------------------------------------------------
-- Steps
-- ---------------------------------------------------------------------------

variable {place : Numbered α → Option (Place τ)}

/-- A step after which every value is where it was. -/
theorem Tickets.keep (h : Tickets s q place) (hOthers : OthersKeep s s' t)
    (hPushing : (s'.pc t).pushing = (s.pc t).pushing)
    (hHand : inHand s' (s'.pc t) = inHand s (s.pc t))
    (hTail : s'.data (s'.counter .tail).ptr = s.data (s.counter .tail).ptr)
    (hReturned : s'.returned = s.returned) (hCalls : s'.calls = s.calls)
    (hPopped : s'.popped = s.popped) (hFinished : ∀ x ∈ s'.finished, x ∈ s'.pushed) :
    Tickets s' q place := by
  have hSame : queues s' q = queues s q := funext fun k =>
    hOthers.queues_eq (fun _ => hPushing) (fun _ => hTail) (fun _ => rfl) (fun _ => hHand)
      (fun _ => hReturned)
  refine ⟨?_, ?_, ?_, hFinished⟩
  · rw [hSame]
    exact h.placement
  · rw [hCalls]
    exact h.bound
  · rw [hPopped, hReturned]
    intro x hx
    rcases h.taken x hx with hBack | ⟨u, hu⟩
    · exact Or.inl hBack
    · refine Or.inr ⟨u, ?_⟩
      by_cases hut : u = t
      · rw [hut, hHand, ← hut, hu]
      · rw [hOthers.hand u hut, hu]

omit [DecidableEq τ] in
/-- A value moves from one place to another. -/
theorem Tickets.move (h : Tickets s q place) {x : Numbered α} {k j : Place τ} (hne : k ≠ j)
    (hLeave : queues s q k = x :: queues s' q' k)
    (hEnter : (queues s' q' j).Perm (x :: queues s q j))
    (hOther : ∀ i, i ≠ k → i ≠ j → queues s' q' i = queues s q i) (hCalls : s'.calls = s.calls)
    (hTaken : ∀ x ∈ s'.popped, x ∈ s'.returned ∨ ∃ t, inHand s' (s'.pc t) = some x)
    (hFinished : ∀ x ∈ s'.finished, x ∈ s'.pushed) : ∃ place', Tickets s' q' place' := by
  classical
  refine ⟨Function.update place x (some j), ?_, ?_, hTaken, hFinished⟩
  · refine h.placement.move hne ?_ hEnter hOther
    rw [hLeave]
  · rw [hCalls]
    intro y hy
    rcases update_at place x (some j) y with ⟨rfl, -⟩ | ⟨-, hAt⟩
    · refine h.bound y ?_
      have hMem : y ∈ queues s q k := by
        rw [hLeave]
        exact List.mem_cons_self
      rw [h.placement.place_of_mem hMem]
      exact Option.some_ne_none k
    · exact h.bound y (hAt ▸ hy)

omit [DecidableEq τ] in
/-- What is taken depends on `data` only. -/
theorem inHand_data (hData : s'.data = s.data) (pc : Pc (Numbered α)) :
    inHand s' pc = inHand s pc := by
  cases pc with
  | popData old => exact congrFun hData old.ptr
  | _ => rfl

/-- The call goes on or returns: then its value is returned, or its `push` finished. -/
theorem Tickets.resume (h : Tickets s q place) {s₁ : State τ α} {k : Cont (Numbered α)}
    (hPc : s₁.pc = s.pc) (hData : s₁.data = s.data) (hCounter : s₁.counter = s.counter)
    (hReturned : s₁.returned = s.returned) (hCalls : s₁.calls = s.calls)
    (hPopped : s₁.popped = s.popped) (hFinished : s₁.finished = s.finished)
    (hPushed : s₁.pushed = s.pushed) (hPushing : (s.pc t).pushing = k.pushing)
    (hHand : inHand s (s.pc t) = k.popping)
    (hk : ∀ value, k = .pushReturn value → value ∈ s.pushed) :
    ∃ place', Tickets (s₁.resume t k) q place' := by
  obtain ⟨hDataEq, hPushedEq, hPoppedEq⟩ := resume_values s₁ t k
  have hSame := sameNodes_resume s₁ t k
  have hCallsEq : (s₁.resume t k).calls = s.calls := by
    rw [← hCalls]
    cases k <;> rfl
  have hPcEq : (s₁.resume t k).pc = Function.update s.pc t k.pc := by
    rw [resume_pc, hPc]
  have hPushing' : ∀ u, ((s₁.resume t k).pc u).pushing = (s.pc u).pushing := by
    refine observe_update Pc.pushing hPcEq ?_
    rw [hPushing]
    cases k <;> rfl
  have hTail : (s₁.resume t k).data ((s₁.resume t k).counter .tail).ptr =
      s.data (s.counter .tail).ptr := by
    rw [hDataEq, hData, hSame.counter, hCounter]
  have hDataAll : (s₁.resume t k).data = s.data := hDataEq.trans hData
  have hOthers : OthersKeep s (s₁.resume t k) t := by
    refine ⟨fun u _ => hPushing' u, fun u hut => ?_⟩
    rw [hPcEq, Function.update_of_ne hut, inHand_data hDataAll]
  have hNoHand : inHand (s₁.resume t k) ((s₁.resume t k).pc t) = none := by
    rw [hPcEq, Function.update_self]
    cases k <;> rfl
  have hFinished' : ∀ x ∈ (s₁.resume t k).finished, x ∈ (s₁.resume t k).pushed := by
    rw [hPushedEq, hPushed]
    cases k with
    | pushReturn value =>
      show ∀ x ∈ s₁.finished ++ [value], x ∈ s.pushed
      rw [hFinished]
      intro x hx
      rcases List.mem_append.mp hx with hx | hx
      · exact h.finished x hx
      · rw [List.mem_singleton.mp hx]
        exact hk value rfl
    | _ =>
      show ∀ x ∈ s₁.finished, x ∈ s.pushed
      rw [hFinished]
      exact h.finished
  have hStay : k.popping = none → (s₁.resume t k).returned = s₁.returned →
      ∃ place', Tickets (s₁.resume t k) q place' := by
    intro hNone hReturnedEq
    refine ⟨place, h.keep hOthers (hPushing' t) ?_ hTail (hReturnedEq.trans hReturned) hCallsEq
      (hPoppedEq.trans hPopped) hFinished'⟩
    rw [hNoHand, hHand, hNone]
  cases k with
  | popReturn result =>
    cases result with
    | none => exact hStay rfl (List.append_nil _)
    | some x =>
      have hReturnedEq : (s₁.resume t (.popReturn (some x))).returned = s.returned ++ [x] := by
        show s₁.returned ++ [x] = s.returned ++ [x]
        rw [hReturned]
      refine h.move (x := x) (k := .popping t) (j := .returned) (fun hEq => by cases hEq) ?_ ?_ ?_
        hCallsEq ?_ hFinished'
      · rw [queues, queues, hHand, hNoHand]
        rfl
      · rw [queues, hReturnedEq]
        exact List.perm_append_singleton x s.returned
      · exact fun j hj hj' => hOthers.queues_eq (fun _ => hPushing' t) (fun _ => hTail)
          (fun _ => rfl) (fun hEq => absurd hEq hj) (fun hEq => absurd hEq hj')
      · rw [hPoppedEq, hPopped, hReturnedEq]
        intro y hy
        rcases h.taken y hy with hy | ⟨u, hu⟩
        · exact Or.inl (List.mem_append_left _ hy)
        · by_cases hut : u = t
          · rw [hut, hHand] at hu
            cases hu
            exact Or.inl (List.mem_append_right _ List.mem_cons_self)
          · exact Or.inr ⟨u, (hOthers.hand u hut).trans hu⟩
  | _ => exact hStay rfl rfl

/-- A dropped reference may end the call: the value goes from the thread's hand to its caller.
-/
theorem Tickets.dropped (h : Tickets s q place) {s₁ : State τ α} {p : Nat} {new : NodeCounter}
    {k : Cont (Numbered α)} (hPc : s₁.pc = s.pc) (hData : s₁.data = s.data)
    (hCounter : s₁.counter = s.counter) (hReturned : s₁.returned = s.returned)
    (hCalls : s₁.calls = s.calls) (hPopped : s₁.popped = s.popped)
    (hFinished : s₁.finished = s.finished) (hPushed : s₁.pushed = s.pushed)
    (hPushing : (s.pc t).pushing = k.pushing) (hHand : inHand s (s.pc t) = k.popping)
    (hk : ∀ value, k = .pushReturn value → value ∈ s.pushed) :
    ∃ place', Tickets (s₁.dropped t p new k) q place' := by
  unfold State.dropped
  split
  · have hPcEq : (s₁.setPc t (.delete p k)).pc = Function.update s.pc t (.delete p k) := by
      rw [← hPc]
      rfl
    have hPushing' := observe_update Pc.pushing hPcEq hPushing.symm
    have hHand' : ∀ u, inHand (s₁.setPc t (.delete p k)) ((s₁.setPc t (.delete p k)).pc u) =
        inHand s (s.pc u) :=
      fun u => (inHand_data hData _).trans (observe_update (inHand s) hPcEq hHand.symm u)
    refine ⟨place, h.keep (t := t) ⟨fun u _ => hPushing' u, fun u _ => hHand' u⟩ (hPushing' t)
      (hHand' t) ?_ hReturned hCalls hPopped ?_⟩
    · show s₁.data (s₁.counter .tail).ptr = _
      rw [hData, hCounter]
    · show ∀ x ∈ s₁.finished, x ∈ s₁.pushed
      rw [hFinished, hPushed]
      exact h.finished
  · exact h.resume hPc hData hCounter hReturned hCalls hPopped hFinished hPushed hPushing hHand hk

section

omit [DecidableEq τ]

/-- A quiet step moves no value, -/
theorem Quiet.places {pc pc' : Pc (Numbered α)} (h : Quiet s pc pc') :
    pc'.pushing = pc.pushing ∧ inHand s pc' = inHand s pc := by
  cases h with
  | again h => cases h <;> exact ⟨rfl, rfl⟩
  | @tailSame pusher old new hEq => cases pusher <;> exact ⟨rfl, rfl⟩
  | @tailMoved pusher old new hNe => cases pusher <;> exact ⟨rfl, rfl⟩
  | freeCounter hpc =>
    rcases hpc with rfl | ⟨counter, rfl⟩ <;> exact ⟨rfl, rfl⟩
  | releaseCounter hpc =>
    rcases hpc with rfl | ⟨counter, rfl⟩ <;> exact ⟨rfl, rfl⟩
  | _ => exact ⟨rfl, rfl⟩

/-- nor does one on a counter, -/
theorem Increases.places {side : Side} {old : CountedNodePtr} {pc : Pc (Numbered α)}
    {again after : CountedNodePtr → Pc (Numbered α)} (h : Increases side old pc again after)
    (c : CountedNodePtr) : (after c).pushing = pc.pushing ∧ inHand s (after c) = inHand s pc := by
  cases h <;> exact ⟨rfl, rfl⟩

/-- nor the one that links a node, -/
theorem Links.places {old new : CountedNodePtr} {pc pc' : Pc (Numbered α)}
    (h : Links old new pc pc') : pc'.pushing = pc.pushing ∧ inHand s pc' = inHand s pc := by
  cases h <;> exact ⟨rfl, rfl⟩

/-- nor `new`. -/
theorem Allocates.places {p : Nat} {pc pc' : Pc (Numbered α)} (h : Allocates p pc pc')
    (s s' : State τ α) :
    pc'.pushing = pc.pushing ∧ inHand s' pc' = none ∧ inHand s pc = none := by
  cases h <;> exact ⟨rfl, rfl, rfl⟩

end

/-- A `push` is called: its value gets a new number. -/
theorem Tickets.callPush (h : Tickets s q place) (hOthers : OthersKeep s s' t)
    {last : Option (Ret (Numbered α))} {value : α} (hpc : s.pc t = .idle last)
    (hpc' : s'.pc t = .pushNew (s.calls, value)) (hData : s'.data = s.data)
    (hCounter : s'.counter = s.counter) (hReturned : s'.returned = s.returned)
    (hCalls : s'.calls = s.calls + 1) (hPopped : s'.popped = s.popped)
    (hFinished : s'.finished = s.finished) (hPushed : s'.pushed = s.pushed) :
    ∃ place', Tickets s' q place' := by
  classical
  have hNew : place (s.calls, value) = none := by
    by_contra hPlace
    exact absurd (h.bound _ hPlace) (Nat.lt_irrefl _)
  refine ⟨Function.update place (s.calls, value) (some (.pushing t)), ?_, ?_, ?_, ?_⟩
  · refine h.placement.add hNew ?_ fun j hj => ?_
    · rw [queues, queues, hpc, hpc']
      exact List.Perm.refl _
    · exact hOthers.queues_eq (fun hEq => absurd hEq hj) (fun _ => by rw [hData, hCounter])
        (fun _ => rfl) (fun _ => by rw [hpc, hpc']; rfl) (fun _ => hReturned)
  · rw [hCalls]
    intro y hy
    rcases update_at place (s.calls, value) (some (.pushing t)) y with ⟨rfl, -⟩ | ⟨-, hAt⟩
    · exact Nat.lt_succ_self _
    · exact Nat.lt_succ_of_lt (h.bound y (hAt ▸ hy))
  · rw [hPopped]
    exact hOthers.taken h (by rw [hpc]; rfl) hReturned
  · rw [hFinished, hPushed]
    exact h.finished

/-- A `pop` takes the first item. -/
theorem Tickets.popCas (h : Tickets s q place) (hOthers : OthersKeep s s' t)
    {c next : CountedNodePtr} {x : Numbered α} {items : List (Numbered α)}
    (hpc : s.pc t = .popCas c next) (hpc' : s'.pc t = .popData c) (hItems : q.items = x :: items)
    (hx : s.data c.ptr = some x) (hData : s'.data = s.data)
    (hTail : s'.counter .tail = s.counter .tail) (hReturned : s'.returned = s.returned)
    (hCalls : s'.calls = s.calls) (hPopped : s'.popped = s.popped ++ (s.data c.ptr).toList)
    (hFinished : s'.finished = s.finished) (hPushed : s'.pushed = s.pushed) :
    ∃ place', Tickets s' { q with items := items, popped := q.popped ++ [x] } place' := by
  have hHand : inHand s' (s'.pc t) = some x := by
    rw [hpc', inHand, hData, hx]
  refine h.move (x := x) (k := .stored) (j := .popping t) (fun hEq => by cases hEq) hItems ?_ ?_
    hCalls ?_ (by rw [hFinished, hPushed]; exact h.finished)
  · rw [queues, queues, hHand, hpc]
    exact List.Perm.refl _
  · exact fun j hj hj' => hOthers.queues_eq (fun _ => by rw [hpc, hpc']; rfl)
      (fun _ => by rw [hData, hTail]) (fun hEq => absurd hEq hj) (fun hEq => absurd hEq hj')
      (fun _ => hReturned)
  · rw [hPopped, hx]
    intro y hy
    rcases List.mem_append.mp hy with hy | hy
    · exact hOthers.taken h (by rw [hpc]; rfl) hReturned y hy
    · obtain rfl := List.mem_singleton.mp hy
      exact Or.inr ⟨t, hHand⟩

/-- A `push` puts its value into the tail node. -/
theorem Tickets.pushData (h : Tickets s q place) (hOthers : OthersKeep s s' t)
    {value : Numbered α} {new old : CountedNodePtr} (hpc : s.pc t = .pushData value new old)
    (hpc' : s'.pc t = .pushNext value new old) (hTail : old.ptr = (s.counter .tail).ptr)
    (hNone : s.data old.ptr = none) (hData : s'.data = Function.update s.data old.ptr (some value))
    (hCounter : s'.counter = s.counter) (hReturned : s'.returned = s.returned)
    (hCalls : s'.calls = s.calls) (hPopped : s'.popped = s.popped)
    (hFinished : s'.finished = s.finished) (hPushed : s'.pushed = s.pushed) :
    ∃ place', Tickets s' q place' := by
  refine h.move (x := value) (k := .pushing t) (j := .tail) (fun hEq => by cases hEq) ?_ ?_ ?_
    hCalls ?_ (by rw [hFinished, hPushed]; exact h.finished)
  · rw [queues, queues, hpc, hpc']
    rfl
  · rw [queues, queues, hCounter, ← hTail, hData, Function.update_self, hNone]
    exact List.Perm.refl _
  · exact fun j hj hj' => hOthers.queues_eq (fun hEq => absurd hEq hj) (fun hEq => absurd hEq hj')
      (fun _ => rfl) (fun _ => by rw [hpc, hpc']; rfl) (fun _ => hReturned)
  · rw [hPopped]
    exact hOthers.taken h (by rw [hpc]; rfl) hReturned

/-- `tail` moves: the value in its node becomes the last item. -/
theorem Tickets.moveTail (h : Tickets s q place) (hOthers : OthersKeep s s' t)
    {pusher : Pusher (Numbered α)} {c old new : CountedNodePtr} {x : Numbered α}
    (hpc : s.pc t = .setNewTail pusher old new)
    (hpc' : s'.pc t = .freeLoad .tail old (pusher.cont c))
    (hx : s.data (s.counter .tail).ptr = some x)
    (hNone : s'.data (s'.counter .tail).ptr = none) (hReturned : s'.returned = s.returned)
    (hCalls : s'.calls = s.calls) (hPopped : s'.popped = s.popped)
    (hFinished : s'.finished = s.finished) (hPushed : ∀ x ∈ s.pushed, x ∈ s'.pushed) :
    ∃ place', Tickets s' { q with items := q.items ++ [x], pushed := q.pushed ++ [x] } place' := by
  refine h.move (x := x) (k := .tail) (j := .stored) (fun hEq => by cases hEq) ?_ ?_ ?_
    hCalls ?_ ?_
  · rw [queues, queues, hx, hNone]
    rfl
  · exact List.perm_append_singleton x q.items
  · exact fun j hj hj' => hOthers.queues_eq (fun _ => by rw [hpc, hpc']; cases pusher <;> rfl)
      (fun hEq => absurd hEq hj) (fun hEq => absurd hEq hj')
      (fun _ => by rw [hpc, hpc']; cases pusher <;> rfl) (fun _ => hReturned)
  · rw [hPopped]
    exact hOthers.taken h (by rw [hpc]; rfl) hReturned
  · rw [hFinished]
    exact fun y hy => hPushed y (h.finished y hy)

/-- The step lemma of the numbers. -/
theorem tickets_effect (h : Tickets s q place) (hValues : Values s before q)
    (hInv : Inv s before after) (he : Effect s t s')
    (hFresh : ∀ value new old, s.pc t = .pushData value new old → s.data old.ptr = none →
      s.passed old.ptr .head = false)
    (hExec : (unbounded (Numbered α)).exec q (fifoOps s (s.pc t) (s'.pc t)) = some q') :
    ∃ place', Tickets s' q' place' := by
  have hOk := hValues.pcs t
  have hHere : ∀ pc : Pc (Numbered α), Function.update s.pc t pc t = pc :=
    fun pc => Function.update_self ..
  have hOthers := others_keep hValues hInv he
  -- the accesses after which the value of the thread is where it was
  have hStay : fifoOps s (s.pc t) (s'.pc t) = [] → (s'.pc t).pushing = (s.pc t).pushing →
      inHand s' (s'.pc t) = inHand s (s.pc t) →
      s'.data (s'.counter .tail).ptr = s.data (s.counter .tail).ptr →
      s'.returned = s.returned → s'.calls = s.calls → s'.popped = s.popped →
      s'.finished = s.finished → s'.pushed = s.pushed → ∃ place', Tickets s' q' place' := by
    intro hOps hPushing hHand hTail hReturned hCalls hPopped hFinished hPushed
    rw [hOps] at hExec
    cases Option.some.inj hExec
    refine ⟨place, h.keep hOthers hPushing hHand hTail hReturned hCalls hPopped ?_⟩
    rw [hFinished, hPushed]
    exact h.finished
  cases he with
  | @quiet pc hQuiet =>
    have hPc : (s.setPc t pc).pc t = pc := hHere pc
    refine hStay ?_ ?_ ?_ rfl rfl rfl rfl rfl rfl
    · rw [hPc, hQuiet.fifoOps]
    · rw [hPc, hQuiet.places.1]
    · rw [hPc]
      exact (inHand_data rfl pc).trans hQuiet.places.2
  | callPush hpc =>
    rw [hpc] at hExec
    obtain rfl : q = q' := Option.some.inj hExec
    exact h.callPush hOthers hpc (hHere _) rfl rfl rfl rfl rfl rfl rfl
  | @increase side again aft hInc =>
    obtain ⟨hPushing, hHand⟩ := hInc.places (s := s)
      ⟨(s.counter side).externalCount + 1, (s.counter side).ptr⟩
    refine hStay ?_ ?_ ?_ ?_ rfl rfl rfl rfl rfl
    · show fifoOps s _ (Function.update s.pc t _ t) = []
      rw [hHere]
      exact hInc.values.2.2
    · show Pc.pushing (Function.update s.pc t _ t) = _
      rw [hHere, hPushing]
    · show inHand _ (Function.update s.pc t _ t) = _
      rw [hHere]
      exact (inHand_data rfl _).trans hHand
    · show s.data (Function.update s.counter side _ .tail).ptr = _
      rcases update_at s.counter side
        ⟨(s.counter side).externalCount + 1, (s.counter side).ptr⟩ .tail with
          ⟨rfl, hAt⟩ | ⟨-, hAt⟩ <;> rw [hAt]
  | @popCas next hpc =>
    obtain ⟨x, items, hItems, hx, -⟩ := hValues.moveHead hInv hpc
    obtain rfl := exec_popCas hExec hpc (hHere _) hItems
    have hTailSame : Function.update s.counter .head next .tail = s.counter .tail :=
      Function.update_of_ne (by decide) ..
    exact h.popCas hOthers hpc (hHere _) hItems hx rfl hTailSame rfl rfl rfl rfl rfl
  | @popData old hpc =>
    have hClosing : (s.role t).closing = some (.head, old) := by
      rw [State.role, hpc]
      rfl
    have hNotTail : (s.counter .tail).ptr ≠ old.ptr := by
      intro hEq
      obtain ⟨-, -, hPassHead⟩ := hInv.counts.closing t .head old hClosing
      rw [← hEq, (hInv.nodes.onChain _ (tail_mem_chain s before after)).2.2] at hPassHead
      cases hPassHead
    refine hStay ?_ ?_ ?_ ?_ rfl rfl rfl rfl rfl
    · show fifoOps s _ (Function.update s.pc t _ t) = []
      rw [hHere, hpc]
      rfl
    · show Pc.pushing (Function.update s.pc t _ t) = _
      rw [hHere, hpc]
      rfl
    · show inHand _ (Function.update s.pc t _ t) = _
      rw [hHere, hpc]
      rfl
    · exact Function.update_of_ne hNotTail ..
  | @pushData value new old hpc hData =>
    rw [hpc] at hExec
    replace hExec : (unbounded (Numbered α)).exec q
      (fifoOps s _ (Function.update s.pc t (.pushNext value new old) t)) = some q' := hExec
    rw [hHere] at hExec
    cases Option.some.inj hExec
    have hTail : old.ptr = (s.counter .tail).ptr := by
      refine hValues.at_tail (t := t) hInv.nodes ?_ hData (hFresh value new old hpc hData)
      rw [State.role, hpc]
      rfl
    exact h.pushData hOthers hpc (hHere _) hTail hData rfl rfl rfl rfl rfl rfl rfl
  | @alloc p pc hAllocates hZero hFree =>
    have hPc : ((s.newNode t p).setPc t pc).pc t = pc := hHere pc
    have hPlaces := hAllocates.places s ((s.newNode t p).setPc t pc)
    have hTail : (s.counter .tail).ptr ≠ p := by
      rintro rfl
      rw [(hInv.nodes.onChain _ (tail_mem_chain s before after)).1] at hFree
      cases hFree
    refine hStay ?_ ?_ ?_ ?_ rfl rfl rfl rfl rfl
    · rw [hPc, (hAllocates.values hOk).2.2.2]
    · rw [hPc, hPlaces.1]
    · rw [hPc, hPlaces.2.1, hPlaces.2.2]
    · exact Function.update_of_ne hTail ..
  | @link old new pc hLinks hNext =>
    have hPc : ((s.link old.ptr new).setPc t pc).pc t = pc := hHere pc
    refine hStay ?_ ?_ ?_ rfl rfl rfl rfl rfl rfl
    · rw [hPc, (hLinks.values hOk).2.2]
    · rw [hPc, (hLinks.places (s := s)).1]
    · rw [hPc]
      exact (inHand_data rfl pc).trans hLinks.places.2
  | @discard value new old next hpc =>
    have hPc : ((s.deleteNode new.ptr).setPc t (.setNewTail (.finish value) old next)).pc t =
      .setNewTail (.finish value) old next := hHere _
    refine hStay ?_ ?_ ?_ rfl rfl rfl rfl rfl rfl <;> rw [hPc, hpc] <;> rfl
  | @moveTail pusher new hpc =>
    obtain ⟨x, hx, hNewNone, -⟩ := hValues.moveTail hInv hpc
    obtain rfl := exec_moveTail hExec hpc (hHere _) hx
    have hNewTail : Function.update s.counter .tail new .tail = new := Function.update_self ..
    have hTailNone : s.data (Function.update s.counter .tail new .tail).ptr = none := by
      rw [hNewTail, hNewNone]
    exact h.moveTail hOthers hpc (hHere _) hx hTailNone rfl rfl rfl rfl
      fun y => List.mem_append_left _
  | close hpc =>
    rw [hpc] at hExec hOk
    cases Option.some.inj hExec
    exact h.dropped rfl rfl rfl rfl rfl rfl rfl rfl (by rw [hpc]; rfl) (by rw [hpc]; rfl) hOk
  | release hpc =>
    rw [hpc] at hExec hOk
    cases Option.some.inj hExec
    exact h.dropped rfl rfl rfl rfl rfl rfl rfl rfl (by rw [hpc]; rfl) (by rw [hpc]; rfl) hOk
  | delete hpc =>
    rw [hpc] at hExec hOk
    cases Option.some.inj hExec
    exact h.resume rfl rfl rfl rfl rfl rfl rfl rfl (by rw [hpc]; rfl) (by rw [hpc]; rfl) hOk

end EmbLinux.DesignLockFree.Queue
