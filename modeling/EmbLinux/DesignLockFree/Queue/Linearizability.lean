import EmbLinux.DesignLockFree.Queue.Tickets
import EmbLinux.Lib.Linearizable

/-!
# EmbLinux — `lock_free_queue` as a queue

`Refines` puts the nodes, the values and the numbers together: a state of the queue
stands for an abstract one. A `push` has its effect when a thread, itself or a helper,
moves `tail` past the node with its value, a `pop` when it moves `head`, or when it
finds `head` and `tail` at one node.

`queue_linearizable` and `queue_contract` are for the runs in which no `push` puts its
value into a node that `head` has passed. `queue_loses_value` is a run with such a
`push`: it is stalled between its reference to the tail node and its exchange of the
data, until the node has been filled by another `push` and emptied by a `pop`.

## Results

* `refines_effect` — the step lemma for the values; `run_moves` is the one for the callers.
* `Refines.kept` — no value is lost or there twice.
* `queue_linearizable` — for every run that meets `FreshData`.
* `stale_value` — a step that does not meet it puts a value where no `pop` will find it.
-/

namespace EmbLinux.DesignLockFree.Queue

variable {τ α : Type*} [DecidableEq τ] {s s' : State τ α} {a : Action τ α} {t : τ}
  {before after : List Nat} {q q' : Fifo (Numbered α)}

-- ---------------------------------------------------------------------------
-- The abstract queue that a state stands for
-- ---------------------------------------------------------------------------

/-- The state is one of the abstract queue `q`. -/
def Refines (s : State τ α) (q : Fifo (Numbered α)) : Prop :=
  (unbounded (Numbered α)).Reachable q ∧
    ∃ before after place, Inv s before after ∧ Values s before q ∧ Tickets s q place

section

omit [DecidableEq τ]

/-- The first node has no value, -/
theorem values_init : Values (init τ α) [] ⟨[], [], []⟩ := by
  refine ⟨rfl, rfl, rfl, fun _ _ _ _ => rfl, fun _ => trivial, ?_, ?_⟩
  · intro value hValue
    cases hValue
  · intro t u value p p' hFinishing
    cases hFinishing

/-- and no value has a place. -/
theorem tickets_init : Tickets (init τ α) ⟨[], [], []⟩ fun _ => none := by
  refine ⟨?_, fun x hx => absurd rfl hx, ?_, ?_⟩
  · refine Placement.empty.congr ?_
    intro k
    cases k <;> exact List.Perm.refl _
  · intro x hx
    cases hx
  · intro x hx
    cases hx

/-- A new queue is the empty one. -/
theorem refines_init : Refines (init τ α) ⟨[], [], []⟩ :=
  ⟨.init, [], [], fun _ => none, inv_init, values_init, tickets_init⟩

end

/-- One step of the code is at most one operation of the abstract queue. -/
theorem refines_effect (h : Refines s q) (he : Effect s t s')
    (hFresh : ∀ value new old, s.pc t = .pushData value new old → s.data old.ptr = none →
      s.passed old.ptr .head = false) :
    ∃ q', (unbounded (Numbered α)).exec q (fifoOps s (s.pc t) (s'.pc t)) = some q' ∧
      Refines s' q' := by
  obtain ⟨hq, before, after, place, hInv, hValues, hTickets⟩ := h
  obtain ⟨after', hInv'⟩ := inv_effect hInv he
  obtain ⟨q', hExec, hValues'⟩ := values_effect hValues hInv he hFresh
    fun value new old hpc => hTickets.not_finishing hValues hq (by rw [hpc]; rfl)
  obtain ⟨place', hTickets'⟩ := tickets_effect hTickets hValues hInv he hFresh hExec
  exact ⟨q', hExec, hq.exec hExec, _, after', place', hInv', hValues', hTickets'⟩

/-- The condition on the step, read at the exchange of `data`. -/
theorem fresh_of_step (hst : step s a = some s') (hFresh : FreshData s a) (value : Numbered α)
    (new old : CountedNodePtr) (hpc : s.pc a.thread = .pushData value new old)
    (hData : s.data old.ptr = none) : s.passed old.ptr .head = false := by
  cases a with
  | run t spurious fresh => exact hFresh value new old hpc hData
  | callPop t => simp [step, show s.pc t = .pushData value new old from hpc] at hst
  | callPush t x => simp [step, show s.pc t = .pushData value new old from hpc] at hst

/-- In every run that meets it. -/
theorem refines_reachable (h : (system τ α).ReachableWhere FreshData s) : ∃ q, Refines s q := by
  refine h.invariant (I := fun s => ∃ q, Refines s q) ⟨_, refines_init⟩ ?_
  rintro s a s' - ⟨q, hq⟩ hFresh hst
  obtain ⟨q', -, hq'⟩ := refines_effect hq (step_effect hst) (fresh_of_step hst hFresh)
  exact ⟨q', hq'⟩

-- ---------------------------------------------------------------------------
-- The calls
-- ---------------------------------------------------------------------------

/-- A queue without a bound: `pop` returns null exactly when it is empty. -/
def fifoQueue (α : Type*) : Object (Call α) (Ret α) (List α) where
  init := []
  apply
    | items, .push value => (items ++ [value], .pushed)
    | [], .pop => ([], .popped none)
    | value :: rest, .pop => (rest, .popped (some value))

/-- Return values without the numbers that history adds. -/
def Ret.plain : Ret (Numbered α) → Ret α
  | .popped result => .popped (result.map Prod.snd)
  | .pushed => .pushed

/-- The call that begins with an action. -/
def calls : Action τ α → Option (τ × Call α)
  | .callPop t => some (t, .pop)
  | .callPush t value => some (t, .push value)
  | .run _ _ _ => none

/-- The return value with which a step ends a call. -/
def rets (_ : State τ α) : Action τ α → State τ α → Option (τ × Ret α)
  | .run t _ _, s' =>
    match s'.pc t with
    | .idle (some ret) => some (t, ret.plain)
    | _ => none
  | _, _ => none

/-- How far the call is that goes on after the counts: a result that is there will be returned.
-/
def Cont.stage : Cont (Numbered α) → Stage (Call α) (Ret α)
  | .popReturn result => .done (.popped (result.map Prod.snd))
  | .popRetry _ => .pending .pop
  | .pushReturn _ => .done .pushed
  | .pushRetry value _ _ => .pending (.push value.2)

/-- The value of a `push` is in the node `p`. -/
def finishStage (s : State τ α) (value : Numbered α) (p : Nat) : Stage (Call α) (Ret α) :=
  if p = (s.counter .tail).ptr then .pending (.push value.2) else .done .pushed

/-- How far the call of a thread at `pc` is. -/
def stageAt (s : State τ α) : Pc (Numbered α) → Stage (Call α) (Ret α)
  | .idle _ => .idle
  | .popLoad | .popIncrease _ | .popTail _ | .popNext _ | .popCas _ _ => .pending .pop
  | .popData old => .done (.popped ((s.data old.ptr).map Prod.snd))
  | .pushNew value | .pushLoad value _ | .pushIncrease value _ _ | .pushData value _ _
  | .helpNext value _ _ | .helpNew value _ _ | .setNewTail (.help value _) _ _ =>
    .pending (.push value.2)
  | .pushNext value _ old | .pushDelete value _ old _ | .setNewTail (.finish value) old _ =>
    finishStage s value old.ptr
  | .freeLoad _ _ k | .freeCas _ _ _ k | .releaseLoad _ k | .releaseCas _ _ k | .delete _ k =>
    k.stage

/-- How far the call of each thread is. -/
def stage (s : State τ α) (t : τ) : Stage (Call α) (Ret α) :=
  stageAt s (s.pc t)

-- ---------------------------------------------------------------------------
-- The threads that do not move
-- ---------------------------------------------------------------------------

omit [DecidableEq τ] in
/-- A `push` whose value is stored is done when the tail has moved past it. -/
theorem stageAt_finishing {pc : Pc (Numbered α)} {value : Numbered α} {p : Nat}
    (h : pc.finishing = some (value, p)) : stageAt s pc = finishStage s value p := by
  cases pc with
  | setNewTail pusher old new =>
    cases pusher with
    | finish value' =>
      cases h
      rfl
    | help value' newNext => cases h
  | pushNext value' new old =>
    cases h
    rfl
  | pushDelete value' new old next =>
    cases h
    rfl
  | _ => cases h

omit [DecidableEq τ] in
/-- It depends on the value of a popped node and on the tail only. -/
theorem stageAt_congr {pc : Pc (Numbered α)}
    (hData : ∀ old, pc = .popData old → s'.data old.ptr = s.data old.ptr)
    (hFinish : ∀ value p, pc.finishing = some (value, p) →
      finishStage s' value p = finishStage s value p) : stageAt s' pc = stageAt s pc := by
  cases pc with
  | popData old => rw [stageAt, stageAt, hData old rfl]
  | pushNext value new old => exact hFinish value old.ptr rfl
  | pushDelete value new old next => exact hFinish value old.ptr rfl
  | setNewTail pusher old new =>
    cases pusher with
    | finish value => exact hFinish value old.ptr rfl
    | help value newNext => rfl
  | _ => rfl

/-- A step that does not move `tail` changes the stage of its own thread only. -/
theorem stage_frame (hValues : Values s before q) (hInv : Inv s before after)
    (he : Effect s t s') (hTail : (s'.counter .tail).ptr = (s.counter .tail).ptr) {u : τ}
    (hut : u ≠ t) : stage s' u = stage s u := by
  rw [stage, pc_frame he hut, stage]
  refine stageAt_congr (fun old hpc => data_frame hValues hInv he hut hpc) ?_
  intro value p _
  rw [finishStage, finishStage, hTail]

/-- The stages after a step that changes one of them, -/
theorem stage_update {x : Stage (Call α) (Ret α)} (hOther : ∀ u, u ≠ t → stage s' u = stage s u)
    (hOwn : stage s' t = x) : stage s' = Function.update (stage s) t x := by
  funext u
  rcases update_at (stage s) t x u with ⟨rfl, hAt⟩ | ⟨hut, hAt⟩ <;> rw [hAt]
  · exact hOwn
  · exact hOther u hut

/-- and after one that changes none. -/
theorem stage_same (hOther : ∀ u, u ≠ t → stage s' u = stage s u)
    (hOwn : stage s' t = stage s t) : stage s' = stage s := by
  rw [stage_update hOther hOwn, Function.update_eq_self]

-- ---------------------------------------------------------------------------
-- Answers
-- ---------------------------------------------------------------------------

/-- A thread between two calls takes no step of one. -/
theorem run_not_idle {spurious : Bool} {fresh : Nat} (hst : run s t spurious fresh = some s')
    {last : Option (Ret (Numbered α))} : s.pc t ≠ .idle last := by
  intro hpc
  simp [run, hpc] at hst

omit [DecidableEq τ] in
/-- A step to the end of a call is its answer, -/
theorem rets_of_idle {spurious : Bool} {fresh : Nat} {ret : Ret (Numbered α)}
    (h : s'.pc t = .idle (some ret)) :
    rets s (.run t spurious fresh) s' = some (t, ret.plain) := by
  simp only [rets, h]

omit [DecidableEq τ] in
/-- and every other one answers nothing. -/
theorem rets_of_busy {spurious : Bool} {fresh : Nat} {pc : Pc (Numbered α)} (h : s'.pc t = pc)
    (hBusy : ∀ last, pc ≠ .idle last) : rets s (.run t spurious fresh) s' = none := by
  simp only [rets, h]
  split
  · next ret => exact absurd rfl (hBusy (some ret))
  · rfl

/-- A call that dropped its node: it goes on, or returns the answer that it has. -/
theorem cont_moves {spurious : Bool} {fresh : Nat} {items : List α} {k : Cont (Numbered α)}
    (hStage : stage s t = k.stage) (hPc : s'.pc t = k.pc)
    (hOther : ∀ u, u ≠ t → stage s' u = stage s u) :
    Moves (fifoQueue α) (stage s) items none (rets s (.run t spurious fresh) s')
      (stage s') items := by
  have hOwn : stage s' t = stageAt s' k.pc := by
    rw [stage, hPc]
  cases k with
  | popReturn result =>
    rw [rets_of_idle hPc, stage_update hOther hOwn]
    exact .ret hStage
  | pushReturn value =>
    rw [rets_of_idle hPc, stage_update hOther hOwn]
    exact .ret hStage
  | popRetry old =>
    rw [rets_of_busy hPc (fun _ hEq => by cases hEq), stage_same hOther (hOwn.trans hStage.symm)]
    exact .stay
  | pushRetry value new old =>
    rw [rets_of_busy hPc (fun _ hEq => by cases hEq), stage_same hOther (hOwn.trans hStage.symm)]
    exact .stay

/-- A step of the counts may end the call, with the result it had. -/
theorem dropped_moves {spurious : Bool} {fresh : Nat} {items : List α} {p : Nat}
    {new : NodeCounter} {k : Cont (Numbered α)} (hStage : stage s t = k.stage)
    (hPc : s'.pc t = droppedPc p new k) (hOther : ∀ u, u ≠ t → stage s' u = stage s u) :
    Moves (fifoQueue α) (stage s) items none (rets s (.run t spurious fresh) s')
      (stage s') items := by
  unfold droppedPc at hPc
  split at hPc
  · have hOwn : stage s' t = stage s t := by
      rw [stage, hPc, hStage]
      rfl
    rw [rets_of_busy hPc (fun _ hEq => by cases hEq), stage_same hOther hOwn]
    exact .stay
  · exact cont_moves hStage hPc hOther

-- ---------------------------------------------------------------------------
-- Effects
-- ---------------------------------------------------------------------------

/-- The items of the abstract queue, without numbers. -/
def Holds (s : State τ α) (items : List α) : Prop :=
  ∃ q, Refines s q ∧ items = q.items.map Prod.snd

section

omit [DecidableEq τ]

/-- A quiet step begins a call, finds the queue empty, or says nothing. -/
theorem Quiet.stage {pc pc' : Pc (Numbered α)} (h : Quiet s pc pc') :
    (∃ last, pc = .idle last) ∨ (∃ old, pc = .popTail old ∧ old.ptr = (s.counter .tail).ptr ∧
      pc' = .releaseLoad old.ptr (.popReturn none)) ∨ stageAt s pc' = stageAt s pc := by
  cases h with
  | callPop => exact Or.inl ⟨_, rfl⟩
  | again h => cases h <;> exact Or.inr (Or.inr rfl)
  | popEmpty hEq => exact Or.inr (Or.inl ⟨_, rfl, hEq, rfl⟩)
  | @tailSame pusher old new hEq =>
    refine Or.inr (Or.inr ?_)
    cases pusher with
    | finish value =>
      show finishStage s value (s.counter .tail).ptr = finishStage s value old.ptr
      rw [hEq]
    | help value newNext => rfl
  | @tailMoved pusher old new hNe =>
    refine Or.inr (Or.inr ?_)
    cases pusher with
    | finish value =>
      show Stage.done .pushed = finishStage s value old.ptr
      rw [finishStage, if_neg hNe.symm]
    | help value newNext => rfl
  | freeCounter hpc =>
    rcases hpc with rfl | ⟨counter, rfl⟩ <;> exact Or.inr (Or.inr rfl)
  | releaseCounter hpc =>
    rcases hpc with rfl | ⟨counter, rfl⟩ <;> exact Or.inr (Or.inr rfl)
  | _ => exact Or.inr (Or.inr rfl)

/-- It ends no call. -/
theorem Quiet.busy {pc pc' : Pc (Numbered α)} (h : Quiet s pc pc')
    (last : Option (Ret (Numbered α))) : pc' ≠ .idle last := by
  intro hEq
  cases h with
  | again h => cases h <;> cases hEq
  | _ => cases hEq

/-- The steps on the counts and on the next pointers leave the stage: -/
theorem Increases.stage {side : Side} {old : CountedNodePtr} {pc : Pc (Numbered α)}
    {again after : CountedNodePtr → Pc (Numbered α)} (h : Increases side old pc again after)
    (s s' : State τ α) (c : CountedNodePtr) :
    stageAt s' (after c) = stageAt s pc ∧ ∀ last, after c ≠ .idle last := by
  cases h <;> exact ⟨rfl, fun _ hEq => by cases hEq⟩

/-- so does linking a node, -/
theorem Links.stage {old new : CountedNodePtr} {pc pc' : Pc (Numbered α)} (h : Links old new pc pc')
    (s s' : State τ α) (hCounter : s'.counter = s.counter) :
    stageAt s' pc' = stageAt s pc ∧ ∀ last, pc' ≠ .idle last := by
  cases h with
  | @push value =>
    refine ⟨?_, fun _ hEq => by cases hEq⟩
    show finishStage s' value old.ptr = finishStage s value old.ptr
    rw [finishStage, finishStage, hCounter]
  | help => exact ⟨rfl, fun _ hEq => by cases hEq⟩

/-- and so does allocating one. -/
theorem Allocates.stage {p : Nat} {pc pc' : Pc (Numbered α)} (h : Allocates p pc pc')
    (s s' : State τ α) : stageAt s' pc' = stageAt s pc ∧ ∀ last, pc' ≠ .idle last := by
  cases h <;> exact ⟨rfl, fun _ hEq => by cases hEq⟩

/-- `head` is at the tail node: nothing is stored. -/
theorem Values.items_eq_nil (h : Values s before q) (hNodes : Nodes s before after)
    (hEq : (s.counter .head).ptr = (s.counter .tail).ptr) : q.items = [] := by
  have hItems := h.items
  cases before with
  | nil => exact List.map_eq_nil_iff.mp hItems.symm
  | cons p rest =>
    obtain rfl : (s.counter .head).ptr = p := hNodes.linked.1
    have hNodup := hNodes.nodup
    rw [State.chain, List.cons_append] at hNodup
    refine absurd ?_ (List.nodup_cons.mp hNodup).1
    rw [hEq]
    exact List.mem_append_right _ List.mem_cons_self

end

/-- The effect of a `push`, when a thread moves `tail` past its node. -/
theorem stage_moveTail (hValues : Values s before q) (hInv : Inv s before after)
    {pusher : Pusher (Numbered α)} {new : CountedNodePtr} {x : Numbered α} {u : τ}
    (hpc : s.pc t = .setNewTail pusher (s.counter .tail) new)
    (hx : s.data (s.counter .tail).ptr = some x)
    (hOwn : ∀ value, pusher = .finish value → value = x)
    (hu : (s.pc u).finishing = some (x, (s.counter .tail).ptr))
    (hPc : s'.pc = Function.update s.pc t
      (.freeLoad .tail (s.counter .tail) (pusher.cont (s.counter .tail))))
    (hData : s'.data = s.data) (hTail : s'.counter .tail = new) :
    stage s' = Function.update (stage s) u (.done .pushed) := by
  have hNew := hInv.new_ahead hpc
  -- the nodes of the other running pushes stay on their side of the tail
  have hSide : ∀ v value p, (s.pc v).finishing = some (value, p) → v ≠ u →
      finishStage s' value p = finishStage s value p := by
    intro v value p hFinishing hvu
    obtain ⟨hHeld, hPlaced⟩ := hValues.placed hFinishing
    have hBehind : p ≠ (s.counter .tail).ptr := by
      rintro rfl
      rcases hPlaced with ⟨-, hValue⟩ | ⟨hPassed, -⟩
      · obtain rfl : x = value := Option.some.inj (hx.symm.trans hValue)
        exact hvu (hValues.finishUnique v u _ _ _ hFinishing hu)
      · rw [hInv.nodes.counter_ahead .tail] at hPassed
        cases hPassed
    have hNotNew : p ≠ new.ptr := by
      rintro rfl
      exact hNew.2.2 (hInv.not_held_ahead hHeld hNew.2.1)
    rw [finishStage, finishStage, hTail, if_neg hBehind, if_neg hNotNew]
  funext v
  rcases update_at (stage s) u (.done .pushed) v with ⟨rfl, hAt⟩ | ⟨hvu, hAt⟩ <;> rw [hAt, stage]
  · rcases update_cases hPc v with ⟨rfl, hv⟩ | ⟨-, hv⟩ <;> rw [hv]
    · rw [hpc] at hu
      cases pusher with
      | finish value => rfl
      | help value newNext => cases hu
    · rw [stageAt_finishing hu, finishStage, hTail, if_neg hNew.2.2.symm]
  · rcases update_cases hPc v with ⟨rfl, hv⟩ | ⟨-, hv⟩ <;> rw [hv, stage]
    · rw [hpc]
      cases pusher with
      | finish value =>
        obtain rfl := hOwn value rfl
        have hv' : (s.pc v).finishing = some (value, (s.counter .tail).ptr) := by
          rw [hpc]
          rfl
        exact absurd (hValues.finishUnique v u _ _ _ hv' hu) hvu
      | help value newNext => rfl
    · refine stageAt_congr (fun old _ => congrFun hData old.ptr) ?_
      intro value p hFinishing
      exact hSide v value p hFinishing hvu

/-- The step lemma: an access is a move of the abstract queue. -/
theorem run_moves {spurious : Bool} {fresh : Nat} {items : List α} (hHolds : Holds s items)
    (hFresh : FreshData s (.run t spurious fresh)) (hst : run s t spurious fresh = some s') :
    ∃ items', Holds s' items' ∧ Moves (fifoQueue α) (stage s) items none
      (rets s (.run t spurious fresh) s') (stage s') items' := by
  obtain ⟨q, hRefines, rfl⟩ := hHolds
  have he := run_effect hst
  obtain ⟨q', hExec, hRefines'⟩ := refines_effect hRefines he hFresh
  refine ⟨_, ⟨q', hRefines', rfl⟩, ?_⟩
  obtain ⟨-, before, after, place, hInv, hValues, -⟩ := hRefines
  have hOther : (s'.counter .tail).ptr = (s.counter .tail).ptr →
      ∀ u, u ≠ t → stage s' u = stage s u :=
    fun hTail u hut => stage_frame hValues hInv he hTail hut
  -- the accesses that neither have an effect nor end the call
  have hStay : ∀ {pc : Pc (Numbered α)}, s'.pc t = pc → fifoOps s (s.pc t) pc = [] →
      (∀ last, pc ≠ .idle last) → stageAt s' pc = stageAt s (s.pc t) →
      (s'.counter .tail).ptr = (s.counter .tail).ptr →
      Moves (fifoQueue α) (stage s) (q.items.map Prod.snd) none
        (rets s (.run t spurious fresh) s') (stage s') (q'.items.map Prod.snd) := by
    intro pc hPc hOps hBusy hSame hTail
    rw [hPc, hOps] at hExec
    cases Option.some.inj hExec
    have hOwn : stage s' t = stage s t := by
      rw [stage, hPc, hSame, stage]
    rw [rets_of_busy hPc hBusy, stage_same (hOther hTail) hOwn]
    exact .stay
  have hMoved := @stage_moveTail _ _ _ s s' t before after q hValues hInv
  have hHere : ∀ pc : Pc (Numbered α), Function.update s.pc t pc t = pc :=
    fun pc => Function.update_self ..
  cases he with
  | @quiet pc hQuiet =>
    have hPc : (s.setPc t pc).pc t = pc := hHere pc
    rcases hQuiet.stage with ⟨last, hIdle⟩ | ⟨old, hpc, hEq, rfl⟩ | hSame
    · exact absurd hIdle (run_not_idle hst)
    · -- the queue is empty while `head` and `tail` are at one node
      have hOk := hValues.pcs t
      rw [hpc] at hOk
      have hHeadTail : (s.counter .head).ptr = (s.counter .tail).ptr := by
        rcases hOk with hAt | hPassed
        · exact hAt.symm.trans hEq
        · rw [hEq, (hInv.nodes.onChain _ (tail_mem_chain s before after)).2.2] at hPassed
          cases hPassed
      have hItems := hValues.items_eq_nil hInv.nodes hHeadTail
      rw [hPc, hQuiet.fifoOps] at hExec
      cases Option.some.inj hExec
      have hOwn : stage (s.setPc t (.releaseLoad old.ptr (.popReturn none))) t =
          .done (.popped none) := by
        rw [stage, hPc]
        rfl
      have hPending : stage s t = .pending .pop := by
        rw [stage, hpc]
        rfl
      rw [rets_of_busy hPc (fun _ hIdle => by cases hIdle), stage_update (hOther rfl) hOwn, hItems]
      exact .effect_only (O := fifoQueue α) hPending
    · refine hStay hPc hQuiet.fifoOps hQuiet.busy (Eq.trans ?_ hSame) rfl
      exact stageAt_congr (fun _ _ => rfl) fun _ _ _ => rfl
  | callPush hpc => exact absurd hpc (run_not_idle hst)
  | @increase side again aft hInc =>
    obtain ⟨-, -, hOps⟩ := hInc.values (c := (s.counter side).externalCount + 1)
    obtain ⟨hSame, hBusy⟩ := hInc.stage s
      { s.setPc t (aft ⟨(s.counter side).externalCount + 1, (s.counter side).ptr⟩) with
        counter := Function.update s.counter side
          ⟨(s.counter side).externalCount + 1, (s.counter side).ptr⟩ }
      ⟨(s.counter side).externalCount + 1, (s.counter side).ptr⟩
    refine hStay (hHere _) hOps hBusy ?_ ?_
    · exact (hInc.stage s _ _).1
    · show (Function.update s.counter side _ .tail).ptr = _
      rcases update_at s.counter side
        ⟨(s.counter side).externalCount + 1, (s.counter side).ptr⟩ .tail with
          ⟨rfl, hAt⟩ | ⟨-, hAt⟩ <;> rw [hAt]
  | @popCas next hpc =>
    obtain ⟨x, items, hItems, hx, -⟩ := hValues.moveHead hInv hpc
    obtain rfl := exec_popCas hExec hpc (hHere _) hItems
    have hTail : (Function.update s.counter .head next .tail).ptr = (s.counter .tail).ptr := by
      rw [Function.update_of_ne (by decide)]
    have hPending : stage s t = .pending .pop := by
      rw [stage, hpc]
      rfl
    have hOwn : stage { (s.move .head (s.counter .head) next).setPc t (.popData (s.counter .head))
        with popped := s.popped ++ (s.data (s.counter .head).ptr).toList } t =
        .done (.popped (some x.2)) := by
      show stageAt _ (Function.update s.pc t _ t) = _
      rw [hHere]
      show Stage.done (Ret.popped ((s.data (s.counter .head).ptr).map Prod.snd)) = _
      rw [hx]
      rfl
    rw [rets_of_busy (hHere _) (fun _ hEq => by cases hEq), stage_update (hOther hTail) hOwn,
      hItems]
    exact .effect_only (O := fifoQueue α) hPending
  | popData hpc =>
    refine hStay (hHere _) (by rw [hpc]; rfl) (fun _ hEq => by cases hEq) ?_ rfl
    rw [hpc]
    rfl
  | @pushData value new old hpc hData =>
    have hTail : old.ptr = (s.counter .tail).ptr := by
      refine hValues.at_tail (t := t) hInv.nodes ?_ hData (hFresh value new old hpc hData)
      rw [State.role, hpc]
      rfl
    refine hStay (hHere _) (by rw [hpc]; rfl) (fun _ hEq => by cases hEq) ?_ rfl
    rw [hpc]
    show finishStage _ value old.ptr = .pending (.push value.2)
    exact if_pos hTail
  | @alloc p pc hAllocates hZero hFree =>
    have hOps := (hAllocates.values (hValues.pcs t)).2.2.2
    obtain ⟨hSame, hBusy⟩ := hAllocates.stage s ((s.newNode t p).setPc t pc)
    exact hStay (hHere pc) hOps hBusy hSame rfl
  | @link old new pc hLinks hNext =>
    have hOps := (hLinks.values (hValues.pcs t)).2.2
    obtain ⟨hSame, hBusy⟩ := hLinks.stage s ((s.link old.ptr new).setPc t pc) rfl
    exact hStay (hHere pc) hOps hBusy hSame rfl
  | @discard value new old next hpc =>
    refine hStay (hHere _) (by rw [hpc]; rfl) (fun _ hEq => by cases hEq) ?_ rfl
    rw [hpc]
    rfl
  | @moveTail pusher new hpc =>
    obtain ⟨x, hx, hOwn⟩ := hValues.tail_value hInv hpc
    obtain ⟨u, hu⟩ := hValues.filling x hx
    obtain rfl := exec_moveTail hExec hpc (hHere _) hx
    have hPending : stage s u = .pending (.push x.2) := by
      rw [stage, stageAt_finishing hu, finishStage, if_pos rfl]
    have hTail : Function.update s.counter .tail new .tail = new := Function.update_self ..
    rw [rets_of_busy (hHere _) (fun _ hEq => by cases hEq), hMoved hpc hx hOwn hu rfl rfl hTail,
      List.map_append]
    exact .effect_only (O := fifoQueue α) hPending
  | @close side old k hpc =>
    rw [hpc] at hExec
    obtain rfl : q = q' := Option.some.inj hExec
    have hTail : (((s.close side old).dropped t old.ptr ((s.count old.ptr).close old) k).counter
        .tail).ptr = (s.counter .tail).ptr := by
      rw [(sameNodes_dropped ..).counter]
      rfl
    have hPc : ((s.close side old).dropped t old.ptr ((s.count old.ptr).close old) k).pc t =
        droppedPc old.ptr ((s.count old.ptr).close old) k := by
      rw [dropped_pc, Function.update_self]
    refine dropped_moves ?_ hPc (hOther hTail)
    rw [stage, hpc]
    rfl
  | @release p k hpc =>
    rw [hpc] at hExec
    obtain rfl : q = q' := Option.some.inj hExec
    have hTail : (((s.release p).dropped t p (s.count p).release k).counter .tail).ptr =
        (s.counter .tail).ptr := by
      rw [(sameNodes_dropped ..).counter]
      rfl
    have hPc : ((s.release p).dropped t p (s.count p).release k).pc t =
        droppedPc p (s.count p).release k := by
      rw [dropped_pc, Function.update_self]
    refine dropped_moves ?_ hPc (hOther hTail)
    rw [stage, hpc]
    rfl
  | @delete p k hpc =>
    rw [hpc] at hExec
    obtain rfl : q = q' := Option.some.inj hExec
    have hTail : (((s.deleteNode p).resume t k).counter .tail).ptr = (s.counter .tail).ptr := by
      rw [(sameNodes_resume ..).counter]
      rfl
    refine cont_moves ?_ ?_ (hOther hTail) (k := k)
    · rw [stage, hpc]
      rfl
    · rw [resume_pc, Function.update_self]

/-- The beginning of a call. -/
theorem call_moves {last : Option (Ret (Numbered α))} {pc : Pc (Numbered α)} {call : Call α}
    {items : List α} {answer : Option (τ × Ret α)} (hHolds : Holds s items)
    (hpc : s.pc t = .idle last) (he : Effect s t s') (hPc : s'.pc t = pc)
    (hOps : fifoOps s (.idle last) pc = []) (hStage : stageAt s' pc = .pending call)
    (hTail : (s'.counter .tail).ptr = (s.counter .tail).ptr) :
    ∃ items', Holds s' items' ∧
      Moves (fifoQueue α) (stage s) items (some (t, call)) answer (stage s') items' := by
  obtain ⟨q, hRefines, rfl⟩ := hHolds
  obtain ⟨q', hExec, hRefines'⟩ := refines_effect hRefines he fun value new old hPush => by
    rw [hpc] at hPush
    cases hPush
  rw [hpc, hPc, hOps] at hExec
  cases Option.some.inj hExec
  refine ⟨_, ⟨q, hRefines', rfl⟩, ?_⟩
  obtain ⟨-, before, after, place, hInv, hValues, -⟩ := hRefines
  have hOwn : stage s' t = .pending call := by
    rw [stage, hPc, hStage]
  rw [stage_update (fun u hut => stage_frame hValues hInv he hTail hut) hOwn]
  refine .call ?_
  rw [stage, hpc]
  rfl

/-- Every step of the code is a move of the queue of the specification. -/
theorem step_moves {items : List α} (hHolds : Holds s items) (hFresh : FreshData s a)
    (hst : step s a = some s') : ∃ items', Holds s' items' ∧
      Moves (fifoQueue α) (stage s) items (calls a) (rets s a s') (stage s') items' := by
  have he := step_effect hst
  cases a with
  | callPop t =>
    simp only [step] at hst
    split at hst <;> cases hst
    next hpc => exact call_moves hHolds hpc he (Function.update_self ..) rfl rfl rfl
  | callPush t value =>
    simp only [step] at hst
    split at hst <;> cases hst
    next hpc => exact call_moves hHolds hpc he (Function.update_self ..) rfl rfl rfl
  | run t spurious fresh => exact run_moves hHolds hFresh hst

-- ---------------------------------------------------------------------------
-- The contract
-- ---------------------------------------------------------------------------

/-- Where a value whose `push` returned can be. -/
inductive Spot (τ : Type*)
  | stored (p : Nat)
  | taken (t : τ)
  | returned

/-- The nodes with values are `before`, the value that a running `pop` has taken is in
its hands. -/
def IsAt (s : State τ α) (before : List Nat) (x : Numbered α) : Spot τ → Prop
  | .stored p => p ∈ before ∧ s.data p = some x
  | .taken t => inHand s (s.pc t) = some x
  | .returned => x ∈ s.returned

/-- What `lock_free_queue` promises about its values. -/
structure QueueContract (s : State τ α) : Prop where
  /-- A value whose `push` returned is in one node between `head` and `tail`, with one
  running `pop`, or returned. -/
  kept : ∃ before after, Linked (fun p => (s.next p).ptr) 0 (s.counter .head).ptr
    (before ++ (s.counter .tail).ptr :: after) ∧ ∀ x ∈ s.finished, ∃! spot, IsAt s before x spot
  /-- No value is returned twice. -/
  once : s.returned.Nodup

omit [DecidableEq τ] in
/-- The values of the queue are those in its nodes. -/
theorem Values.items_mem (h : Values s before q) {x : Numbered α} :
    x ∈ q.items ↔ ∃ p ∈ before, s.data p = some x := by
  have hMap : some x ∈ before.map s.data ↔ x ∈ q.items := by
    rw [h.items]
    exact List.mem_map_of_injective (Option.some_injective _)
  rw [← hMap, List.mem_map]

/-- The place of the proof that a spot of the contract is. -/
def Spot.place : Spot τ → Place τ
  | .stored _ => .stored
  | .taken t => .popping t
  | .returned => .returned

section

omit [DecidableEq τ]

/-- A value that is seen at a spot is in the list of its place. -/
theorem Values.isAt_queue (h : Values s before q) {x : Numbered α} {spot : Spot τ}
    (hAt : IsAt s before x spot) : x ∈ queues s q spot.place := by
  cases spot with
  | stored p => exact h.items_mem.mpr ⟨p, hAt⟩
  | taken t => exact Option.mem_toList.mpr hAt
  | returned => exact hAt

/-- Each value is in one node at most. -/
theorem Values.node_unique (h : Values s before q) (hNodup : q.items.Nodup) {x : Numbered α}
    {p p' : Nat} (hp : p ∈ before) (hp' : p' ∈ before) (hx : s.data p = some x)
    (hx' : s.data p' = some x) : p = p' := by
  have hMap : (before.map s.data).Nodup := by
    rw [h.items]
    exact hNodup.map (Option.some_injective _)
  exact List.inj_on_of_nodup_map hMap hp hp' (hx.trans hx'.symm)

/-- Values that were pushed are stored, taken or returned. -/
theorem Refines.kept (h : Refines s q) : ∃ before after,
    Linked (fun p => (s.next p).ptr) 0 (s.counter .head).ptr
      (before ++ (s.counter .tail).ptr :: after) ∧
    ∀ x ∈ s.pushed, ∃! spot, IsAt s before x spot := by
  obtain ⟨hq, before, after, place, hInv, hValues, hTickets⟩ := h
  refine ⟨before, after, hInv.nodes.linked, ?_⟩
  intro x hx
  rw [← hValues.pushed, Fifo.pushed_eq hq, hValues.popped] at hx
  have hExists : ∃ spot, IsAt s before x spot := by
    rcases List.mem_append.mp hx with hPopped | hStored
    · rcases hTickets.taken x hPopped with hReturned | ⟨t, hHand⟩
      · exact ⟨.returned, hReturned⟩
      · exact ⟨.taken t, hHand⟩
    · obtain ⟨p, hp⟩ := hValues.items_mem.mp hStored
      exact ⟨.stored p, hp⟩
  obtain ⟨spot, hAt⟩ := hExists
  refine ⟨spot, hAt, ?_⟩
  intro spot' hAt'
  have hEq := hTickets.placement.unique (hValues.isAt_queue hAt') (hValues.isAt_queue hAt)
  cases spot <;> cases spot' <;> cases hEq
  · rw [hValues.node_unique (hTickets.placement .stored).1 hAt'.1 hAt.1 hAt'.2 hAt.2]
  · rfl
  · rfl

end

/-- **The contract of the queue**, for any number of threads and every interleaving in which no
`push` puts its value into a node that `head` has passed: the values are where they belong, and
the history is that of a queue. Nodes are deleted and their addresses used again, and the
exchanges may fail spuriously; the excluded step is the exchange of a delayed `push` with the
`nullptr` that a `pop` has left (`queue_loses_value`). -/
theorem queue_linearizable {x : State τ α × Record τ (Call α) (Ret α)}
    (h : ((system τ α).recorded calls rets).ReachableWhere (fun x a => FreshData x.1 a) x) :
    QueueContract x.1 ∧ (fifoQueue α).Linearizable x.2.history := by
  have hReach : (system τ α).ReachableWhere FreshData x.1 := recorded_reachable h
  obtain ⟨q, hq⟩ := refines_reachable hReach
  refine ⟨⟨?_, ?_⟩, ?_⟩
  · obtain ⟨before, after, hLinked, hAt⟩ := hq.kept
    obtain ⟨-, _, _, _, -, -, hTickets⟩ := hq
    exact ⟨before, after, hLinked, fun v hv => hAt v (hTickets.finished v hv)⟩
  · obtain ⟨-, _, _, _, -, -, hTickets⟩ := hq
    exact (hTickets.placement .returned).1
  · exact recorded_linearizable FreshData stage Holds ⟨_, refines_init, rfl⟩ (fun _ => rfl)
      (fun s a s' items _ hHolds hFresh hst => step_moves hHolds hFresh hst) h

-- ---------------------------------------------------------------------------
-- The condition
-- ---------------------------------------------------------------------------

/-- A step outside the condition puts a value into a node that is not between `head`
and `tail`: no `pop` will find it. -/
theorem stale_value (h : (system τ α).Reachable s) (hst : step s a = some s')
    (hNot : ¬ FreshData s a) : ∃ value new old, s.pc a.thread = .pushData value new old ∧
      s'.data old.ptr = some value ∧
      ∀ l, Linked (fun p => (s'.next p).ptr) 0 (s'.counter .head).ptr l → old.ptr ∉ l := by
  cases a with
  | callPop t => exact absurd trivial hNot
  | callPush t value => exact absurd trivial hNot
  | run t spurious fresh =>
    rw [FreshData] at hNot
    push Not at hNot
    obtain ⟨value, new, old, hpc, hData, hPassed⟩ := hNot
    refine ⟨value, new, old, hpc, ?_⟩
    obtain ⟨⟨before, after, hInv⟩, -⟩ := inv_reachable h
    simp only [step, run, hpc, hData] at hst
    cases hst
    refine ⟨Function.update_self .., ?_⟩
    intro l hLinked hMem
    obtain rfl : l = s.chain before after := hLinked.unique hInv.nodes.linked
    exact hPassed (hInv.nodes.onChain _ hMem).2.2

/-- The condition on a step as a check that a run can be tested with. -/
def dataIsFresh (s : State τ α) : Action τ α → Bool
  | .run t _ _ =>
    match s.pc t with
    | .pushData _ _ old => (s.data old.ptr).isSome || !s.passed old.ptr .head
    | _ => true
  | _ => true

omit [DecidableEq τ] in
/-- The check is right. -/
theorem freshData_of_check (h : dataIsFresh s a = true) : FreshData s a := by
  cases a with
  | run t spurious fresh =>
    intro value new old hpc hData
    simpa [dataIsFresh, hpc, hData] using h
  | callPop t => trivial
  | callPush t value => trivial

/-- Two pushes, of which the second finds the node of the first filled and helps it, and
a `pop`. -/
theorem queue_linearizable_helped :
    ∃ x : State Bool Nat × Record Bool (Call Nat) (Ret Nat),
      ((system Bool Nat).recorded calls rets).ReachableWhere (fun x a => FreshData x.1 a) x ∧
      x.2.history = [.call 0 (.push 7), .call 1 (.push 8), .ret 1 .pushed, .call 2 .pop,
        .ret 2 (.popped (some 7)), .ret 0 .pushed] ∧
      QueueContract x.1 ∧ (fifoQueue Nat).Linearizable x.2.history := by
  obtain ⟨x, hx, hp⟩ := System.exists_reachableWhere_of_exec
    (S := (system Bool Nat).recorded calls rets)
    (p := fun x => x.2.history = [.call 0 (.push 7), .call 1 (.push 8), .ret 1 .pushed,
      .call 2 .pop, .ret 2 (.popped (some 7)), .ret 0 .pushed])
    (c := fun x a => dataIsFresh x.1 a) (fun x a => freshData_of_check)
    ([Action.callPush false 7] ++ List.replicate 4 (Action.run false false 2) ++
      [Action.callPush true 8] ++ List.replicate 5 (Action.run true false 3) ++
      List.replicate 11 (Action.run true false 4) ++ [Action.callPop true] ++
      List.replicate 8 (Action.run true false 0) ++ List.replicate 6 (Action.run false false 0))
    (by decide +kernel)
  exact ⟨x, hx, hp, queue_linearizable hx⟩

/-- A `push` holds the first node; another `push` fills the node and a `pop` empties it
and moves `head` past it. The first `push` then takes the node for one without a value:
it returns, and its value is nowhere. -/
theorem queue_loses_value :
    ∃ s : State Bool Nat, (system Bool Nat).Reachable s ∧ Quiescent s ∧
      s.finished = [(1, 7), (0, 9)] ∧ s.returned = [(1, 7)] ∧ ¬ QueueContract s := by
  obtain ⟨s, hs, hIdle, hFinished, hReturned, hHead, hTail, hNext⟩ :=
    System.exists_reachable_of_exec (S := system Bool Nat)
    (p := fun s => (s.pc false = .idle (some .pushed) ∧
      s.pc true = .idle (some (.popped (some (1, 7))))) ∧ s.finished = [(1, 7), (0, 9)] ∧
      s.returned = [(1, 7)] ∧ (s.counter .head).ptr = 2 ∧ (s.counter .tail).ptr = 2 ∧
      (s.next 2).ptr = 0)
    ([Action.callPush false 9] ++ List.replicate 3 (Action.run false false 4) ++
      [Action.callPush true 7] ++ List.replicate 8 (Action.run true false 2) ++
      [Action.callPop true] ++ List.replicate 8 (Action.run true false 0) ++
      List.replicate 7 (Action.run false false 0))
    (by decide +kernel)
  refine ⟨s, hs, ?_, hFinished, hReturned, ?_⟩
  · intro t
    cases t
    · exact ⟨_, hIdle.1⟩
    · exact ⟨_, hIdle.2⟩
  intro hContract
  obtain ⟨before, after, hLinked, hKept⟩ := hContract.kept
  have hEmpty : before = [] := by
    rw [hHead, hTail] at hLinked
    cases before with
    | nil => rfl
    | cons p rest =>
      obtain ⟨rfl, -, hRest⟩ := hLinked
      replace hRest : Linked (fun p => (s.next p).ptr) 0 (s.next 2).ptr (rest ++ 2 :: after) :=
        hRest
      rw [hNext] at hRest
      exact absurd hRest.eq_nil (List.append_ne_nil_of_right_ne_nil _ (List.cons_ne_nil _ _))
  obtain ⟨spot, hAt, -⟩ := hKept (0, 9) (by rw [hFinished]; decide)
  cases spot with
  | stored p =>
    rw [hEmpty] at hAt
    cases hAt.1
  | taken t =>
    cases t
    · simp only [IsAt, hIdle.1, inHand] at hAt
      cases hAt
    · simp only [IsAt, hIdle.2, inHand] at hAt
      cases hAt
  | returned =>
    rw [IsAt, hReturned] at hAt
    exact absurd hAt (by decide)

end EmbLinux.DesignLockFree.Queue
