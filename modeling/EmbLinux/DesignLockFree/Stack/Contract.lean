import EmbLinux.DesignLockFree.Stack.Values
import EmbLinux.Lib.Linearizable

/-!
# EmbLinux — `lock_free_stack` as a stack

A `push` has its effect when it puts its node into `head`, a `pop` when it takes one
out, or when it counts on a null `head`. `counted_stack_contract` puts reclamation, the numbers
and the refinement together, for every run.

Counts are integers here; `Overflow` relates them to the `int` of the source, by the number of
uses of a node between its allocation and an exchange.
-/

namespace EmbLinux.DesignLockFree.Stack

variable {τ α : Type*} [DecidableEq τ] {s s' : State τ α} {a : Action τ α} {t : τ}
  {l : List Nat} {q q' : Lifo (Numbered α)}

-- ---------------------------------------------------------------------------
-- The abstract stack that a state stands for
-- ---------------------------------------------------------------------------

/-- The state is one of the abstract stack `q`. -/
def Refines (s : State τ α) (q : Lifo (Numbered α)) : Prop :=
  ∃ l place, Inv s l ∧ Values s l q ∧ Tickets s q place

omit [DecidableEq τ] in
/-- A new stack is the empty one. -/
theorem refines_init : Refines (init τ α) ⟨[], [], []⟩ := by
  refine ⟨[], fun _ => none, inv_init, ⟨rfl, fun _ => trivial⟩, ?_, fun x hx => absurd rfl hx⟩
  refine Placement.empty.congr ?_
  intro k
  cases k <;> exact List.Perm.refl _

/-- One step of the code is at most one operation of the abstract stack. -/
theorem refines_effect (h : Refines s q) (he : Effect s t s') :
    ∃ q', (Lifo.system (Numbered α)).exec q (stackOps (s.pc t) (s'.pc t)) = some q' ∧
      Refines s' q' := by
  obtain ⟨l, place, hInv, hValues, hTickets⟩ := h
  obtain ⟨q', hExec, hValues'⟩ := values_effect hValues hInv he
  obtain ⟨place', hTickets'⟩ := tickets_effect hTickets hValues hInv he hExec
  exact ⟨q', hExec, _, place', inv_effect hInv he, hValues', hTickets'⟩

/-- In every reachable state. -/
theorem refines_reachable (h : (system τ α).Reachable s) : ∃ q, Refines s q := by
  refine h.invariant (I := fun s => ∃ q, Refines s q) ⟨_, refines_init⟩ ?_
  rintro s a s' - ⟨q, hq⟩ - hst
  obtain ⟨q', -, hq'⟩ := refines_effect hq (step_effect hst)
  exact ⟨q', hq'⟩

-- ---------------------------------------------------------------------------
-- The calls
-- ---------------------------------------------------------------------------

/-- A stack without a bound: `pop` returns null exactly when it is empty. -/
def lifoStack (α : Type*) : Object (Call α) (Ret α) (List α) where
  init := []
  apply
    | items, .push data => (data :: items, .pushed)
    | [], .pop => ([], .popped none)
    | data :: rest, .pop => (rest, .popped (some data))

/-- Return values without the numbers that history adds. -/
def Ret.plain : Ret (Numbered α) → Ret α
  | .popped res => .popped (res.map Prod.snd)
  | .pushed => .pushed

/-- The call that begins with an action. -/
def calls : Action τ α → Option (τ × Call α)
  | .callPop t => some (t, .pop)
  | .callPush t data => some (t, .push data)
  | .run _ _ _ => none

/-- The return value with which a step ends a call. -/
def rets (_ : State τ α) : Action τ α → State τ α → Option (τ × Ret α)
  | .run t _ _, s' =>
    match s'.pc t with
    | .idle (some ret) => some (t, ret.plain)
    | _ => none
  | _, _ => none

/-- How far the call of a thread at `pc` is. -/
def stageAt (s : State τ α) : Pc (Numbered α) → Stage (Call α) (Ret α)
  | .idle _ => .idle
  | .popLoad | .popIncrease _ | .popNext _ | .popCas _ _ | .popSub _ _ | .popAcquire _ _
  | .delete _ (.popRetry _) => .pending .pop
  | .popSwap old => .done (.popped ((s.data old.ptr).map Prod.snd))
  | .popAdd _ res | .delete _ (.popReturn res) => .done (.popped (res.map Prod.snd))
  | .pushNew data | .pushLoad data _ | .pushCas data _ => .pending (.push data.2)

/-- How far the call of each thread is. -/
def stage (s : State τ α) (t : τ) : Stage (Call α) (Ret α) :=
  stageAt s (s.pc t)

omit [DecidableEq τ] in
/-- It depends on the value of the node it has popped only. -/
theorem stageAt_congr {pc : Pc (Numbered α)}
    (h : ∀ old, pc.role.closing = some old → s'.data old.ptr = s.data old.ptr) :
    stageAt s' pc = stageAt s pc := by
  cases pc with
  | popSwap old => rw [stageAt, stageAt, h old rfl]
  | delete p k => cases k <;> rfl
  | _ => rfl

/-- A step changes the stage of its own thread only. -/
theorem stage_update (hInv : Inv s l) (he : Effect s t s') {x : Stage (Call α) (Ret α)}
    (hOwn : stage s' t = x) : stage s' = Function.update (stage s) t x := by
  funext u
  rcases update_at (stage s) t x u with ⟨rfl, hAt⟩ | ⟨hut, hAt⟩ <;> rw [hAt]
  · exact hOwn
  · rw [stage, pc_frame he hut, stage]
    exact stageAt_congr fun old hOld => data_frame hInv he hut (Or.inr ⟨old, hOld, rfl⟩)

/-- The stages after a step that changes none. -/
theorem stage_same (hInv : Inv s l) (he : Effect s t s') (hOwn : stage s' t = stage s t) :
    stage s' = stage s := by
  rw [stage_update hInv he hOwn, Function.update_eq_self]

/-- A thread between two calls takes no step of one. -/
theorem run_not_idle {spurious : Bool} {fresh : Nat} (hst : run s t spurious fresh = some s')
    {last : Option (Ret (Numbered α))} : s.pc t ≠ .idle last := by
  intro hpc
  simp [run, hpc] at hst

omit [DecidableEq τ] in
/-- A step to the end of a call is its answer, -/
theorem rets_of_idle {spurious : Bool} {fresh : Nat} {ret : Ret (Numbered α)}
    (h : s'.pc t = .idle (some ret)) :
    rets s (.run t spurious fresh) s' = some (t, ret.plain) := by
  simp only [rets, h]

omit [DecidableEq τ] in
/-- and every other one answers nothing. -/
theorem rets_of_busy {spurious : Bool} {fresh : Nat} {pc : Pc (Numbered α)} (h : s'.pc t = pc)
    (hBusy : ∀ last, pc ≠ .idle last) : rets s (.run t spurious fresh) s' = none := by
  simp only [rets, h]
  split
  · next ret => exact absurd rfl (hBusy (some ret))
  · rfl

-- ---------------------------------------------------------------------------
-- Steps are moves of the abstract stack
-- ---------------------------------------------------------------------------

/-- The items of the abstract stack, without numbers. -/
def Holds (s : State τ α) (items : List α) : Prop :=
  ∃ q, Refines s q ∧ items = q.items.map Prod.snd

omit [DecidableEq τ] in
/-- A quiet step begins a call or says nothing. -/
theorem Quiet.stage {pc pc' : Pc (Numbered α)} (h : Quiet s pc pc') :
    ((∃ last, pc = .idle last) ∨ stageAt s pc' = stageAt s pc) ∧ ∀ last, pc' ≠ .idle last := by
  refine ⟨?_, ?_⟩
  · cases h with
    | callPop => exact Or.inl ⟨_, rfl⟩
    | _ => exact Or.inr rfl
  · intro last hEq
    cases h <;> cases hEq

omit [DecidableEq τ] in
/-- A null `head` is the head of an empty stack. -/
theorem Values.items_eq_nil (h : Values s l q) (hInv : Inv s l) (hNull : s.head.ptr = 0) :
    q.items = [] := by
  have hLinked := hInv.nodes.linked
  rw [hNull] at hLinked
  have hItems := h.items
  rw [hLinked.eq_nil] at hItems
  exact List.map_eq_nil_iff.mp hItems.symm

/-- The step lemma: an access is a move of the abstract stack. -/
theorem run_moves {spurious : Bool} {fresh : Nat} {items : List α} (hHolds : Holds s items)
    (hst : run s t spurious fresh = some s') :
    ∃ items', Holds s' items' ∧ Moves (lifoStack α) (stage s) items none
      (rets s (.run t spurious fresh) s') (stage s') items' := by
  obtain ⟨q, hRefines, rfl⟩ := hHolds
  have he := run_effect hst
  obtain ⟨q', hExec, hRefines'⟩ := refines_effect hRefines he
  refine ⟨_, ⟨q', hRefines', rfl⟩, ?_⟩
  obtain ⟨l, place, hInv, hValues, -⟩ := hRefines
  have hHere : ∀ pc : Pc (Numbered α), Function.update s.pc t pc t = pc :=
    fun pc => Function.update_self ..
  -- the accesses that neither have an effect nor end the call
  have hStay : ∀ {pc pc' : Pc (Numbered α)}, s.pc t = pc → s'.pc t = pc' → stackOps pc pc' = [] →
      (∀ last, pc' ≠ .idle last) → stageAt s' pc' = stageAt s pc →
      Moves (lifoStack α) (stage s) (q.items.map Prod.snd) none
        (rets s (.run t spurious fresh) s') (stage s') (q'.items.map Prod.snd) := by
    intro pc pc' hpc hpc' hOps hBusy hSame
    rw [hpc, hpc', hOps] at hExec
    cases Option.some.inj hExec
    have hOwn : stage s' t = stage s t := by
      rw [stage, hpc', hSame, stage, hpc]
    rw [rets_of_busy hpc' hBusy, stage_same hInv he hOwn]
    exact .stay
  -- a `pop` returns what it took
  have hReturn : ∀ {pc : Pc (Numbered α)} {res : Option (Numbered α)}, s.pc t = pc →
      s'.pc t = .idle (some (.popped res)) → stackOps pc (.idle (some (.popped res))) = [] →
      stageAt s pc = .done (.popped (res.map Prod.snd)) →
      Moves (lifoStack α) (stage s) (q.items.map Prod.snd) none
        (rets s (.run t spurious fresh) s') (stage s') (q'.items.map Prod.snd) := by
    intro pc res hpc hpc' hOps hDone
    rw [hpc, hpc', hOps] at hExec
    cases Option.some.inj hExec
    have hOwn : stage s' t = .idle := by
      rw [stage, hpc']
      rfl
    rw [rets_of_idle hpc', stage_update hInv he hOwn]
    refine .ret ?_
    rw [stage, hpc, hDone]
    rfl
  cases he with
  | @quiet pc hQuiet =>
    obtain ⟨hIdle | hSame, hBusy⟩ := hQuiet.stage
    · obtain ⟨last, hLast⟩ := hIdle
      exact absurd hLast (run_not_idle hst)
    · exact hStay rfl (hHere pc) hQuiet.valueOk.2 hBusy
        ((stageAt_congr fun _ _ => rfl).trans hSame)
  | callPush hpc => exact absurd hpc (run_not_idle hst)
  | empty hpc hNull =>
    have hItems := hValues.items_eq_nil hInv hNull
    have hOwn : stage { s.setPc t (.idle (some (.popped none))) with
        head := ⟨s.head.externalCount + 1, s.head.ptr⟩ } t = .idle := by
      show stageAt _ (Function.update s.pc t _ t) = _
      rw [hHere]
      rfl
    have hPending : stage s t = .pending .pop := by
      rw [stage, hpc]
      rfl
    rw [hpc] at hExec
    replace hExec : (Lifo.system (Numbered α)).exec q
      (stackOps _ (Function.update s.pc t (.idle (some (.popped none))) t)) = some q' := hExec
    rw [hHere] at hExec
    obtain rfl : q = q' := Option.some.inj hExec
    rw [rets_of_idle (hHere _), stage_update hInv (.empty hpc hNull) hOwn, hItems]
    exact .effect_ret (O := lifoStack α) hPending
  | increase hpc hPtr => exact hStay hpc (hHere _) rfl (fun _ hEq => by cases hEq) rfl
  | @popCas next hpc =>
    have hPtr := (hInv.nodes.held t _ (role_at hpc).1).1
    obtain ⟨x, items, hItems, hTop, -⟩ := hValues.top hInv hPtr
    have hPop : (Lifo.system (Numbered α)).exec q [.pop] =
        some { q with items := items, popped := q.popped ++ [x] } := Lifo.exec_pop hItems
    rw [hpc] at hExec
    replace hExec : (Lifo.system (Numbered α)).exec q
      (stackOps _ (Function.update s.pc t (.popSwap s.head) t)) = some q' := hExec
    rw [hHere] at hExec
    obtain rfl := Option.some.inj (hPop.symm.trans hExec)
    have hOwn : stage { s.setPc t (.popSwap s.head) with
        head := next
        removed := s.removed ++ [s.serial s.head.ptr] } t = .done (.popped (some x.2)) := by
      show stageAt _ (Function.update s.pc t _ t) = _
      rw [hHere]
      show Stage.done (Ret.popped ((s.data s.head.ptr).map Prod.snd)) = _
      rw [hTop]
      rfl
    have hPending : stage s t = .pending .pop := by
      rw [stage, hpc]
      rfl
    rw [rets_of_busy (hHere _) (fun _ hEq => by cases hEq), stage_update hInv (.popCas hpc) hOwn,
      hItems]
    exact .effect_only (O := lifoStack α) hPending
  | popSwap hpc => exact hStay hpc (hHere _) rfl (fun _ hEq => by cases hEq) rfl
  | closeLast hpc hLast => exact hStay hpc (hHere _) rfl (fun _ hEq => by cases hEq) rfl
  | close hpc hNot => exact hReturn hpc (hHere _) rfl rfl
  | releaseLast hpc hLast => exact hStay hpc (hHere _) rfl (fun _ hEq => by cases hEq) rfl
  | release hpc hNot => exact hStay hpc (hHere _) rfl (fun _ hEq => by cases hEq) rfl
  | @delete p k hpc =>
    cases k with
    | popReturn res => exact hReturn hpc (hHere _) rfl rfl
    | popRetry old => exact hStay hpc (hHere _) rfl (fun _ hEq => by cases hEq) rfl
  | alloc hpc hZero hFree => exact hStay hpc (hHere _) rfl (fun _ hEq => by cases hEq) rfl
  | storeNext hpc =>
    rcases hpc with hpc | hpc
    · exact hStay hpc (hHere _) rfl (fun _ hEq => by cases hEq) rfl
    · exact hStay hpc (hHere _) rfl (fun _ hEq => by cases hEq) rfl
  | @pushCas data p hpc hHead =>
    rw [hpc] at hExec
    replace hExec : (Lifo.system (Numbered α)).exec q
      (stackOps _ (Function.update s.pc t (.idle (some .pushed)) t)) = some q' := hExec
    rw [hHere] at hExec
    obtain rfl := Option.some.inj ((Lifo.exec_push q data).symm.trans hExec)
    have hOwn : stage { s.setPc t (.idle (some .pushed)) with head := ⟨1, p⟩ } t = .idle := by
      show stageAt _ (Function.update s.pc t _ t) = _
      rw [hHere]
      rfl
    have hPending : stage s t = .pending (.push data.2) := by
      rw [stage, hpc]
      rfl
    rw [rets_of_idle (hHere _), stage_update hInv (.pushCas hpc hHead) hOwn]
    exact .effect_ret (O := lifoStack α) hPending

/-- The beginning of a call. -/
theorem call_moves {last : Option (Ret (Numbered α))} {pc : Pc (Numbered α)} {call : Call α}
    {items : List α} {answer : Option (τ × Ret α)} (hHolds : Holds s items)
    (hpc : s.pc t = .idle last) (he : Effect s t s') (hPc : s'.pc t = pc)
    (hOps : stackOps (.idle last) pc = []) (hStage : stageAt s' pc = .pending call) :
    ∃ items', Holds s' items' ∧
      Moves (lifoStack α) (stage s) items (some (t, call)) answer (stage s') items' := by
  obtain ⟨q, hRefines, rfl⟩ := hHolds
  obtain ⟨q', hExec, hRefines'⟩ := refines_effect hRefines he
  rw [hpc, hPc, hOps] at hExec
  cases Option.some.inj hExec
  refine ⟨_, ⟨q, hRefines', rfl⟩, ?_⟩
  obtain ⟨l, place, hInv, -, -⟩ := hRefines
  have hOwn : stage s' t = .pending call := by
    rw [stage, hPc, hStage]
  rw [stage_update hInv he hOwn]
  refine .call ?_
  rw [stage, hpc]
  rfl

/-- Every step of the code is a move of the stack of the specification. -/
theorem step_moves {items : List α} (hHolds : Holds s items) (hst : step s a = some s') :
    ∃ items', Holds s' items' ∧
      Moves (lifoStack α) (stage s) items (calls a) (rets s a s') (stage s') items' := by
  have he := step_effect hst
  cases a with
  | callPop t =>
    simp only [step] at hst
    split at hst <;> cases hst
    next hpc => exact call_moves hHolds hpc he (Function.update_self ..) rfl rfl
  | callPush t data =>
    simp only [step] at hst
    split at hst <;> cases hst
    next hpc => exact call_moves hHolds hpc he (Function.update_self ..) rfl rfl
  | run t spurious fresh => exact run_moves hHolds hst

-- ---------------------------------------------------------------------------
-- The contract
-- ---------------------------------------------------------------------------

/-- A `pop` that returns null met a null `head` at its increment. -/
theorem Values.null_answer (h : Values s l q) (he : Effect s t s')
    (hBusy : ∀ last, s.pc t ≠ .idle last) (hpc' : s'.pc t = .idle (some (.popped none))) :
    s.pc t = .popIncrease s.head ∧ s.head.ptr = 0 := by
  have hHere : ∀ pc : Pc (Numbered α), Function.update s.pc t pc t = pc :=
    fun pc => Function.update_self ..
  have hOk := h.pcs t
  have hOther : ∀ {pc : Pc (Numbered α)}, s'.pc t = pc → pc = .idle (some (.popped none)) :=
    fun hAt => hAt.symm.trans hpc'
  cases he with
  | @quiet pc hQuiet =>
    have hEq := hOther (hHere pc)
    exact absurd hEq (hQuiet.stage.2 _)
  | empty hpc hNull => exact ⟨hpc, hNull⟩
  | @close old res hpc hNot =>
    cases hOther (hHere (.idle (some (.popped res))))
    rw [hpc] at hOk
    exact absurd rfl hOk
  | @delete p k hpc =>
    cases k with
    | popReturn res =>
      cases hOther (hHere (.idle (some (.popped res))))
      rw [hpc] at hOk
      exact absurd rfl hOk
    | popRetry old => cases hOther (hHere (.popIncrease old))
  | callPush hpc => exact absurd hpc (hBusy _)
  | increase hpc hPtr => cases hOther (hHere _)
  | popCas hpc => cases hOther (hHere _)
  | popSwap hpc => cases hOther (hHere _)
  | closeLast hpc hLast => cases hOther (hHere _)
  | releaseLast hpc hLast => cases hOther (hHere _)
  | release hpc hNot => cases hOther (hHere _)
  | alloc hpc hZero hFree => cases hOther (hHere _)
  | storeNext hpc => cases hOther (hHere _)
  | pushCas hpc hHead => cases hOther (hHere _)

/-- What `lock_free_stack` promises. -/
structure StackContract (s : State τ α) : Prop where
  reclamation : ReclamationContract s
  /-- Each pushed value is returned by one `pop` at most. -/
  once : s.returned.Nodup
  /-- A `pop` whose exchange on `head` succeeds takes the top node with its value, and
  leaves the others. -/
  top : ∀ t next, s.pc t = .popCas s.head next → ∃ x rest, s.data s.head.ptr = some x ∧
    Linked (fun p => (s.next p).ptr) 0 s.head.ptr (s.head.ptr :: rest) ∧
    Linked (fun p => (s.next p).ptr) 0 next.ptr rest
  /-- A `pop` returns null only after its increment of a null `head`. -/
  empty : ∀ t spurious fresh s', run s t spurious fresh = some s' →
    s'.pc t = .idle (some (.popped none)) → s.pc t = .popIncrease s.head ∧ s.head.ptr = 0

/-- What the invariants say of the values, as the contract puts it. -/
theorem Refines.contract (h : Refines s q) : StackContract s := by
  obtain ⟨l, place, hInv, hValues, hTickets⟩ := h
  refine ⟨hInv.reclamation, (hTickets.placement .returned).1, ?_, ?_⟩
  · intro t next hpc
    have hPtr := (hInv.nodes.held t _ (role_at hpc).1).1
    obtain ⟨x, items, -, hTop, -⟩ := hValues.top hInv hPtr
    obtain ⟨rest, rfl, -, hRest, -, -⟩ := hInv.nodes.head_cons hPtr
    obtain rfl := hInv.knows t s.head next hpc
    exact ⟨x, rest, hTop, hInv.nodes.linked, hRest⟩
  · intro t spurious fresh s' hst hNull
    exact hValues.null_answer (run_effect hst) (fun _ => run_not_idle hst) hNull

/-- **The contract of the stack**, for any number of threads and every interleaving: its nodes
are reclaimed, its values are returned once, and its history is that of a stack. There is no
condition on the steps. The accesses are sequentially consistent, and the counts are integers,
as in the queue. -/
theorem counted_stack_contract {x : State τ α × Record τ (Call α) (Ret α)}
    (h : ((system τ α).recorded calls rets).Reachable x) :
    StackContract x.1 ∧ (lifoStack α).Linearizable x.2.history := by
  have hReach : (system τ α).Reachable x.1 := recorded_reachable h
  obtain ⟨q, hq⟩ := refines_reachable hReach
  refine ⟨hq.contract, ?_⟩
  exact recorded_linearizable (fun _ _ => True) stage Holds ⟨_, refines_init, rfl⟩ (fun _ => rfl)
    (fun s a s' items _ hHolds _ hst => step_moves hHolds hst) h

/-- A `pop` holds the only node while another `push` covers it and two other calls of
`pop` uncover it and take it off; it deletes the node, and the address comes back. -/
theorem counted_stack_reuse :
    ∃ x : State (Fin 3) Nat × Record (Fin 3) (Call Nat) (Ret Nat),
      ((system (Fin 3) Nat).recorded calls rets).Reachable x ∧
      x.2.history = [.call 0 (.push 7), .ret 0 .pushed, .call 1 .pop, .call 2 (.push 8),
        .ret 2 .pushed, .call 3 .pop, .ret 3 (.popped (some 8)), .call 4 .pop,
        .ret 4 (.popped (some 7)), .ret 1 (.popped none), .call 5 (.push 9), .ret 5 .pushed] ∧
      x.1.removed = [1, 0] ∧ x.1.deleted = [1, 0] ∧ x.1.allocated 1 = true ∧ x.1.serial 1 = 2 ∧
      StackContract x.1 ∧ (lifoStack Nat).Linearizable x.2.history := by
  obtain ⟨x, hx, hHistory, hRemoved, hDeleted, hAlloc, hSerial⟩ :=
    System.exists_reachable_of_exec (S := (system (Fin 3) Nat).recorded calls rets)
    (p := fun x => x.2.history = [.call 0 (.push 7), .ret 0 .pushed, .call 1 .pop,
        .call 2 (.push 8), .ret 2 .pushed, .call 3 .pop, .ret 3 (.popped (some 8)), .call 4 .pop,
        .ret 4 (.popped (some 7)), .ret 1 (.popped none), .call 5 (.push 9), .ret 5 .pushed] ∧
      x.1.removed = [1, 0] ∧ x.1.deleted = [1, 0] ∧ x.1.allocated 1 = true ∧ x.1.serial 1 = 2)
    ([Action.callPush 0 7] ++ List.replicate 3 (Action.run 0 false 1) ++ [Action.callPop 1] ++
      List.replicate 2 (Action.run 1 false 0) ++ [Action.callPush 0 8] ++
      List.replicate 3 (Action.run 0 false 2) ++ [Action.callPop 2] ++
      List.replicate 7 (Action.run 2 false 0) ++ [Action.callPop 2] ++
      List.replicate 6 (Action.run 2 false 0) ++ List.replicate 6 (Action.run 1 false 0) ++
      [Action.callPush 0 9] ++ List.replicate 3 (Action.run 0 false 1))
    (by decide +kernel)
  exact ⟨x, hx, hHistory, hRemoved, hDeleted, hAlloc, hSerial, counted_stack_contract hx⟩

end EmbLinux.DesignLockFree.Stack
