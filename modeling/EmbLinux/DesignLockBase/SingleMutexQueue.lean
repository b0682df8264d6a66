import EmbLinux.Lib.Fifo
import EmbLinux.Lib.Monitor
import Mathlib.Data.Fintype.Basic

/-!
# EmbLinux — `threadsafe_queue_single_mutex`

The queue behind one mutex, with a condition variable: a monitor whose `wait_and_pop` waits
while the queue is empty and whose `push` notifies before it unlocks. `fits` says whether
`data_queue.push` finds memory. A call of `push` whose `make_shared` throws does not get to
the mutex and is no call of the model.

* `fifoQueue` — what the calls of a queue mean, one after the other;
* `object_eq` — the regions do what `fifoQueue` says;
* `single_mutex_queue_contract` — so the calls are linearizable to `fifoQueue`;
* `waiters_woken` — no wake-up is lost, unlike in `threadsafe_queue_fine_grained`, whose
  `push` notifies without the mutex of the consumers.

No fairness is assumed: `waiters_woken` says that a value is never left with nobody on the way
to it, not that the woken consumer is the one that gets it.
-/

namespace EmbLinux.DesignLockBase.SingleMutexQueue

-- ---------------------------------------------------------------------------
-- The operations
-- ---------------------------------------------------------------------------

/-- The overload that returns a `shared_ptr<T>`, or the one that assigns to a `T&`. -/
inductive Overload
  | pointer
  | value
  deriving DecidableEq

/-- The calls, with what their allocation does: a `push` whose allocation fails does not get to
the list. -/
inductive Op (α : Type*)
  | push (new_value : α) (fits : Bool)
  | waitAndPop (o : Overload)
  | tryPop (o : Overload)
  | empty
  deriving DecidableEq

/-- How a call ends. `popped none` is a null pointer or `false`, `badAlloc` an exception. -/
inductive Ret (α : Type*)
  | pushed
  | popped (res : Option α)
  | isEmpty (b : Bool)
  | badAlloc
  deriving DecidableEq

variable {α : Type*}

/-- The regions, on `data_queue` with its front first. Both overloads of a pop take the
front. -/
def region (data_queue : List α) : Op α → Option (Region (Ret α) (List α))
  | .push new_value true => some ⟨data_queue ++ [new_value], .pushed, true⟩
  | .push _ false => some ⟨data_queue, .badAlloc, false⟩
  | .waitAndPop _ =>
    match data_queue with
    | [] => none
    | front :: rest => some ⟨rest, .popped (some front), false⟩
  | .tryPop _ =>
    match data_queue with
    | [] => some ⟨data_queue, .popped none, false⟩
    | front :: rest => some ⟨rest, .popped (some front), false⟩
  | .empty => some ⟨data_queue, .isEmpty data_queue.isEmpty, false⟩

/-- The regions of the class as one monitor. -/
def queue (α : Type*) : Monitor (Op α) (Ret α) (List α) where
  init := []
  region := region

-- ---------------------------------------------------------------------------
-- The abstract queue
-- ---------------------------------------------------------------------------

/-- **The specification of the queue**, in which calls follow each other. It does not speak of
the code: a push puts its value at the end, a pop of any kind takes the front, and the
`wait_and_pop` that would come at an empty queue has no answer there. -/
def fifoQueue (α : Type*) : Object (Op α) (Option (Ret α)) (List α) where
  init := []
  apply items op :=
    match op with
    | .push new_value true => (items.concat new_value, some .pushed)
    | .push _ false => (items, some .badAlloc)
    | .tryPop _ => (items.tail, some (.popped items.head?))
    | .waitAndPop _ => (items.tail, items.head?.map fun value => .popped (some value))
    | .empty => (items, some (.isEmpty (items.length == 0)))

/-- The regions under the mutex do what the specification says. -/
theorem object_eq (α : Type*) : (queue α).object = fifoQueue α := by
  refine Monitor.object_eq_of_apply rfl ?_
  intro data_queue op
  cases op with
  | push new_value fits =>
    cases fits
    · rfl
    · show (data_queue ++ [new_value], _) = (data_queue.concat new_value, _)
      rw [List.concat_eq_append]
  | waitAndPop o | tryPop o | empty => cases data_queue <;> rfl

-- ---------------------------------------------------------------------------
-- The sequential order
-- ---------------------------------------------------------------------------

/-- The value that an operation of the order has pushed. -/
def pushed? (e : Entry (Op α) (Option (Ret α))) : Option α :=
  match e.op, e.result with
  | .push new_value _, some .pushed => some new_value
  | _, _ => none

/-- The value that it has popped. -/
def popped? (e : Entry (Op α) (Option (Ret α))) : Option α :=
  match e.result with
  | some (.popped res) => res
  | _ => none

/-- The queue and the history of a sequential order. -/
def replay (data_queue : List α) (log : List (Entry (Op α) (Option (Ret α)))) : Fifo α where
  items := data_queue
  pushed := log.filterMap pushed?
  popped := log.filterMap popped?

/-- An unbounded queue. -/
abbrev fifo (α : Type*) : System (Fifo α) (Fifo.Op α) :=
  Fifo.system α fun _ => true

variable {data_queue : List α} {log : List (Entry (Op α) (Option (Ret α)))}
  {e : Entry (Op α) (Option (Ret α))}

/-- One more operation is noted behind the others. -/
theorem replay_concat (data_queue : List α) (log : List (Entry (Op α) (Option (Ret α))))
    (e : Entry (Op α) (Option (Ret α))) :
    replay data_queue (log ++ [e]) =
      ⟨data_queue, (replay data_queue log).pushed ++ (pushed? e).toList,
        (replay data_queue log).popped ++ (popped? e).toList⟩ := by
  unfold replay
  rw [List.filterMap_append, List.filterMap_append]
  rfl

/-- An operation that neither pushes nor pops. -/
theorem fifo_of_neither (h : (fifo α).Reachable (replay data_queue log))
    (hPushed : pushed? e = none) (hPopped : popped? e = none) :
    (fifo α).Reachable (replay data_queue (log ++ [e])) := by
  rw [replay_concat, hPushed, hPopped, Option.toList_none, List.append_nil, List.append_nil]
  exact h

/-- An operation that removes the front is the pop of the FIFO queue, -/
theorem fifo_of_pop {front : α} {rest : List α}
    (h : (fifo α).Reachable (replay (front :: rest) log)) (hPushed : pushed? e = none)
    (hPopped : popped? e = some front) : (fifo α).Reachable (replay rest (log ++ [e])) := by
  have hPop := h.exec (Fifo.exec_pop (q := replay (front :: rest) log) rfl)
  rw [replay_concat, hPushed, hPopped, Option.toList_none, List.append_nil]
  exact hPop

/-- and one that appends a value is its push. -/
theorem fifo_of_push {new_value : α} (h : (fifo α).Reachable (replay data_queue log))
    (hPushed : pushed? e = some new_value) (hPopped : popped? e = none) :
    (fifo α).Reachable (replay (data_queue ++ [new_value]) (log ++ [e])) := by
  have hPush := h.exec (Fifo.exec_push (q := replay data_queue log) (v := new_value) rfl)
  rw [replay_concat, hPushed, hPopped, Option.toList_none, List.append_nil]
  exact hPush

/-- One operation of the order. -/
theorem fifo_apply (h : (fifo α).Reachable (replay data_queue log))
    (hResult : e.result = ((queue α).object.apply data_queue e.op).2) :
    (fifo α).Reachable (replay ((queue α).object.apply data_queue e.op).1 (log ++ [e])) := by
  obtain ⟨id, op, result⟩ := e
  replace hResult : result = ((queue α).object.apply data_queue op).2 := hResult
  subst hResult
  show (fifo α).Reachable (replay ((queue α).object.apply data_queue op).1 _)
  cases op with
  | push new_value fits =>
    cases fits with
    | true => exact fifo_of_push h rfl rfl
    | false => exact fifo_of_neither h rfl rfl
  | waitAndPop o | tryPop o =>
    cases data_queue with
    | nil => exact fifo_of_neither h rfl rfl
    | cons front rest => exact fifo_of_pop h rfl rfl
  | empty => exact fifo_of_neither h rfl rfl

/-- A sequential order is a run of a first-in first-out queue. -/
theorem fifo_of_legal (h : (queue α).object.Legal log) :
    (fifo α).Reachable (replay ((queue α).object.after log) log) := by
  refine h.rule (P := fun log data_queue => (fifo α).Reachable (replay data_queue log)) .init ?_
  intro log e hLog hResult
  exact fifo_apply hLog hResult

-- ---------------------------------------------------------------------------
-- The contract
-- ---------------------------------------------------------------------------

variable {τ : Type*} [DecidableEq τ] {s : Monitor.State τ (Op α) (Ret α) (List α)}
  {x : Monitor.State τ (Op α) (Ret α) (List α) × Record τ (Op α) (Option (Ret α))}

/-- An operation with an answer did not have to wait. -/
theorem not_empty_of_answer {before rest : List (Entry (Op α) (Option (Ret α)))} {o : Overload}
    {answer : Ret α} (hLegal : (queue α).object.Legal (before ++ e :: rest))
    (hOp : e.op = .waitAndPop o) (hResult : e.result = some answer) :
    (queue α).object.after before ≠ [] := by
  intro hEmpty
  have hAnswer := hLegal before e rest rfl
  rw [hEmpty, hOp, hResult] at hAnswer
  simp [Monitor.object, queue, region] at hAnswer

/-- What the queue promises of its history. -/
structure QueueContract
    (x : Monitor.State τ (Op α) (Ret α) (List α) × Record τ (Op α) (Option (Ret α))) : Prop where
  /-- The history is explained by a sequential order of the specification, which leads to the
  queue as it is. The values popped in it, followed by those in the queue, are the values
  pushed in it, and no `wait_and_pop` that has returned comes at an empty queue. -/
  linearizable : ∃ log, (fifoQueue α).Explains log x.2.history ∧
    (fifoQueue α).after log = x.1.object ∧
    log.filterMap pushed? = log.filterMap popped? ++ x.1.object ∧
    ∀ before e rest o r, log = before ++ e :: rest → e.op = .waitAndPop o →
      .ret e.id r ∈ x.2.history → (fifoQueue α).after before ≠ []

/-- **The calls of the queue are linearizable**, for any number of threads, whatever they call,
with spurious wake-ups and any choice of the thread that a notification wakes. The object they
are compared with is a FIFO queue of its own, not the regions under test; allocations may fail.
-/
theorem single_mutex_queue_contract (h : (Monitor.recorded τ (queue α)).Reachable x) :
    QueueContract x := by
  obtain ⟨log, hLog, hObject⟩ := Monitor.monitor_linearizable h
  have hFifo := Fifo.pushed_eq (fifo_of_legal hLog.legal)
  refine ⟨log, object_eq α ▸ hLog, (object_eq α ▸ hObject).symm, ?_, ?_⟩
  · rw [hObject]
    exact hFifo
  · rw [← object_eq]
    intro before e rest o r hSplit hOp hRet
    have hMem : e ∈ log := hSplit ▸ List.mem_append_right _ List.mem_cons_self
    obtain ⟨e', he', hId, hResult⟩ := hLog.answered e.id r hRet
    obtain rfl := hLog.eq_of_id he' hMem hId
    obtain ⟨answer, rfl⟩ := Monitor.answered_some h hRet
    exact not_empty_of_answer (hSplit ▸ hLog.legal) hOp hResult

-- ---------------------------------------------------------------------------
-- Wake-ups
-- ---------------------------------------------------------------------------

/-- A `push` makes room for one `wait_and_pop` and notifies, a pop takes it. -/
theorem handsOn : Monitor.HandsOn (queue α) List.length := by
  refine ⟨?_, ?_, ?_⟩
  · intro data_queue op hNone
    cases op with
    | push new_value fits => cases fits <;> simp [queue, region] at hNone
    | waitAndPop o | tryPop o => cases data_queue <;> simp_all [queue, region]
    | empty => simp [queue, region] at hNone
  · intro data_queue op r hRegion
    cases op with
    | push new_value fits =>
      cases fits <;> obtain rfl := Option.some.inj hRegion <;> simp
    | waitAndPop o =>
      cases data_queue with
      | nil => simp [queue, region] at hRegion
      | cons front rest =>
        obtain rfl := Option.some.inj hRegion
        simp
    | tryPop o =>
      cases data_queue <;> obtain rfl := Option.some.inj hRegion <;> simp
    | empty =>
      obtain rfl := Option.some.inj hRegion
      simp
  · intro data_queue op r before hNone hRegion
    cases op with
    | push new_value fits => cases fits <;> simp [queue, region] at hNone
    | waitAndPop o =>
      cases data_queue with
      | nil => simp [queue, region] at hRegion
      | cons front rest =>
        obtain rfl := Option.some.inj hRegion
        simp
    | tryPop o => cases before <;> simp [queue, region] at hNone
    | empty => simp [queue, region] at hNone

/-- What holds of the blocked consumers in every state. -/
structure WakeUps (s : Monitor.State τ (Op α) (Ret α) (List α)) : Prop where
  /-- Beside a value there is a woken consumer or a notification for those that are blocked. -/
  covered : s.waiting ≠ [] → s.object ≠ [] →
    ∃ t, (s.pc t).isWoken = true ∨ (s.pc t).isNotifying = true
  /-- As many as there are values, if nobody else takes them. -/
  enough : s.waiting ≠ [] → s.object.length ≤ s.wokens + s.notifies
  /-- When no thread can make a step, each has returned or waits at an empty queue. -/
  stuck : (∀ t pick, Monitor.run (queue α) s t pick = none) → ∀ t, s.pc t = .idle ∨
    (∃ op, s.pc t = .asleep op) ∧ s.object = []

/-- **No wake-up of `threadsafe_queue_single_mutex` is lost**, for any number of producers and
consumers. No fairness is assumed: what is counted are the consumers that have been woken or
notified and are still on their way to the predicate. -/
theorem waiters_woken (h : (Monitor.system τ (queue α)).Reachable s) : WakeUps s := by
  refine ⟨?_, (Monitor.budget_reachable handsOn h).covered, ?_⟩
  · intro hWaiting hValue
    exact Monitor.no_wake_up_lost handsOn h hWaiting (List.length_pos_iff.mpr hValue)
  · intro hStuck t
    rcases Monitor.monitor_not_stuck h hStuck t with hIdle | ⟨op, hpc⟩
    · exact Or.inl hIdle
    · refine Or.inr ⟨⟨op, hpc⟩, ?_⟩
      have hMem : t ∈ s.waiting := ((Monitor.sync_reachable h).blocked t).mpr (by rw [hpc]; rfl)
      exact List.length_eq_zero_iff.mp
        (Monitor.room_of_stuck handsOn h hStuck (List.ne_nil_of_mem hMem))

/-- Two consumers are blocked, a producer pushes and wakes one of them, and a third consumer
takes the value before the woken one: it finds the queue empty and is blocked again. -/
theorem waiters_woken_overtaken :
    ∃ s : Monitor.State (Fin 5) (Op Nat) (Ret Nat) (List Nat),
      (Monitor.system (Fin 5) (queue Nat)).Reachable s ∧ s.waiting = [1, 0] ∧ WakeUps s := by
  obtain ⟨s, hs, hWaiting⟩ := System.exists_reachable_of_exec
    (S := Monitor.system (Fin 5) (queue Nat)) (p := fun s => s.waiting = [1, 0])
    (List.flatten [[.call 0 (.waitAndPop .pointer), .call 1 (.waitAndPop .value),
      .call 2 (.push 5 true),
      .call 3 (.tryPop .value)], List.replicate 2 (.run 0 0), List.replicate 2 (.run 1 0),
      List.replicate 4 (.run 2 0), List.replicate 3 (.run 3 0), List.replicate 2 (.run 0 0)])
    (by decide +kernel)
  exact ⟨s, hs, hWaiting, waiters_woken hs⟩

/-- A consumer that waits gets the value that is pushed, and a `try_pop` none. -/
theorem single_mutex_queue_contract_waiting :
    ∃ x : Monitor.State (Fin 3) (Op Nat) (Ret Nat) (List Nat) × Record (Fin 3) (Op Nat) _,
      (Monitor.recorded (Fin 3) (queue Nat)).Reachable x ∧
      x.2.history.filterMap (fun e => match e with | .ret _ r => r | .call .. => none) =
        [.pushed, .popped (some 5), .popped none] ∧ QueueContract x := by
  obtain ⟨x, hx, hHistory⟩ := System.exists_reachable_of_exec
    (S := Monitor.recorded (Fin 3) (queue Nat))
    (p := fun x =>
      x.2.history.filterMap (fun e => match e with | .ret _ r => r | .call .. => none) =
        [.pushed, .popped (some 5), .popped none])
    (List.flatten [[.call 0 (.waitAndPop .value)], List.replicate 2 (.run 0 0),
      [.call 1 (.push 5 true)], List.replicate 4 (.run 1 0), List.replicate 3 (.run 0 0),
      [.call 2 (.tryPop .pointer)], List.replicate 3 (.run 2 0)]) (by decide +kernel)
  exact ⟨x, hx, hHistory, single_mutex_queue_contract hx⟩

end EmbLinux.DesignLockBase.SingleMutexQueue
