import EmbLinux.Lib.Lifo
import EmbLinux.Lib.Monitor

/-!
# EmbLinux — `threadsafe_stack`

The stack behind one mutex, and `thread_safe_stack` of `parallel_quick_sort`, which differs
from it only in what `pop` does with an empty stack. A call is an operation of a monitor:
its region under the mutex is one step. `fits` says whether the allocation that the region
makes succeeds; it throws `std::bad_alloc` if not.

* `lifoStack` — what the calls of a stack mean, one after the other;
* `object_eq` — the regions do what `lifoStack` says;
* `threadsafe_stack_contract` — so the calls are linearizable to `lifoStack`, and a call that
  throws leaves the stack as it was.
-/

namespace EmbLinux.DesignLockBase.Stack

-- ---------------------------------------------------------------------------
-- The operations
-- ---------------------------------------------------------------------------

/-- `popPointer` is the overload that returns a `shared_ptr<T>`, `popValue` the one that
assigns to a `T&`, and `copy` the copy constructor, with the stack as its argument. -/
inductive Op (α : Type*)
  | push (new_value : α) (fits : Bool)
  | popPointer (fits : Bool)
  | popValue
  | empty
  | copy (fits : Bool)
  deriving DecidableEq

/-- How a call ends. `emptyStack` and `badAlloc` are exceptions, `nullPointer` is an empty
`shared_ptr`. -/
inductive Ret (α : Type*)
  | pushed
  | popped (value : α)
  | isEmpty (b : Bool)
  | copied (data : List α)
  | nullPointer
  | emptyStack
  | badAlloc
  deriving DecidableEq

variable {α : Type*}

/-- A region with an answer that leaves the stack as it is. -/
def unchanged (data : List α) (answer : Ret α) : Region (Ret α) (List α) :=
  ⟨data, answer, false⟩

/-- The regions, on `data` with its top first. `onEmpty` is the end of `pop` when there is
nothing to pop. -/
def region (onEmpty : Ret α) (data : List α) : Op α → Region (Ret α) (List α)
  | .push new_value true => ⟨new_value :: data, .pushed, false⟩
  | .push _ false => unchanged data .badAlloc
  | .popPointer fits =>
    match data with
    | [] => unchanged data onEmpty
    -- `make_shared` before `data.pop()`
    | top :: rest => if fits then ⟨rest, .popped top, false⟩ else unchanged data .badAlloc
  | .popValue =>
    match data with
    | [] => unchanged data onEmpty
    | top :: rest => ⟨rest, .popped top, false⟩
  | .empty => unchanged data (.isEmpty data.isEmpty)
  | .copy fits => unchanged data (if fits then .copied data else .badAlloc)

/-- The regions of the class as one monitor; `onEmpty` is what the empty stack answers. -/
def stack (onEmpty : Ret α) : Monitor (Op α) (Ret α) (List α) where
  init := []
  region data op := some (region onEmpty data op)

/-- `threadsafe_stack`, whose `pop` throws `empty_stack`. -/
def threadsafeStack (α : Type*) : Monitor (Op α) (Ret α) (List α) :=
  stack .emptyStack

/-- `thread_safe_stack` of `parallel_quick_sort`, whose `pop` returns an empty pointer. -/
def threadSafeStack (α : Type*) : Monitor (Op α) (Ret α) (List α) :=
  stack .nullPointer

-- ---------------------------------------------------------------------------
-- The abstract stack
-- ---------------------------------------------------------------------------

/-- The top of a stack goes to the caller, if there is one. -/
def lifoPop (onEmpty : Ret α) (items : List α) : List α × Ret α :=
  (items.tail, (items.head?.map .popped).getD onEmpty)

/-- **The specification of the stack**, in which calls follow each other. It does not speak of
the code: a push puts its value on top, a pop of either kind takes the top, a copy has the same
values in the same order, and what finds no memory fails and leaves the stack as it is. -/
def lifoStack (onEmpty : Ret α) : Object (Op α) (Option (Ret α)) (List α) where
  init := []
  apply items op :=
    match op with
    | .push new_value true => ([new_value] ++ items, some .pushed)
    | .popPointer true | .popValue => (lifoPop onEmpty items).map id some
    | .empty => (items, some (.isEmpty (items.length == 0)))
    | .copy true => (items, some (.copied items))
    | .push _ false | .copy false => (items, some .badAlloc)
    -- an empty stack is noticed before the memory is
    | .popPointer false => (items, some (if items.length = 0 then onEmpty else .badAlloc))

/-- The regions under the mutex do what the specification says. -/
theorem object_eq (onEmpty : Ret α) : (stack onEmpty).object = lifoStack onEmpty := by
  refine Monitor.object_eq_of_apply rfl ?_
  intro data op
  cases op with
  | push new_value fits | copy fits => cases fits <;> rfl
  | popPointer fits => cases data <;> cases fits <;> rfl
  | popValue | empty => cases data <;> rfl

-- ---------------------------------------------------------------------------
-- The sequential order
-- ---------------------------------------------------------------------------

/-- The value that an operation of the order has pushed. -/
def pushed? (e : Entry (Op α) (Option (Ret α))) : Option α :=
  match e.op, e.result with
  | .push new_value _, some .pushed => some new_value
  | _, _ => none

/-- The value that it has popped. -/
def popped? (e : Entry (Op α) (Option (Ret α))) : Option α :=
  match e.result with
  | some (.popped value) => some value
  | _ => none

/-- The answers that say that nothing happened. -/
def Ret.failed : Ret α → Bool
  | .nullPointer | .emptyStack | .badAlloc => true
  | _ => false

/-- The stack and the history of a sequential order. -/
def replay (data : List α) (log : List (Entry (Op α) (Option (Ret α)))) : Lifo α where
  items := data
  pushed := log.filterMap pushed?
  popped := log.filterMap popped?

variable {onEmpty : Ret α} {data : List α} {log : List (Entry (Op α) (Option (Ret α)))}
  {e : Entry (Op α) (Option (Ret α))}

/-- What an empty stack answers is no value. -/
def NoValue (onEmpty : Ret α) : Prop :=
  onEmpty.failed = true

/-- One more operation is noted behind the others. -/
theorem replay_concat (data : List α) (log : List (Entry (Op α) (Option (Ret α))))
    (e : Entry (Op α) (Option (Ret α))) :
    replay data (log ++ [e]) =
      ⟨data, (replay data log).pushed ++ (pushed? e).toList,
        (replay data log).popped ++ (popped? e).toList⟩ := by
  unfold replay
  rw [List.filterMap_append, List.filterMap_append]
  rfl

/-- An operation that neither pushes nor pops. -/
theorem lifo_of_neither (h : (Lifo.system α).Reachable (replay data log))
    (hPushed : pushed? e = none) (hPopped : popped? e = none) :
    (Lifo.system α).Reachable (replay data (log ++ [e])) := by
  rw [replay_concat, hPushed, hPopped, Option.toList_none, List.append_nil, List.append_nil]
  exact h

/-- An operation that removes the top is the pop of the stack, -/
theorem lifo_of_pop {top : α} {rest : List α}
    (h : (Lifo.system α).Reachable (replay (top :: rest) log)) (hPushed : pushed? e = none)
    (hPopped : popped? e = some top) :
    (Lifo.system α).Reachable (replay rest (log ++ [e])) := by
  have hPop := h.exec (Lifo.exec_pop (q := replay (top :: rest) log) rfl)
  rw [replay_concat, hPushed, hPopped, Option.toList_none, List.append_nil]
  exact hPop

/-- and one that puts a value on top is its push. -/
theorem lifo_of_push {new_value : α} (h : (Lifo.system α).Reachable (replay data log))
    (hPushed : pushed? e = some new_value) (hPopped : popped? e = none) :
    (Lifo.system α).Reachable (replay (new_value :: data) (log ++ [e])) := by
  have hPush := h.exec (Lifo.exec_push (replay data log) new_value)
  rw [replay_concat, hPushed, hPopped, Option.toList_none, List.append_nil]
  exact hPush

/-- The answer of the empty stack is no value. -/
theorem pop_of_noValue (hEmpty : NoValue onEmpty) (hResult : e.result = some onEmpty) :
    popped? e = none := by
  unfold NoValue Ret.failed at hEmpty
  unfold popped?
  rw [hResult]
  split
  · next value hEq =>
    obtain rfl := Option.some.inj hEq
    simp at hEmpty
  · rfl

/-- One operation of the order. -/
theorem lifo_region (hEmpty : NoValue onEmpty)
    (h : (Lifo.system α).Reachable (replay data log))
    (hResult : e.result = some (region onEmpty data e.op).answer) :
    (Lifo.system α).Reachable (replay (region onEmpty data e.op).object (log ++ [e])) := by
  obtain ⟨id, op, result⟩ := e
  replace hResult : result = some (region onEmpty data op).answer := hResult
  subst hResult
  show (Lifo.system α).Reachable (replay (region onEmpty data op).object _)
  cases op with
  | push new_value fits =>
    cases fits with
    | true => exact lifo_of_push h rfl rfl
    | false => exact lifo_of_neither h rfl rfl
  | popPointer fits =>
    cases data with
    | nil => exact lifo_of_neither h rfl (pop_of_noValue hEmpty rfl)
    | cons top rest =>
      cases fits with
      | true => exact lifo_of_pop h rfl rfl
      | false => exact lifo_of_neither h rfl rfl
  | popValue =>
    cases data with
    | nil => exact lifo_of_neither h rfl (pop_of_noValue hEmpty rfl)
    | cons top rest => exact lifo_of_pop h rfl rfl
  | empty => exact lifo_of_neither h rfl rfl
  | copy fits => cases fits <;> exact lifo_of_neither h rfl rfl

/-- A sequential order is a run of a last-in first-out stack. -/
theorem lifo_of_legal (hEmpty : NoValue onEmpty) (h : (stack onEmpty).object.Legal log) :
    (Lifo.system α).Reachable (replay ((stack onEmpty).object.after log) log) := by
  refine h.rule (P := fun log data => (Lifo.system α).Reachable (replay data log)) .init ?_
  intro log e hLog hResult
  exact lifo_region hEmpty hLog hResult

/-- An operation that failed has changed nothing. -/
theorem object_of_failed {op : Op α} {answer : Ret α}
    (hAnswer : (region onEmpty data op).answer = answer) (hFailed : answer.failed = true) :
    (region onEmpty data op).object = data := by
  subst hAnswer
  cases op with
  | push new_value fits =>
    cases fits with
    | true => simp [region, Ret.failed] at hFailed
    | false => rfl
  | popPointer fits =>
    cases data with
    | nil => rfl
    | cons top rest =>
      cases fits with
      | true => simp [region, Ret.failed] at hFailed
      | false => rfl
  | popValue =>
    cases data with
    | nil => rfl
    | cons top rest => simp [region, Ret.failed] at hFailed
  | empty | copy => rfl

-- ---------------------------------------------------------------------------
-- The contract
-- ---------------------------------------------------------------------------

variable {τ : Type*} [DecidableEq τ]
  {x : Monitor.State τ (Op α) (Ret α) (List α) × Record τ (Op α) (Option (Ret α))}

/-- What the stack promises in every state. -/
structure StackContract (onEmpty : Ret α)
    (x : Monitor.State τ (Op α) (Ret α) (List α) × Record τ (Op α) (Option (Ret α))) : Prop where
  /-- The history is explained by a sequential order of the specification, which leads to the
  stack as it is; the values in it were pushed and popped last in first out. -/
  linearizable : ∃ log, (lifoStack onEmpty).Explains log x.2.history ∧
    (lifoStack onEmpty).after log = x.1.object ∧
    (Lifo.system α).Reachable (replay x.1.object log)
  /-- In such an order, an operation with an exception or an empty pointer changes nothing. -/
  unchanged : ∀ before e rest answer, (lifoStack onEmpty).Legal (before ++ e :: rest) →
    e.result = some answer → answer.failed = true →
    (lifoStack onEmpty).after (before ++ [e]) = (lifoStack onEmpty).after before
  /-- Every call goes on until it has returned. -/
  returns : (∀ t pick, Monitor.run (stack onEmpty) x.1 t pick = none) → ∀ t, x.1.pc t = .idle

/-- The contract, for both classes: they differ in what the empty stack answers. -/
theorem contract_of_noValue (hEmpty : NoValue onEmpty)
    (h : (Monitor.recorded τ (stack onEmpty)).Reachable x) : StackContract onEmpty x := by
  refine ⟨?_, ?_, ?_⟩
  · obtain ⟨log, hLog, hObject⟩ := Monitor.monitor_linearizable h
    have hLifo := lifo_of_legal hEmpty hLog.legal
    rw [← hObject] at hLifo
    rw [object_eq] at hLog hObject
    exact ⟨log, hLog, hObject.symm, hLifo⟩
  · rw [← object_eq]
    intro before e rest answer hLegal hResult hFailed
    have hAnswer := hLegal before e rest rfl
    rw [hResult] at hAnswer
    rw [Object.after_concat]
    exact object_of_failed (Option.some.inj hAnswer).symm hFailed
  · intro hStuck t
    exact Monitor.idle_of_stuck (fun _ _ => rfl) (Monitor.recorded_state h) hStuck t

/-- **`threadsafe_stack` keeps the contract**, for any number of threads, whatever they call and
whichever allocation fails. The histories are compared with a stack that is defined apart from
the regions; a `pop` of the empty stack throws, and is answered so. -/
theorem threadsafe_stack_contract (h : (Monitor.recorded τ (threadsafeStack α)).Reachable x) :
    StackContract .emptyStack x :=
  contract_of_noValue rfl h

/-- The same for the stack of `parallel_quick_sort`. -/
theorem thread_safe_stack_contract (h : (Monitor.recorded τ (threadSafeStack α)).Reachable x) :
    StackContract .nullPointer x :=
  contract_of_noValue rfl h

/-- Two threads push, one pops without memory for it and then with the other overload, and
the last pop finds the stack empty. -/
theorem threadsafe_stack_contract_two :
    ∃ x : Monitor.State Bool (Op Nat) (Ret Nat) (List Nat) × Record Bool (Op Nat) _,
      (Monitor.recorded Bool (threadsafeStack Nat)).Reachable x ∧
      x.2.history.filterMap (fun e => match e with | .ret _ r => r | .call .. => none) =
        [.pushed, .pushed, .badAlloc, .popped 7, .popped 8, .emptyStack] ∧
      StackContract .emptyStack x := by
  obtain ⟨x, hx, hHistory⟩ := System.exists_reachable_of_exec
    (S := Monitor.recorded Bool (threadsafeStack Nat))
    (p := fun x =>
      x.2.history.filterMap (fun e => match e with | .ret _ r => r | .call .. => none) =
        [.pushed, .pushed, .badAlloc, .popped 7, .popped 8, .emptyStack])
    (List.flatten [[.call true (.push 7 true), .call false (.push 8 true)],
      List.replicate 3 (.run false 0), List.replicate 3 (.run true 0),
      [.call true (.popPointer false)], List.replicate 3 (.run true 0),
      [.call true .popValue], List.replicate 3 (.run true 0),
      [.call false (.popPointer true)], List.replicate 3 (.run false 0),
      [.call false (.popPointer true)], List.replicate 3 (.run false 0)]) (by decide +kernel)
  exact ⟨x, hx, hHistory, threadsafe_stack_contract hx⟩

end EmbLinux.DesignLockBase.Stack
