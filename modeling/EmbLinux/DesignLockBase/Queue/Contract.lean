import EmbLinux.DesignLockBase.Queue.Invariant
import EmbLinux.Lib.Linearizable

/-!
# EmbLinux — `threadsafe_queue_fine_grained` as a queue

A `push` has its effect when it assigns `tail`, a pop when it moves out of `head`, and
`empty` and a `try_pop` that fails when they read `tail`. `queue_contract` puts the list,
the numbers of the values and the histories together, for every run.

## Results

* `tickets_effect`, `tickets_reachable` — where each value is, before, in and after the list.
* `run_moves`, `step_moves` — an access is the effect of its call on a queue, or none.
* `queue_contract` — no node that is not allocated is accessed, the list is in order except in
  the two intervals that `list_not_always_in_order` shows, and the calls are linearizable.
-/

namespace EmbLinux.DesignLockBase.Queue

variable {τ α : Type*} [DecidableEq τ] {s s' : State τ α} {a : Action τ α} {t u : τ}
  {l : List Nat} {pc : Pc (Numbered α)}

-- ---------------------------------------------------------------------------
-- Numbers
-- ---------------------------------------------------------------------------

/-- The value that a `push` has not put into the queue yet. -/
def Pc.pending {β : Type*} : Pc β → Option β
  | .pushNew data | .pushLock data _ | .pushData data _ | .pushNext data _ | .pushTail data _ =>
    some data
  | _ => none

/-- Each call of `push` has a number of its own. -/
structure Tickets (s : State τ α) : Prop where
  bound : ∀ x ∈ s.pushed, x.1 < s.calls
  /-- No value is in the history of pushes twice. -/
  nodup : (s.pushed.map Prod.fst).Nodup
  /-- The value of a running `push` is not in it yet, -/
  pending : ∀ t x, (s.pc t).pending = some x → x.1 < s.calls ∧ x.1 ∉ s.pushed.map Prod.fst
  /-- and no other `push` has it. -/
  one : ∀ t u x y, (s.pc t).pending = some x → (s.pc u).pending = some y → x.1 = y.1 → t = u

/-- Steps that bring no value and put none into the queue. -/
theorem Tickets.stay (h : Tickets s) (hPc : s'.pc = Function.update s.pc t pc)
    (hKeep : pc.pending = (s.pc t).pending) (hPushed : s'.pushed = s.pushed)
    (hCalls : s'.calls = s.calls) : Tickets s' := by
  have hPending : ∀ u, (s'.pc u).pending = (s.pc u).pending :=
    observe_update Pc.pending hPc hKeep
  refine ⟨?_, ?_, ?_, ?_⟩
  · rw [hPushed, hCalls]
    exact h.bound
  · rw [hPushed]
    exact h.nodup
  · intro u x hu
    rw [hPushed, hCalls]
    exact h.pending u x (hPending u ▸ hu)
  · exact fun u v x y hu hv => h.one u v x y (hPending u ▸ hu) (hPending v ▸ hv)

/-- A call of `push` numbers its value, -/
theorem Tickets.callPush (h : Tickets s) (t : τ) (data : α) :
    Tickets { s.setPc t (.pushNew (s.calls, data)) with calls := s.calls + 1 } := by
  have hCases : ∀ u x, (Function.update s.pc t (.pushNew (s.calls, data)) u).pending = some x →
      (u = t ∧ x.1 = s.calls) ∨ (s.pc u).pending = some x := by
    intro u x hu
    rcases update_at s.pc t (.pushNew (s.calls, data)) u with ⟨hut, hAt⟩ | ⟨-, hAt⟩ <;>
      rw [hAt] at hu
    · cases hu
      exact Or.inl ⟨hut, rfl⟩
    · exact Or.inr hu
  have hNew : ∀ u x, (s.pc u).pending = some x → x.1 ≠ s.calls :=
    fun u x hu => Nat.ne_of_lt (h.pending u x hu).1
  refine ⟨?_, h.nodup, ?_, ?_⟩
  · exact fun x hx => Nat.lt_succ_of_lt (h.bound x hx)
  · intro u x hu
    rcases hCases u x hu with ⟨-, hx⟩ | hu
    · rw [hx]
      refine ⟨Nat.lt_succ_self _, ?_⟩
      intro hMem
      obtain ⟨y, hy, hEq⟩ := List.mem_map.mp hMem
      exact Nat.ne_of_lt (h.bound y hy) hEq
    · obtain ⟨hLt, hOut⟩ := h.pending u x hu
      exact ⟨Nat.lt_succ_of_lt hLt, hOut⟩
  · intro u v x y hu hv hEq
    rcases hCases u x hu with ⟨hut, hx⟩ | hu <;> rcases hCases v y hv with ⟨hvt, hy⟩ | hv
    · rw [hut, hvt]
    · exact absurd (hEq.symm.trans hx) (hNew v y hv)
    · exact absurd (hEq.trans hy) (hNew u x hu)
    · exact h.one u v x y hu hv hEq

/-- and the assignment of `tail` is where the value enters the queue. -/
theorem Tickets.pushTail {data : Numbered α} {p : Nat} (h : Tickets s)
    (hpc : s.pc t = .pushTail data p) : Tickets ((s.assignTail data p).setPc t .pushUnlock) := by
  have hMine : (s.pc t).pending = some data := by rw [hpc]; rfl
  obtain ⟨hLt, hOut⟩ := h.pending t data hMine
  have hCases : ∀ u x, (Function.update s.pc t .pushUnlock u).pending = some x →
      u ≠ t ∧ (s.pc u).pending = some x := by
    intro u x hu
    rcases update_at s.pc t .pushUnlock u with ⟨-, hAt⟩ | ⟨hut, hAt⟩ <;> rw [hAt] at hu
    · cases hu
    · exact ⟨hut, hu⟩
  refine ⟨?_, ?_, ?_, ?_⟩
  · intro x hx
    rcases List.mem_append.mp hx with hx | hx
    · exact h.bound x hx
    · rw [List.mem_singleton.mp hx]
      exact hLt
  · show ((s.pushed ++ [data]).map Prod.fst).Nodup
    rw [List.map_append]
    refine List.nodup_append'.mpr ⟨h.nodup, List.nodup_singleton _, ?_⟩
    exact fun n hn hData => hOut (List.mem_singleton.mp hData ▸ hn)
  · intro u x hu
    obtain ⟨hut, hu⟩ := hCases u x hu
    obtain ⟨hLtX, hOutX⟩ := h.pending u x hu
    refine ⟨hLtX, ?_⟩
    show x.1 ∉ (s.pushed ++ [data]).map Prod.fst
    rw [List.map_append]
    intro hMem
    rcases List.mem_append.mp hMem with hMem | hMem
    · exact hOutX hMem
    · exact hut (h.one u t x data hu hMine (List.mem_singleton.mp hMem))
  · intro u v x y hu hv
    exact h.one u v x y (hCases u x hu).2 (hCases v y hv).2

omit [DecidableEq τ] in
/-- The accesses that change no pointer change no value on the way, -/
theorem Quiet.pending {pc pc' : Pc (Numbered α)} (h : Quiet s t pc pc') :
    pc'.pending = pc.pending := by
  cases h <;> rfl

/-- nor does the unlocking of `head_mutex`, -/
theorem HeadUnlock.pending {pc pc' : Pc (Numbered α)} (h : HeadUnlock pc pc') :
    pc'.pending = pc.pending := by
  cases h <;> rfl

/-- nor that of `tail_mutex`. -/
theorem TailLock.pending {pc pc' : Pc (Numbered α)} (h : TailLock pc pc') :
    pc'.pending = pc.pending := by
  cases h <;> rfl

/-- A case for each effect. -/
theorem tickets_effect (h : Tickets s) (he : Effect s t s') : Tickets s' := by
  have hStay : ∀ {s₁ : State τ α} {pc pc' : Pc (Numbered α)}, s.pc t = pc →
      s₁.pc = Function.update s.pc t pc' → pc'.pending = pc.pending → s₁.pushed = s.pushed →
      s₁.calls = s.calls → Tickets s₁ := by
    intro s₁ pc pc' hpc hPc hKeep hPushed hCalls
    exact h.stay hPc (hpc ▸ hKeep) hPushed hCalls
  cases he with
  | quiet hQuiet => exact hStay rfl rfl hQuiet.pending rfl rfl
  | callPush hpc => exact h.callPush t _
  | wake hMem => exact h.stay (Function.update_eq_self t s.pc).symm rfl rfl rfl
  | headLock hpc hFree => exact hStay hpc rfl rfl rfl rfl
  | headUnlock hUnlock => exact hStay rfl rfl hUnlock.pending rfl rfl
  | tailLock hLock hFree => exact hStay rfl rfl hLock.pending rfl rfl
  | getUnlock hpc => exact hStay hpc rfl rfl rfl rfl
  | getRead hpc => exact hStay hpc rfl rfl rfl rfl
  | waitBlock hpc => exact hStay hpc rfl rfl rfl rfl
  | alloc hpc hZero hFree => exact hStay hpc rfl rfl rfl rfl
  | pushData hpc => exact hStay hpc rfl rfl rfl rfl
  | pushNext hpc => exact hStay hpc rfl rfl rfl rfl
  | pushTail hpc => exact h.pushTail hpc
  | pushUnlock hpc => exact hStay hpc rfl rfl rfl rfl
  | notifyNone hpc hEmpty => exact hStay hpc rfl rfl rfl rfl
  | notify hpc hMem => exact hStay hpc rfl rfl rfl rfl
  | popMove hpc => exact hStay hpc rfl rfl rfl rfl
  | popNext hpc => exact hStay hpc rfl rfl rfl rfl
  | popHead hpc => exact hStay hpc rfl rfl rfl rfl
  | popDelete hpc => exact hStay hpc rfl rfl rfl rfl

omit [DecidableEq τ] in
/-- Nothing has been pushed. -/
theorem tickets_init : Tickets (init τ α) := by
  refine ⟨fun x hx => absurd hx List.not_mem_nil, List.nodup_nil, ?_, ?_⟩
  · intro t x hx
    cases hx
  · intro t u x y hx
    cases hx

-- ---------------------------------------------------------------------------
-- The abstract queue
-- ---------------------------------------------------------------------------

/-- The calls of the queue. -/
inductive Call (α : Type*)
  | push (data : α)
  | head (c : HeadCall)
  deriving DecidableEq

/-- The answers of a queue; `blocked` is that of a wait on an empty one, and no call
returns with it. -/
inductive Answer (α : Type*)
  | popped (res : Option α)
  | isEmpty (b : Bool)
  | pushed
  | blocked
  deriving DecidableEq

/-- The queue that the calls are compared with. A `wait_and_pop` of the empty queue would be
answered `blocked`, which no call is: so it takes effect at a queue with a value. -/
def fifoQueue (α : Type*) : Object (Call α) (Answer α) (List α) where
  init := []
  apply
    | items, .push data => (items ++ [data], .pushed)
    | items, .head .empty => (items, .isEmpty items.isEmpty)
    | [], .head (.tryPop _) => ([], .popped none)
    | [], .head (.waitAndPop _) => ([], .blocked)
    | data :: rest, .head _ => (rest, .popped (some data))

/-- Return values without the numbers that history adds. -/
def Ret.answer : Ret (Numbered α) → Answer α
  | .popped res => .popped (res.map Prod.snd)
  | .isEmpty b => .isEmpty b
  | .pushed => .pushed

/-- The call that begins with an action. -/
def calls : Action τ α → Option (τ × Call α)
  | .callPush t data => some (t, .push data)
  | .call t c => some (t, .head c)
  | .run .. | .wakeUp _ => none

/-- The return value with which a step ends a call. -/
def rets (_ : State τ α) : Action τ α → State τ α → Option (τ × Answer α)
  | .run t _ _, s' =>
    match s'.pc t with
    | .idle (some ret) => some (t, ret.answer)
    | _ => none
  | _, _ => none

/-- Where a call stands once it has read `tail`. -/
def HeadCall.seen : HeadCall → Bool → Stage (Call α) (Answer α)
  | .empty, b => .done (.isEmpty b)
  | .tryPop _, true => .done (.popped none)
  | .tryPop o, false => .pending (.head (.tryPop o))
  | .waitAndPop o, _ => .pending (.head (.waitAndPop o))

/-- What a thread still owes at its program point: the operation, or its answer once it has
taken effect. -/
def stageAt (s : State τ α) : Pc (Numbered α) → Stage (Call α) (Answer α)
  | .idle _ => .idle
  | .pushNew data | .pushLock data _ | .pushData data _ | .pushNext data _ | .pushTail data _ =>
    .pending (.push data.2)
  | .pushUnlock | .pushNotify => .done .pushed
  | .headLock c | .getLock c | .getRead c | .popValue c | .popMove c _ => .pending (.head c)
  | .getUnlock c r | .compare c r => c.seen (decide (s.head = r))
  | .waitBlock o | .blocked o => .pending (.head (.waitAndPop o))
  | .popNext old _ | .popHead old _ _ | .popUnlock old _ | .popRead old =>
    .done (.popped ((s.data old).map Prod.snd))
  | .popDelete _ res => .done (.popped (res.map Prod.snd))
  | .failUnlock => .done (.popped none)
  | .emptyUnlock b => .done (.isEmpty b)

def stage (s : State τ α) (t : τ) : Stage (Call α) (Answer α) :=
  stageAt s (s.pc t)

omit [DecidableEq τ] in
/-- The stage is about the head, while the thread holds its mutex, and about the node it owns.
-/
theorem stageAt_congr (hHead : pc.inHead = true → s'.head = s.head)
    (hData : ∀ q, pc.owned = some q → s'.data q = s.data q) : stageAt s' pc = stageAt s pc := by
  cases pc with
  | getUnlock c r | compare c r => rw [stageAt, stageAt, hHead rfl]
  | popNext old out | popHead old next out | popUnlock old out | popRead old =>
    rw [stageAt, stageAt, hData old rfl]
  | _ => rfl

/-- A step of another thread leaves `head` to the one that has `head_mutex` locked, and
the data of a node to the one that owns it. -/
theorem memory_frame (hInv : Inv s l) (he : Effect s t s') (hut : u ≠ t) :
    ((s.pc u).inHead = true → s'.head = s.head) ∧
      ∀ q, (s.pc u).owned = some q → s'.data q = s.data q := by
  have hExclusive : (s.pc t).inHead = true → (s.pc u).inHead = true → s'.head = s.head :=
    fun hIn hIn' => absurd (hInv.locks.head.unique hIn' hIn) hut
  cases he with
  | @alloc data p hpc hZero hFree =>
    refine ⟨fun _ => rfl, ?_⟩
    intro q hq
    refine Function.update_of_ne ?_ _ _
    rintro rfl
    rw [(hInv.nodes.owned u q hq).1] at hFree
    cases hFree
  | pushData hpc =>
    refine ⟨fun _ => rfl, ?_⟩
    exact fun q hq => Function.update_of_ne (hInv.nodes.owned u q hq).2.2 _ _
  | popMove hpc => exact ⟨hExclusive (by rw [hpc]; rfl), fun _ _ => rfl⟩
  | popHead hpc => exact ⟨hExclusive (by rw [hpc]; rfl), fun _ _ => rfl⟩
  | _ => exact ⟨fun _ => rfl, fun _ _ => rfl⟩

/-- A step changes the stage of its own thread only. -/
theorem stage_update (hInv : Inv s l) (he : Effect s t s') {x : Stage (Call α) (Answer α)}
    (hOwn : stage s' t = x) : stage s' = Function.update (stage s) t x := by
  funext u
  rcases update_at (stage s) t x u with ⟨rfl, hAt⟩ | ⟨hut, hAt⟩ <;> rw [hAt]
  · exact hOwn
  · rw [stage, pc_frame he hut, stage]
    obtain ⟨hHead, hData⟩ := memory_frame hInv he hut
    exact stageAt_congr hHead hData

/-- A step changes the stage of its own thread only. -/
theorem stage_same (hInv : Inv s l) (he : Effect s t s') (hOwn : stage s' t = stage s t) :
    stage s' = stage s := by
  rw [stage_update hInv he hOwn, Function.update_eq_self]

theorem run_not_idle {fresh pick : Nat} (hst : run s t fresh pick = some s')
    {last : Option (Ret (Numbered α))} : s.pc t ≠ .idle last := by
  intro hpc
  simp [run, hpc] at hst

omit [DecidableEq τ] in
/-- A call is answered when its thread is idle again, -/
theorem rets_of_idle {fresh pick : Nat} {ret : Ret (Numbered α)}
    (h : s'.pc t = .idle (some ret)) : rets s (.run t fresh pick) s' = some (t, ret.answer) := by
  simp only [rets, h]

omit [DecidableEq τ] in
/-- and not before. -/
theorem rets_of_busy {fresh pick : Nat} (h : s'.pc t = pc) (hBusy : ∀ last, pc ≠ .idle last) :
    rets s (.run t fresh pick) s' = none := by
  simp only [rets, h]
  split
  · next ret => exact absurd rfl (hBusy (some ret))
  · rfl

-- ---------------------------------------------------------------------------
-- Steps are moves of the abstract queue
-- ---------------------------------------------------------------------------

/-- The items of the abstract queue, without numbers. -/
def Holds (s : State τ α) (items : List α) : Prop :=
  ∃ l vs, Inv s l ∧ s.pushed = s.popped ++ vs ∧ items = vs.map Prod.snd

section

omit [DecidableEq τ]

/-- The values that are stored are those of the list. -/
theorem Nodes.values {vs : List (Numbered α)} (h : Nodes s l) (hVs : s.pushed = s.popped ++ vs) :
    l.map s.data = vs.map some := by
  have hStored := h.stored
  rw [hVs, List.map_append] at hStored
  exact (List.append_cancel_left hStored).symm

/-- The predicate of `wait`, for a thread that has both mutexes locked. -/
theorem Nodes.empty_iff_nil {vs : List (Numbered α)} (h : Nodes s l) (hLocks : Locks s)
    (hIn : (s.pc t).inHead = true) (hStill : (s.pc t).moving = false)
    (hVs : s.pushed = s.popped ++ vs) : s.head = s.tail ↔ vs = [] := by
  rw [h.empty_iff hLocks hIn hStill, hVs, List.length_append]
  constructor
  · intro hEq
    exact List.eq_nil_of_length_eq_zero (by omega)
  · rintro rfl
    rfl

/-- The value that a pop is about to take is the first one. -/
theorem Inv.next_value {c : HeadCall} {out : Option (Numbered α)} {vs : List (Numbered α)}
    (h : Inv s l) (hpc : s.pc t = .popMove c out) (hVs : s.pushed = s.popped ++ vs) :
    c ≠ .empty ∧ ∃ v rest, vs = v :: rest ∧ s.data s.head = some v := by
  have hOk := h.nodes.pcs t
  rw [hpc] at hOk
  obtain ⟨hCall, ⟨hMem, -⟩, -⟩ := hOk
  obtain ⟨rest, rfl, -⟩ :=
    h.nodes.head_cons h.locks (t := t) (by rw [hpc]; rfl) (by rw [hpc]; rfl) hMem
  have hValues := h.nodes.values hVs
  cases vs with
  | nil => cases hValues
  | cons v vs =>
    rw [List.map_cons, List.map_cons] at hValues
    exact ⟨hCall, v, vs, rfl, (List.cons.inj hValues).1⟩

/-- Quiet accesses change no stage. -/
theorem Quiet.stage {pc pc' : Pc (Numbered α)} (h : Quiet s t pc pc') :
    ((∃ last, pc = .idle last) ∨ stageAt s pc' = stageAt s pc) ∧ ∀ last, pc' ≠ .idle last := by
  have hBusy : ∀ last, pc' ≠ .idle last := by
    intro last hEq
    cases h <;> cases hEq
  refine ⟨?_, hBusy⟩
  cases h with
  | call => exact Or.inl ⟨_, rfl⟩
  | fail hEq =>
    refine Or.inr ?_
    rw [stageAt, stageAt, decide_eq_true hEq]
    rfl
  | take hNe hCall | takeValue hNe hCall =>
    refine Or.inr ?_
    rw [stageAt, stageAt, decide_eq_false hNe]
    rcases hCall with rfl | rfl <;> rfl
  | _ => exact Or.inr rfl

/-- The unlocking of `head_mutex` answers a call that has its result. -/
theorem HeadUnlock.stage {pc pc' : Pc (Numbered α)} (h : HeadUnlock pc pc')
    (hOk : PcOk s l t pc) :
    (∃ ret, pc' = .idle (some ret) ∧ stageAt s pc = .done ret.answer) ∨
      ((∀ last, pc' ≠ .idle last) ∧ stageAt s pc' = stageAt s pc) := by
  cases h with
  | pointer => exact Or.inr ⟨(fun _ hEq => by cases hEq), rfl⟩
  | value =>
    refine Or.inr ⟨(fun _ hEq => by cases hEq), ?_⟩
    rw [stageAt, stageAt, hOk.1.out _ rfl]
  | fail => exact Or.inl ⟨_, rfl, rfl⟩
  | empty => exact Or.inl ⟨_, rfl, rfl⟩

/-- The unlocking of `tail_mutex` answers nothing. -/
theorem TailLock.stage {pc pc' : Pc (Numbered α)} (h : TailLock pc pc') :
    (∀ last, pc' ≠ .idle last) ∧ stageAt s pc' = stageAt s pc := by
  cases h <;> exact ⟨(fun _ hEq => by cases hEq), rfl⟩

end

/-- The step lemma: a step of a call in progress is a move of the abstract queue. -/
theorem run_moves {fresh pick : Nat} {items : List α} (hHolds : Holds s items)
    (hst : run s t fresh pick = some s') :
    ∃ items', Holds s' items' ∧ Moves (fifoQueue α) (stage s) items none
      (rets s (.run t fresh pick) s') (stage s') items' := by
  obtain ⟨l, vs, hInv, hVs, rfl⟩ := hHolds
  have he := run_effect hst
  have hInv' := inv_effect hInv he
  have hHere : ∀ pc : Pc (Numbered α), Function.update s.pc t pc t = pc :=
    fun pc => Function.update_self ..
  -- the steps that neither have an effect nor end the call
  have hStay : ∀ {pc pc' : Pc (Numbered α)}, s.pc t = pc → s'.pc t = pc' →
      s'.pushed = s.pushed → s'.popped = s.popped → (∀ last, pc' ≠ .idle last) →
      stageAt s' pc' = stageAt s pc →
      ∃ items', Holds s' items' ∧ Moves (fifoQueue α) (stage s) (vs.map Prod.snd) none
        (rets s (.run t fresh pick) s') (stage s') items' := by
    intro pc pc' hpc hpc' hPushed hPopped hBusy hSame
    refine ⟨_, ⟨_, vs, hInv', by rw [hPushed, hPopped, hVs], rfl⟩, ?_⟩
    have hOwn : stage s' t = stage s t := by
      rw [stage, hpc', hSame, stage, hpc]
    rw [rets_of_busy hpc' hBusy, stage_same hInv he hOwn]
    exact .stay
  -- the steps that end the call
  have hReturn : ∀ {pc : Pc (Numbered α)} {ret : Ret (Numbered α)}, s.pc t = pc →
      s'.pc t = .idle (some ret) → s'.pushed = s.pushed → s'.popped = s.popped →
      stageAt s pc = .done ret.answer →
      ∃ items', Holds s' items' ∧ Moves (fifoQueue α) (stage s) (vs.map Prod.snd) none
        (rets s (.run t fresh pick) s') (stage s') items' := by
    intro pc ret hpc hpc' hPushed hPopped hDone
    refine ⟨_, ⟨_, vs, hInv', by rw [hPushed, hPopped, hVs], rfl⟩, ?_⟩
    have hOwn : stage s' t = .idle := by
      rw [stage, hpc']
      rfl
    rw [rets_of_idle hpc', stage_update hInv he hOwn]
    refine .ret ?_
    rw [stage, hpc, hDone]
  -- the steps that have an effect
  have hEffect : ∀ (op : Call α) (vs' : List (Numbered α)) {pc pc' : Pc (Numbered α)},
      s.pc t = pc → s'.pc t = pc' → (∀ last, pc' ≠ .idle last) → stageAt s pc = .pending op →
      s'.pushed = s'.popped ++ vs' →
      (fifoQueue α).apply (vs.map Prod.snd) op = (vs'.map Prod.snd, ((fifoQueue α).apply
        (vs.map Prod.snd) op).2) →
      stageAt s' pc' = .done ((fifoQueue α).apply (vs.map Prod.snd) op).2 →
      ∃ items', Holds s' items' ∧ Moves (fifoQueue α) (stage s) (vs.map Prod.snd) none
        (rets s (.run t fresh pick) s') (stage s') items' := by
    intro op vs' pc pc' hpc hpc' hBusy hPending hVs' hApply hDone
    refine ⟨_, ⟨_, vs', hInv', hVs', rfl⟩, ?_⟩
    have hOwn : stage s' t = .done ((fifoQueue α).apply (vs.map Prod.snd) op).2 := by
      rw [stage, hpc', hDone]
    have hStage : stage s t = .pending op := by
      rw [stage, hpc, hPending]
    have hMove : Moves (fifoQueue α) (stage s) (vs.map Prod.snd) none none _ _ :=
      .effect_only hStage
    rw [congrArg Prod.fst hApply] at hMove
    rw [rets_of_busy hpc' hBusy, stage_update hInv he hOwn]
    exact hMove
  cases he with
  | @quiet pc hQuiet =>
    obtain ⟨hIdle | hSame, hBusy⟩ := hQuiet.stage
    · obtain ⟨last, hLast⟩ := hIdle
      exact absurd hLast (run_not_idle hst)
    · exact hStay rfl (hHere pc) rfl rfl hBusy ((stageAt_congr (fun _ => rfl)
        (fun _ _ => rfl)).trans hSame)
  | callPush hpc => exact absurd hpc (run_not_idle hst)
  | wake hMem =>
    obtain ⟨o, hpc⟩ := hInv.waiting.blocked t hMem
    exact hStay hpc hpc rfl rfl (fun _ hEq => by cases hEq) rfl
  | headLock hpc hFree => exact hStay hpc (hHere _) rfl rfl (fun _ hEq => by cases hEq) rfl
  | @headUnlock pc hUnlock =>
    rcases hUnlock.stage (hInv.nodes.pcs t) with ⟨ret, rfl, hDone⟩ | ⟨hBusy, hSame⟩
    · exact hReturn rfl (hHere _) rfl rfl hDone
    · exact hStay rfl (hHere pc) rfl rfl hBusy ((stageAt_congr (fun _ => rfl)
        (fun _ _ => rfl)).trans hSame)
  | @tailLock pc hLock hFree =>
    obtain ⟨hBusy, hSame⟩ := hLock.stage (s := s)
    exact hStay rfl (hHere pc) rfl rfl hBusy ((stageAt_congr (fun _ => rfl)
      (fun _ _ => rfl)).trans hSame)
  | getUnlock hpc => exact hStay hpc (hHere _) rfl rfl (fun _ hEq => by cases hEq) rfl
  | @getRead c hpc =>
    have hEmpty := hInv.nodes.empty_iff_nil hInv.locks (t := t) (by rw [hpc]; rfl)
      (by rw [hpc]; rfl) hVs
    cases c with
    | waitAndPop o => exact hStay hpc (hHere _) rfl rfl (fun _ hEq => by cases hEq) rfl
    | tryPop o =>
      by_cases hEq : s.head = s.tail
      · obtain rfl := hEmpty.mp hEq
        refine hEffect (.head (.tryPop o)) [] hpc (hHere _)
          (fun _ hEq => by cases hEq) rfl hVs rfl ?_
        show (HeadCall.tryPop o).seen (decide (s.head = s.tail)) = .done (.popped none)
        rw [decide_eq_true hEq]
        rfl
      · refine hStay hpc (hHere _) rfl rfl (fun _ hEq => by cases hEq) ?_
        show (HeadCall.tryPop o).seen (decide (s.head = s.tail)) = .pending (.head (.tryPop o))
        rw [decide_eq_false hEq]
        rfl
    | empty =>
      refine hEffect (.head .empty) vs hpc (hHere _) (fun _ hEq => by cases hEq) rfl hVs rfl ?_
      show Stage.done (Answer.isEmpty (decide (s.head = s.tail))) =
        .done (.isEmpty (vs.map Prod.snd).isEmpty)
      rw [decide_eq_decide.mpr hEmpty]
      cases vs <;> rfl
  | waitBlock hpc => exact hStay hpc (hHere _) rfl rfl (fun _ hEq => by cases hEq) rfl
  | alloc hpc hZero hFree => exact hStay hpc (hHere _) rfl rfl (fun _ hEq => by cases hEq) rfl
  | pushData hpc => exact hStay hpc (hHere _) rfl rfl (fun _ hEq => by cases hEq) rfl
  | pushNext hpc => exact hStay hpc (hHere _) rfl rfl (fun _ hEq => by cases hEq) rfl
  | @pushTail data p hpc =>
    refine hEffect (.push data.2) (vs ++ [data]) hpc (hHere _)
      (fun _ hEq => by cases hEq) rfl ?_ ?_ rfl
    · show s.pushed ++ [data] = s.popped ++ (vs ++ [data])
      rw [hVs, List.append_assoc]
    · rw [List.map_append]
      rfl
  | pushUnlock hpc => exact hStay hpc (hHere _) rfl rfl (fun _ hEq => by cases hEq) rfl
  | notifyNone hpc hEmpty => exact hReturn hpc (hHere _) rfl rfl rfl
  | notify hpc hMem => exact hReturn hpc (hHere _) rfl rfl rfl
  | @popMove c out hpc =>
    obtain ⟨hCall, v, rest, rfl, hData⟩ := hInv.next_value hpc hVs
    have hTaken : (fifoQueue α).apply ((v :: rest).map Prod.snd) (.head c) =
        (rest.map Prod.snd, .popped (some v.2)) := by
      cases c with
      | empty => exact absurd rfl hCall
      | _ => rfl
    refine hEffect (.head c) rest hpc (hHere _) (fun _ hEq => by cases hEq) rfl
      ?_ ?_ ?_
    · show s.pushed = (s.popped ++ (s.data s.head).toList) ++ rest
      rw [hVs, hData, Option.toList_some, List.append_assoc, List.singleton_append]
    · rw [hTaken]
    · rw [hTaken]
      show Stage.done (Answer.popped ((s.data s.head).map Prod.snd)) = _
      rw [hData]
      rfl
  | popNext hpc => exact hStay hpc (hHere _) rfl rfl (fun _ hEq => by cases hEq) rfl
  | popHead hpc => exact hStay hpc (hHere _) rfl rfl (fun _ hEq => by cases hEq) rfl
  | popDelete hpc => exact hReturn hpc (hHere _) rfl rfl rfl

/-- A call is a call of the object. -/
theorem call_moves {last : Option (Ret (Numbered α))} {call : Call α} {items : List α}
    {answer : Option (τ × Answer α)} (hHolds : Holds s items) (hpc : s.pc t = .idle last)
    (he : Effect s t s') (hPushed : s'.pushed = s.pushed) (hPopped : s'.popped = s.popped)
    (hStage : stage s' t = .pending call) :
    ∃ items', Holds s' items' ∧
      Moves (fifoQueue α) (stage s) items (some (t, call)) answer (stage s') items' := by
  obtain ⟨l, vs, hInv, hVs, rfl⟩ := hHolds
  refine ⟨_, ⟨_, vs, inv_effect hInv he, by rw [hPushed, hPopped, hVs], rfl⟩, ?_⟩
  rw [stage_update hInv he hStage]
  refine .call ?_
  rw [stage, hpc]
  rfl

/-- Every step is matched: a push takes effect at the assignment of `tail`, a pop at that of
`head`, and a refusal at the comparison of the two. -/
theorem step_moves {items : List α} (hHolds : Holds s items) (hst : step s a = some s') :
    ∃ items', Holds s' items' ∧
      Moves (fifoQueue α) (stage s) items (calls a) (rets s a s') (stage s') items' := by
  have he := step_effect hst
  cases a with
  | callPush t data =>
    simp only [step] at hst
    split at hst <;> cases hst
    next hpc =>
      refine call_moves hHolds hpc he rfl rfl ?_
      show stageAt _ (Function.update s.pc t _ t) = _
      rw [Function.update_self]
      rfl
  | call t c =>
    simp only [step] at hst
    split at hst <;> cases hst
    next hpc =>
      refine call_moves hHolds hpc he rfl rfl ?_
      show stageAt _ (Function.update s.pc t _ t) = _
      rw [Function.update_self]
      rfl
  | run t fresh pick => exact run_moves hHolds hst
  | wakeUp t =>
    simp only [step] at hst
    split at hst <;> cases hst
    obtain ⟨l, vs, hInv, hVs, rfl⟩ := hHolds
    exact ⟨_, ⟨_, vs, inv_effect hInv he, hVs, rfl⟩, .stay⟩

-- ---------------------------------------------------------------------------
-- The contract
-- ---------------------------------------------------------------------------

/-- The node whose `data` or `next` a pop reads next. -/
def State.reads (s : State τ α) : Pc (Numbered α) → Option Nat
  | .popValue _ => some s.head
  | .popNext old _ | .popRead old | .popDelete old _ => some old
  | _ => none

/-- What `threadsafe_queue_fine_grained` promises. -/
structure QueueContract (s : State τ α) : Prop where
  /-- The list from `front` ends, without cycle, at `tail`, and holds the values that were
  pushed and not popped, in this order. -/
  list : ∃ l, l.Nodup ∧ Linked s.next s.tail s.front l ∧
    s.pushed.map some = s.popped.map some ++ l.map s.data
  /-- It begins at `head`, unless the thread that has `head_mutex` locked is between its two
  moves. -/
  front : (∀ t, s.headMutex = some t → (s.pc t).moving = false) → s.front = s.head
  /-- The data of the node at `tail` is empty, unless the thread that has `tail_mutex` locked
  has written it and not assigned `tail` yet. -/
  dummy : (∀ t, s.tailMutex = some t → (s.pc t).filling = false) → s.data s.tail = none
  /-- A pop reads only nodes whose `push` has completed its locked region. -/
  reads : ∀ t p, s.reads (s.pc t) = some p → s.complete p = true ∧ s.allocated p = true
  /-- Each value is pushed once, so it comes out once. -/
  once : (s.pushed.map Prod.fst).Nodup
  /-- `try_pop` fails, and `empty` returns true, only if the queue was empty when it read
  `tail`. -/
  fail : ∀ t, s.pc t = .failUnlock → s.seenEmpty t = true
  empty : ∀ t b, s.pc t = .emptyUnlock b → s.seenEmpty t = b
  /-- A pop that took a node returns the value in it. -/
  value : ∀ t old res, s.pc t = .popDelete old res → s.data old = res ∧ res.isSome = true

omit [DecidableEq τ] in
/-- The contract of a state. -/
theorem Inv.contract (h : Inv s l) (hTickets : Tickets s) : QueueContract s := by
  refine ⟨⟨l, h.nodes.linked.nodup, h.nodes.linked, h.nodes.stored⟩, ?_, ?_, ?_, hTickets.nodup,
    ?_, ?_, ?_⟩
  · intro hStill
    refine front_of_still ?_
    intro t
    cases hMoving : (s.pc t).moving with
    | false => rfl
    | true =>
      rw [← hMoving]
      exact hStill t ((h.locks.head t).mpr (Pc.inHead_of_moving hMoving))
  · intro hStill
    refine h.nodes.dummyData ?_
    intro t
    cases hFilling : (s.pc t).filling with
    | false => rfl
    | true =>
      rw [← hFilling]
      exact hStill t ((h.locks.tail t).mpr (Pc.inTail_of_filling hFilling))
  · intro t p hReads
    have hOk := h.nodes.pcs t
    have hOwned := h.nodes.owned t
    generalize s.pc t = pc at hReads hOk hOwned
    cases pc with
    | popValue c =>
      cases hReads
      exact ⟨hOk.2.2, h.nodes.mem _ hOk.2.1⟩
    | popNext old out =>
      cases hReads
      exact ⟨hOk.complete, (hOwned p rfl).1⟩
    | popRead old =>
      cases hReads
      exact ⟨hOk.1.complete, (hOwned p rfl).1⟩
    | popDelete old res =>
      cases hReads
      exact ⟨hOk.1.complete, (hOwned p rfl).1⟩
    | _ => cases hReads
  · intro t hpc
    have hOk := h.nodes.pcs t
    rw [hpc] at hOk
    exact hOk
  · intro t b hpc
    have hOk := h.nodes.pcs t
    rw [hpc] at hOk
    exact hOk
  · intro t old res hpc
    have hOk := h.nodes.pcs t
    rw [hpc] at hOk
    obtain ⟨hTaken, -, hSome⟩ := hOk
    obtain ⟨v, rfl⟩ := Option.isSome_iff_exists.mp hSome
    exact ⟨hTaken.out v rfl, rfl⟩

/-- In every run, also one with a condition. -/
theorem tickets_reachable {ok : State τ α → Action τ α → Prop}
    (h : (system τ α).ReachableWhere ok s) : Tickets s :=
  h.invariant (I := Tickets) tickets_init
    fun _ _ _ _ hTickets _ hst => tickets_effect hTickets (step_effect hst)

/-- **The contract of the queue**, for any number of threads and every interleaving of their
accesses: its list is in order, and its history is that of a FIFO queue in which a wait is
answered with a value only. There is no condition on the steps; the states between the
assignments of `push` and `pop_head` that the contract excepts are those under a held mutex. -/
theorem queue_contract {x : State τ α × Record τ (Call α) (Answer α)}
    (h : ((system τ α).recorded calls rets).Reachable x) :
    QueueContract x.1 ∧ (fifoQueue α).Linearizable x.2.history := by
  have hReach : (system τ α).Reachable x.1 := recorded_reachable h
  obtain ⟨l, hInv⟩ := inv_reachable hReach
  refine ⟨hInv.contract (tickets_reachable hReach), ?_⟩
  exact recorded_linearizable (fun _ _ => True) stage Holds ⟨[], [], inv_init, rfl, rfl⟩
    (fun _ => rfl) (fun s a s' items _ hHolds _ hst => step_moves hHolds hst) h

/-- Thread 1 blocks on the empty queue, and `try_pop` of thread 3 fails. `empty` of thread 2
reads `tail` before a `push` locks its region, and compares when the `push` is half done. The
`push` wakes thread 1, and the address of the node that thread 1 deletes comes back. -/
theorem queue_contract_wait :
    ∃ x : State (Fin 4) Nat × Record (Fin 4) (Call Nat) (Answer Nat),
      ((system (Fin 4) Nat).recorded calls rets).Reachable x ∧
      x.2.history = [.call 0 (.head (.waitAndPop .pointer)), .call 1 (.head (.tryPop .value)),
        .ret 1 (.popped none), .call 2 (.push 7), .call 3 (.head .empty), .ret 3 (.isEmpty true),
        .ret 2 .pushed, .ret 0 (.popped (some 7)), .call 4 (.push 8), .ret 4 .pushed] ∧
      x.1.head = 2 ∧ x.1.tail = 1 ∧
      QueueContract x.1 ∧ (fifoQueue Nat).Linearizable x.2.history := by
  obtain ⟨x, hx, hHistory, hHead, hTail⟩ :=
    System.exists_reachable_of_exec (S := (system (Fin 4) Nat).recorded calls rets)
    (p := fun x => x.2.history = [.call 0 (.head (.waitAndPop .pointer)),
        .call 1 (.head (.tryPop .value)), .ret 1 (.popped none), .call 2 (.push 7),
        .call 3 (.head .empty), .ret 3 (.isEmpty true), .ret 2 .pushed,
        .ret 0 (.popped (some 7)), .call 4 (.push 8), .ret 4 .pushed] ∧
      x.1.head = 2 ∧ x.1.tail = 1)
    ([Action.call 1 (.waitAndPop .pointer)] ++ List.replicate 6 (Action.run 1 0 0) ++
      [Action.call 3 (.tryPop .value)] ++ List.replicate 6 (Action.run 3 0 0) ++
      [Action.callPush 0 7, Action.run 0 2 0] ++ [Action.call 2 .empty] ++
      List.replicate 4 (Action.run 2 0 0) ++ List.replicate 2 (Action.run 0 0 0) ++
      List.replicate 2 (Action.run 2 0 0) ++ List.replicate 4 (Action.run 0 0 0) ++
      List.replicate 12 (Action.run 1 0 0) ++ [Action.callPush 0 8] ++
      List.replicate 7 (Action.run 0 1 0))
    (by decide +kernel)
  exact ⟨x, hx, hHistory, hHead, hTail, queue_contract hx⟩

/-- In the middle of a `push` the data of the node at `tail` is there, and in the middle of a
pop `head` is null: the list from `head` does not end at `tail` then. -/
theorem list_not_always_in_order :
    (∃ s : State (Fin 2) Nat, (system (Fin 2) Nat).Reachable s ∧ s.data s.tail ≠ none) ∧
      ∃ s : State (Fin 2) Nat, (system (Fin 2) Nat).Reachable s ∧
        ¬ ∃ l, Linked s.next s.tail s.head l := by
  refine ⟨System.exists_reachable_of_exec (S := system (Fin 2) Nat)
    (p := fun s => s.data s.tail ≠ none)
    [.callPush 0 7, .run 0 2 0, .run 0 0 0, .run 0 0 0] (by decide +kernel), ?_⟩
  obtain ⟨s, hs, hHead, hNull, hTail⟩ := System.exists_reachable_of_exec
    (S := system (Fin 2) Nat) (p := fun s => s.head = 0 ∧ s.next 0 = 0 ∧ s.tail ≠ 0)
    ([Action.callPush 0 7] ++ List.replicate 7 (Action.run 0 2 0) ++
      [Action.call 1 (.tryPop .pointer)] ++ List.replicate 6 (Action.run 1 0 0))
    (by decide +kernel)
  refine ⟨s, hs, ?_⟩
  rintro ⟨l, hl⟩
  rw [hHead] at hl
  exact hl.ne_loop hTail.symm hNull

end EmbLinux.DesignLockBase.Queue
