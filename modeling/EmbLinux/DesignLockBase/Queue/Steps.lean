import EmbLinux.DesignLockBase.Queue.Model
import EmbLinux.Lib.Update

/-!
# EmbLinux — what one step of `threadsafe_queue_fine_grained` does

`Pc.inHead` and `Pc.inTail` are the program points with `head_mutex` or `tail_mutex`
locked, `Pc.owned` is the node that only this thread can reach: the new node of a
`push`, the old head of a pop. `Effect` lists the steps of the model with what held
before them and the state after; `step` is unfolded here only.
-/

namespace EmbLinux.DesignLockBase.Queue

variable {τ α : Type*} [DecidableEq τ] {s s' : State τ α} {a : Action τ α} {t : τ}

-- ---------------------------------------------------------------------------
-- Program points
-- ---------------------------------------------------------------------------

/-- The thread holds `head_mutex`. -/
def Pc.inHead {β : Type*} : Pc β → Bool
  | .getLock _ | .getRead _ | .getUnlock .. | .compare .. | .waitBlock _ | .popValue _
  | .popMove .. | .popNext .. | .popHead .. | .popUnlock .. | .failUnlock | .emptyUnlock _ => true
  | .idle _ | .pushNew _ | .pushLock .. | .pushData .. | .pushNext .. | .pushTail ..
  | .pushUnlock | .pushNotify | .headLock _ | .blocked _ | .popRead _ | .popDelete .. => false

/-- The thread holds `tail_mutex`. -/
def Pc.inTail {β : Type*} : Pc β → Bool
  | .pushData .. | .pushNext .. | .pushTail .. | .pushUnlock | .getRead _ | .getUnlock .. => true
  | .idle _ | .pushNew _ | .pushLock .. | .pushNotify | .headLock _ | .getLock _ | .compare ..
  | .waitBlock _ | .blocked _ | .popValue _ | .popMove .. | .popNext .. | .popHead ..
  | .popUnlock .. | .popRead _ | .popDelete .. | .failUnlock | .emptyUnlock _ => false

/-- The node that is in a local variable of the thread only: new, or taken off the list. -/
def Pc.owned {β : Type*} : Pc β → Option Nat
  | .pushLock _ p | .pushData _ p | .pushNext _ p | .pushTail _ p => some p
  | .popNext old _ | .popHead old _ _ | .popUnlock old _ | .popRead old | .popDelete old _ =>
    some old
  | _ => none

/-- Between the write of `tail->data` and the assignment of `tail`. -/
def Pc.filling {β : Type*} : Pc β → Bool
  | .pushNext .. | .pushTail .. => true
  | _ => false

/-- Between the move out of `head` and its assignment. -/
def Pc.moving {β : Type*} : Pc β → Bool
  | .popNext .. | .popHead .. => true
  | _ => false

/-- The dummy is filled under `tail_mutex`, -/
theorem Pc.inTail_of_filling {β : Type*} {pc : Pc β} (h : pc.filling = true) :
    pc.inTail = true := by
  cases pc <;> first | rfl | cases h

/-- and `head` is moved under `head_mutex`. -/
theorem Pc.inHead_of_moving {β : Type*} {pc : Pc β} (h : pc.moving = true) :
    pc.inHead = true := by
  cases pc <;> first | rfl | cases h

-- ---------------------------------------------------------------------------
-- The steps
-- ---------------------------------------------------------------------------

/-- Steps that change neither the mutexes nor the nodes. -/
inductive Quiet (s : State τ α) (t : τ) : Pc (Numbered α) → Pc (Numbered α) → Prop
  | call {last : Option (Ret (Numbered α))} {c : HeadCall} : Quiet s t (.idle last) (.headLock c)
  | wait {o : Overload} {r : Nat} (hEq : s.head = r) :
      Quiet s t (.compare (.waitAndPop o) r) (.waitBlock o)
  | fail {o : Overload} {r : Nat} (hEq : s.head = r) :
      Quiet s t (.compare (.tryPop o) r) .failUnlock
  | empty {r : Nat} : Quiet s t (.compare .empty r) (.emptyUnlock (decide (s.head = r)))
  | take {c : HeadCall} {r : Nat} (hNe : s.head ≠ r)
      (hCall : c = .waitAndPop .pointer ∨ c = .tryPop .pointer) :
      Quiet s t (.compare c r) (.popMove c none)
  | takeValue {c : HeadCall} {r : Nat} (hNe : s.head ≠ r)
      (hCall : c = .waitAndPop .value ∨ c = .tryPop .value) : Quiet s t (.compare c r) (.popValue c)
  | relock {o : Overload} (hOut : t ∉ s.waiting) :
      Quiet s t (.blocked o) (.headLock (.waitAndPop o))
  | popValue {c : HeadCall} {v : Numbered α} (hData : s.data s.head = some v) :
      Quiet s t (.popValue c) (.popMove c (some v))
  | popRead {old : Nat} : Quiet s t (.popRead old) (.popDelete old (s.data old))

/-- The unlocks of `head_mutex` at the end of an operation. -/
inductive HeadUnlock : Pc (Numbered α) → Pc (Numbered α) → Prop
  | pointer {old : Nat} : HeadUnlock (.popUnlock old none) (.popRead old)
  | value {old : Nat} {v : Numbered α} :
      HeadUnlock (.popUnlock old (some v)) (.popDelete old (some v))
  | fail : HeadUnlock .failUnlock (.idle (some (.popped none)))
  | empty {b : Bool} : HeadUnlock (.emptyUnlock b) (.idle (some (.isEmpty b)))

/-- The accesses that lock `tail_mutex`. -/
inductive TailLock : Pc (Numbered α) → Pc (Numbered α) → Prop
  | push {data : Numbered α} {p : Nat} : TailLock (.pushLock data p) (.pushData data p)
  | get {c : HeadCall} : TailLock (.getLock c) (.getRead c)

/-- What one step does; the invariants are proved case by case along this. -/
inductive Effect (s : State τ α) (t : τ) : State τ α → Prop
  | quiet {pc : Pc (Numbered α)} (h : Quiet s t (s.pc t) pc) : Effect s t (s.setPc t pc)
  | callPush {last : Option (Ret (Numbered α))} {data : α} (hpc : s.pc t = .idle last) :
      Effect s t { s.setPc t (.pushNew (s.calls, data)) with calls := s.calls + 1 }
  | wake (hMem : t ∈ s.waiting) : Effect s t (s.wake t)
  | headLock {c : HeadCall} (hpc : s.pc t = .headLock c) (hFree : s.headMutex = none) :
      Effect s t { s.setPc t (.getLock c) with headMutex := some t }
  | headUnlock {pc : Pc (Numbered α)} (h : HeadUnlock (s.pc t) pc) :
      Effect s t { s.setPc t pc with headMutex := none }
  | tailLock {pc : Pc (Numbered α)} (h : TailLock (s.pc t) pc) (hFree : s.tailMutex = none) :
      Effect s t { s.setPc t pc with tailMutex := some t }
  | getUnlock {c : HeadCall} {r : Nat} (hpc : s.pc t = .getUnlock c r) :
      Effect s t { s.setPc t (.compare c r) with tailMutex := none }
  | getRead {c : HeadCall} (hpc : s.pc t = .getRead c) :
      Effect s t ((s.readTail t).setPc t (.getUnlock c s.tail))
  | waitBlock {o : Overload} (hpc : s.pc t = .waitBlock o) :
      Effect s t { s.setPc t (.blocked o) with headMutex := none, waiting := s.waiting ++ [t] }
  | alloc {data : Numbered α} {p : Nat} (hpc : s.pc t = .pushNew data) (hZero : p ≠ 0)
      (hFree : s.allocated p = false) :
      Effect s t ((s.newNode p).setPc t (.pushLock data p))
  | pushData {data : Numbered α} {p : Nat} (hpc : s.pc t = .pushData data p) :
      Effect s t { s.setPc t (.pushNext data p) with
        data := Function.update s.data s.tail (some data)
        filled := Function.update s.filled t s.tail }
  | pushNext {data : Numbered α} {p : Nat} (hpc : s.pc t = .pushNext data p) :
      Effect s t { s.setPc t (.pushTail data p) with next := Function.update s.next s.tail p }
  | pushTail {data : Numbered α} {p : Nat} (hpc : s.pc t = .pushTail data p) :
      Effect s t ((s.assignTail data p).setPc t .pushUnlock)
  | pushUnlock (hpc : s.pc t = .pushUnlock) :
      Effect s t { s.setPc t .pushNotify with
        tailMutex := none
        complete := Function.update s.complete (s.filled t) true }
  | notifyNone (hpc : s.pc t = .pushNotify) (hEmpty : s.waiting = []) :
      Effect s t (s.setPc t (.idle (some .pushed)))
  | notify {u : τ} (hpc : s.pc t = .pushNotify) (hMem : u ∈ s.waiting) :
      Effect s t ((s.wake u).setPc t (.idle (some .pushed)))
  | popMove {c : HeadCall} {out : Option (Numbered α)} (hpc : s.pc t = .popMove c out) :
      Effect s t ((s.moveHead t).setPc t (.popNext s.head out))
  | popNext {old : Nat} {out : Option (Numbered α)} (hpc : s.pc t = .popNext old out) :
      Effect s t { s.setPc t (.popHead old (s.next old) out) with
        next := Function.update s.next old 0 }
  | popHead {old next : Nat} {out : Option (Numbered α)} (hpc : s.pc t = .popHead old next out) :
      Effect s t { s.setPc t (.popUnlock old out) with head := next }
  | popDelete {old : Nat} {res : Option (Numbered α)} (hpc : s.pc t = .popDelete old res) :
      Effect s t { s.setPc t (.idle (some (.popped res))) with
        allocated := Function.update s.allocated old false }

/-- The comparison of `head` with the tail that was read decides and changes nothing. -/
theorem branch_quiet {c : HeadCall} {r : Nat} (hpc : s.pc t = .compare c r) :
    Effect s t (s.branch t c (decide (s.head = r))) := by
  by_cases hEq : s.head = r
  · rw [decide_eq_true hEq]
    cases c with
    | waitAndPop o => exact .quiet (hpc ▸ .wait hEq)
    | tryPop o => exact .quiet (hpc ▸ .fail hEq)
    | empty =>
      have hQuiet : Quiet s t (.compare .empty r) (.emptyUnlock (decide (s.head = r))) := .empty
      rw [decide_eq_true hEq] at hQuiet
      exact .quiet (hpc ▸ hQuiet)
  · rw [decide_eq_false hEq]
    cases c with
    | waitAndPop o =>
      cases o with
      | pointer => exact .quiet (hpc ▸ .take hEq (Or.inl rfl))
      | value => exact .quiet (hpc ▸ .takeValue hEq (Or.inl rfl))
    | tryPop o =>
      cases o with
      | pointer => exact .quiet (hpc ▸ .take hEq (Or.inr rfl))
      | value => exact .quiet (hpc ▸ .takeValue hEq (Or.inr rfl))
    | empty =>
      have hQuiet : Quiet s t (.compare .empty r) (.emptyUnlock (decide (s.head = r))) := .empty
      rw [decide_eq_false hEq] at hQuiet
      exact .quiet (hpc ▸ hQuiet)

/-- Every step of a call in progress is one of the listed effects. -/
theorem run_effect {fresh pick : Nat} (hst : run s t fresh pick = some s') : Effect s t s' := by
  unfold run at hst
  split at hst
  · cases hst
  · next hpc =>
    split at hst <;> cases hst
    next hFresh => exact .alloc hpc hFresh.1 hFresh.2
  · next hpc =>
    split at hst <;> cases hst
    next hFree => exact .tailLock (hpc ▸ .push) hFree
  · next hpc =>
    cases hst
    exact .pushData hpc
  · next hpc =>
    cases hst
    exact .pushNext hpc
  · next hpc =>
    cases hst
    exact .pushTail hpc
  · next hpc =>
    cases hst
    exact .pushUnlock hpc
  · next hpc =>
    obtain ⟨s₁, hNotify, rfl⟩ := Option.map_eq_some_iff.mp hst
    unfold State.notifyOne at hNotify
    split at hNotify
    · next hEmpty =>
      cases hNotify
      exact .notifyNone hpc hEmpty
    · obtain ⟨u, hu, rfl⟩ := Option.map_eq_some_iff.mp hNotify
      exact .notify hpc (List.mem_of_getElem? hu)
  · next hpc =>
    split at hst <;> cases hst
    next hFree => exact .headLock hpc hFree
  · next hpc =>
    split at hst <;> cases hst
    next hFree => exact .tailLock (hpc ▸ .get) hFree
  · next hpc =>
    cases hst
    exact .getRead hpc
  · next hpc =>
    cases hst
    exact .getUnlock hpc
  · next hpc =>
    cases hst
    exact branch_quiet hpc
  · next hpc =>
    cases hst
    exact .waitBlock hpc
  · next hpc =>
    split at hst <;> cases hst
    next hOut => exact .quiet (hpc ▸ .relock hOut)
  · next hpc =>
    obtain ⟨v, hv, rfl⟩ := Option.map_eq_some_iff.mp hst
    exact .quiet (hpc ▸ .popValue hv)
  · next hpc =>
    cases hst
    exact .popMove hpc
  · next hpc =>
    cases hst
    exact .popNext hpc
  · next hpc =>
    cases hst
    exact .popHead hpc
  · next hpc =>
    cases hst
    exact .headUnlock (hpc ▸ .pointer)
  · next hpc =>
    cases hst
    exact .headUnlock (hpc ▸ .value)
  · next hpc =>
    cases hst
    exact .quiet (hpc ▸ .popRead)
  · next hpc =>
    cases hst
    exact .popDelete hpc
  · next hpc =>
    cases hst
    exact .headUnlock (hpc ▸ .fail)
  · next hpc =>
    cases hst
    exact .headUnlock (hpc ▸ .empty)

/-- The thread that moves. -/
def Action.thread {β : Type*} : Action τ β → τ
  | .callPush t _ | .call t _ | .run t _ _ | .wakeUp t => t

/-- Every step is one of the listed effects. -/
theorem step_effect (hst : step s a = some s') : Effect s a.thread s' := by
  cases a with
  | callPush t data =>
    simp only [step] at hst
    split at hst <;> cases hst
    next hpc => exact .callPush hpc
  | call t c =>
    simp only [step] at hst
    split at hst <;> cases hst
    next hpc => exact .quiet (hpc ▸ .call)
  | run t fresh pick => exact run_effect hst
  | wakeUp t =>
    simp only [step] at hst
    split at hst <;> cases hst
    next hMem => exact .wake hMem

/-- A step moves one thread at most. -/
theorem pc_frame (he : Effect s t s') {u : τ} (hut : u ≠ t) : s'.pc u = s.pc u := by
  cases he with
  | wake hMem => rfl
  | _ => exact Function.update_of_ne hut _ _

end EmbLinux.DesignLockBase.Queue
