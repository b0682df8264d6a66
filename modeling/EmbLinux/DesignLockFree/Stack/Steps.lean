import EmbLinux.DesignLockFree.Stack.Model
import EmbLinux.Lib.Update

/-!
# EmbLinux — what one access of `lock_free_stack` does

`Pc.role` says what a thread has to do with the nodes: the one it has a reference to,
the one it took off the stack and whose external count it has not added yet, its own
new node, the node it is about to delete. `Effect` lists the accesses of the model
with what held before them and the state after; `step` is unfolded here only.
-/

namespace EmbLinux.DesignLockFree.Stack

variable {τ α : Type*} [DecidableEq τ] {s s' : State τ α} {a : Action τ α} {t : τ}

-- ---------------------------------------------------------------------------
-- Roles
-- ---------------------------------------------------------------------------

/-- What a thread has to do with the nodes. -/
structure Role where
  /-- The node that it has a counted reference to. -/
  held : Option Nat
  /-- The pointer that it took out of `head`, with its external count. -/
  closing : Option CountedNodePtr
  /-- Its new node, that is not on the stack yet. -/
  owned : Option Nat
  deleting : Option Nat

/-- What a thread at `pc` holds, which external count it is to add, which node it owns and which
it deletes. -/
def Pc.role {β : Type*} : Pc β → Role
  | .popNext old | .popCas old _ => ⟨some old.ptr, none, none, none⟩
  | .popSwap old | .popAdd old _ => ⟨some old.ptr, some old, none, none⟩
  | .popSub ptr _ => ⟨some ptr, none, none, none⟩
  | .popAcquire ptr _ | .delete ptr _ => ⟨none, none, none, some ptr⟩
  | .pushLoad _ ptr | .pushCas _ ptr => ⟨none, none, some ptr, none⟩
  | .idle _ | .popLoad | .popIncrease _ | .pushNew _ => ⟨none, none, none, none⟩

/-- The node that a thread holds a reference to. -/
def State.held (s : State τ α) (t : τ) : Option Nat :=
  (s.pc t).role.held

/-- The pointer whose external count it is to add. -/
def State.closing (s : State τ α) (t : τ) : Option CountedNodePtr :=
  (s.pc t).role.closing

/-- The node that it has made and not pushed yet. -/
def State.owned (s : State τ α) (t : τ) : Option Nat :=
  (s.pc t).role.owned

/-- The node that it is about to delete. -/
def State.deleting (s : State τ α) (t : τ) : Option Nat :=
  (s.pc t).role.deleting

/-- The program point at which the `pop` goes on. -/
def Cont.pc {β : Type*} : Cont β → Pc β
  | .popReturn res => .idle (some (.popped res))
  | .popRetry oldHead => .popIncrease oldHead

/-- Where the threads are after a reference was dropped. -/
theorem resume_pc (s : State τ α) (t : τ) (k : Cont (Numbered α)) :
    (s.resume t k).pc = Function.update s.pc t k.pc := by
  cases k <;> rfl

-- ---------------------------------------------------------------------------
-- The accesses
-- ---------------------------------------------------------------------------

/-- Accesses that change neither the nodes nor what the thread has to do with them. -/
inductive Quiet (s : State τ α) : Pc (Numbered α) → Pc (Numbered α) → Prop
  | callPop {last : Option (Ret (Numbered α))} : Quiet s (.idle last) .popLoad
  | load : Quiet s .popLoad (.popIncrease s.head)
  | again {old : CountedNodePtr} : Quiet s (.popIncrease old) (.popIncrease s.head)
  | popNext {old : CountedNodePtr} : Quiet s (.popNext old) (.popCas old (s.next old.ptr))
  | popFail {old next : CountedNodePtr} (hNe : s.head ≠ old) :
      Quiet s (.popCas old next) (.popSub old.ptr s.head)
  | popAcquire {ptr : Nat} {old : CountedNodePtr} :
      Quiet s (.popAcquire ptr old) (.delete ptr (.popRetry old))

/-- The external count of a popped node is added to its internal count. -/
def State.close (s : State τ α) (old : CountedNodePtr) : State τ α :=
  { s with
    internalCount := Function.update s.internalCount old.ptr
      (s.internalCount old.ptr + (old.externalCount - 2))
    external := Function.update s.external old.ptr none }

/-- `fetch_sub` on the internal count. -/
def State.release (s : State τ α) (ptr : Nat) : State τ α :=
  { s with internalCount := Function.update s.internalCount ptr (s.internalCount ptr - 1) }

/-- What a step can do, with the guards under which it does it. -/
inductive Effect (s : State τ α) (t : τ) : State τ α → Prop
  | quiet {pc : Pc (Numbered α)} (h : Quiet s (s.pc t) pc) : Effect s t (s.setPc t pc)
  | callPush {last : Option (Ret (Numbered α))} {data : α} (hpc : s.pc t = .idle last) :
      Effect s t { s.setPc t (.pushNew (s.calls, data)) with calls := s.calls + 1 }
  | empty (hpc : s.pc t = .popIncrease s.head) (hNull : s.head.ptr = 0) :
      Effect s t { s.setPc t (.idle (some (.popped none))) with
        head := ⟨s.head.externalCount + 1, s.head.ptr⟩ }
  | increase (hpc : s.pc t = .popIncrease s.head) (hPtr : s.head.ptr ≠ 0) :
      Effect s t { s.setPc t (.popNext ⟨s.head.externalCount + 1, s.head.ptr⟩) with
        head := ⟨s.head.externalCount + 1, s.head.ptr⟩
        external := Function.update s.external s.head.ptr (some (s.head.externalCount + 1))
        taken := Function.update s.taken t (s.serial s.head.ptr) }
  | popCas {next : CountedNodePtr} (hpc : s.pc t = .popCas s.head next) :
      Effect s t { s.setPc t (.popSwap s.head) with
        head := next
        removed := s.removed ++ [s.serial s.head.ptr] }
  | popSwap {old : CountedNodePtr} (hpc : s.pc t = .popSwap old) :
      Effect s t { s.setPc t (.popAdd old (s.data old.ptr)) with
        data := Function.update s.data old.ptr none }
  | closeLast {old : CountedNodePtr} {res : Option (Numbered α)} (hpc : s.pc t = .popAdd old res)
      (hLast : s.internalCount old.ptr + (old.externalCount - 2) = 0) :
      Effect s t ((s.close old).setPc t (.delete old.ptr (.popReturn res)))
  | close {old : CountedNodePtr} {res : Option (Numbered α)} (hpc : s.pc t = .popAdd old res)
      (hNot : s.internalCount old.ptr + (old.externalCount - 2) ≠ 0) :
      Effect s t ((s.close old).resume t (.popReturn res))
  | releaseLast {ptr : Nat} {old : CountedNodePtr} (hpc : s.pc t = .popSub ptr old)
      (hLast : s.internalCount ptr = 1) :
      Effect s t ((s.release ptr).setPc t (.popAcquire ptr old))
  | release {ptr : Nat} {old : CountedNodePtr} (hpc : s.pc t = .popSub ptr old)
      (hNot : s.internalCount ptr ≠ 1) :
      Effect s t ((s.release ptr).setPc t (.popIncrease old))
  | delete {ptr : Nat} {k : Cont (Numbered α)} (hpc : s.pc t = .delete ptr k) :
      Effect s t ((s.deleteNode ptr).resume t k)
  | alloc {data : Numbered α} {p : Nat} (hpc : s.pc t = .pushNew data) (hZero : p ≠ 0)
      (hFree : s.allocated p = false) :
      Effect s t ((s.newNode t p data).setPc t (.pushLoad data p))
  | storeNext {data : Numbered α} {p : Nat}
      (hpc : s.pc t = .pushLoad data p ∨ s.pc t = .pushCas data p) :
      Effect s t { s.setPc t (.pushCas data p) with next := Function.update s.next p s.head }
  | pushCas {data : Numbered α} {p : Nat} (hpc : s.pc t = .pushCas data p)
      (hHead : s.head = s.next p) :
      Effect s t { s.setPc t (.idle (some .pushed)) with head := ⟨1, p⟩ }

/-- Every access of a call in progress is one of the listed effects. -/
theorem run_effect {spurious : Bool} {fresh : Nat} (hst : run s t spurious fresh = some s') :
    Effect s t s' := by
  unfold run at hst
  split at hst
  · cases hst
  · next hpc =>
    cases hst
    exact .quiet (hpc ▸ .load)
  · next hpc =>
    unfold State.increaseHeadCount at hst
    split at hst
    · next hEq =>
      subst hEq
      split at hst <;> cases hst
      · next hNull => exact .empty hpc hNull
      · next hPtr => exact .increase hpc hPtr
    · cases hst
      exact .quiet (hpc ▸ .again)
  · next hpc =>
    cases hst
    exact .quiet (hpc ▸ .popNext)
  · next hpc =>
    split at hst <;> cases hst
    · next hEq =>
      subst hEq
      exact .popCas hpc
    · next hNe => exact .quiet (hpc ▸ .popFail hNe)
  · next hpc =>
    cases hst
    exact .popSwap hpc
  · next hpc =>
    split at hst <;> cases hst
    · next hLast => exact .closeLast hpc (by omega)
    · next hNot => exact .close hpc (by omega)
  · next hpc =>
    split at hst <;> cases hst
    · next hLast => exact .releaseLast hpc hLast
    · next hNot => exact .release hpc hNot
  · next hpc =>
    cases hst
    exact .quiet (hpc ▸ .popAcquire)
  · next hpc =>
    cases hst
    exact .delete hpc
  · next hpc =>
    split at hst <;> cases hst
    next hFresh => exact .alloc hpc hFresh.1 hFresh.2
  · next hpc =>
    cases hst
    exact .storeNext (Or.inl hpc)
  · next hpc =>
    split at hst <;> cases hst
    · next hCas => exact .pushCas hpc hCas.1
    · exact .storeNext (Or.inr hpc)

/-- The thread that moves. -/
def Action.thread {β : Type*} : Action τ β → τ
  | .callPop t | .callPush t _ | .run t _ _ => t

/-- Every step is one of the listed effects. -/
theorem step_effect (hst : step s a = some s') : Effect s a.thread s' := by
  cases a with
  | callPop t =>
    simp only [step] at hst
    split at hst <;> cases hst
    next hpc => exact .quiet (hpc ▸ .callPop)
  | callPush t data =>
    simp only [step] at hst
    split at hst <;> cases hst
    next hpc => exact .callPush hpc
  | run t spurious fresh => exact run_effect hst

omit [DecidableEq τ] in
/-- A quiet step leaves what the thread holds. -/
theorem Quiet.role {pc pc' : Pc (Numbered α)} (h : Quiet s pc pc') : pc'.role = pc.role := by
  cases h <;> rfl

/-- A step moves one thread. -/
theorem pc_frame (he : Effect s t s') {u : τ} (hut : u ≠ t) : s'.pc u = s.pc u := by
  cases he with
  | close hpc hNot =>
    rw [resume_pc, Function.update_of_ne hut]
    rfl
  | delete hpc =>
    rw [resume_pc, Function.update_of_ne hut]
    rfl
  | _ => exact Function.update_of_ne hut _ _

end EmbLinux.DesignLockFree.Stack
