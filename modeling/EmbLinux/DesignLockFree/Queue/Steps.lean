import EmbLinux.DesignLockFree.Queue.Model

/-!
# EmbLinux — what one access of the queue does

`Pc.role` says what a thread has to do with the nodes: the one it has a reference
to, the counter it is about to free, its own new node, the node it is about to
delete. `Effect` lists the accesses of the model with what held before them and
the state after; the invariants are proved by cases on it, and `step` is unfolded
here only.
-/

namespace EmbLinux.DesignLockFree.Queue

variable {τ α : Type*} [DecidableEq τ] {s s' : State τ α} {a : Action τ α} {t : τ}

-- ---------------------------------------------------------------------------
-- Roles
-- ---------------------------------------------------------------------------

/-- What a thread has to do with the nodes. -/
structure Role where
  /-- The node that it has a counted reference to. -/
  held : Option Nat
  /-- The pointer that it moved, and whose external count it has not added yet. -/
  closing : Option (Side × CountedNodePtr)
  /-- Its new node, that is not linked. -/
  owned : Option CountedNodePtr
  deleting : Option Nat

/-- The node that a `push` keeps while it drops a reference, -/
def Cont.owned {β : Type*} : Cont β → Option CountedNodePtr
  | .pushRetry _ newNext _ => some newNext
  | _ => none

/-- and while it moves `tail` for another thread. -/
def Pusher.owned {β : Type*} : Pusher β → Option CountedNodePtr
  | .finish _ => none
  | .help _ newNext => some newNext

/-- What a thread at `pc` holds, which external count it is to close, which node it owns and
which it deletes. -/
def Pc.role {β : Type*} : Pc β → Role
  | .popTail old | .popNext old | .popCas old _ | .helpNew _ old _ =>
    ⟨some old.ptr, none, none, none⟩
  | .popData old => ⟨some old.ptr, some (.head, old), none, none⟩
  | .pushLoad _ new | .pushIncrease _ new _ => ⟨none, none, some new, none⟩
  | .pushData _ new old | .pushNext _ new old | .pushDelete _ new old _ | .helpNext _ new old =>
    ⟨some old.ptr, none, some new, none⟩
  | .setNewTail pusher old _ => ⟨some old.ptr, none, pusher.owned, none⟩
  | .freeLoad side old k | .freeCas side old _ k => ⟨some old.ptr, some (side, old), k.owned, none⟩
  | .releaseLoad ptr k | .releaseCas ptr _ k => ⟨some ptr, none, k.owned, none⟩
  | .delete ptr k => ⟨none, none, k.owned, some ptr⟩
  | .idle _ | .popLoad | .popIncrease _ | .pushNew _ => ⟨none, none, none, none⟩

/-- The role of a thread. -/
def State.role (s : State τ α) (t : τ) : Role :=
  (s.pc t).role

/-- The node whose successor the thread knows and will make the tail. -/
def Pc.linking {β : Type*} : Pc β → Option Nat
  | .pushDelete _ _ old _ | .helpNew _ old _ | .setNewTail _ old _ => some old.ptr
  | _ => none

/-- The program point at which the call goes on. -/
def Cont.pc {β : Type*} : Cont β → Pc β
  | .popReturn result => .idle (some (.popped result))
  | .popRetry oldHead => .popIncrease oldHead
  | .pushReturn _ => .idle (some .pushed)
  | .pushRetry value newNext oldTail => .pushIncrease value newNext oldTail

@[simp] theorem Cont.pc_role {β : Type*} (k : Cont β) :
    k.pc.role = ⟨none, none, k.owned, none⟩ := by
  cases k <;> rfl

@[simp] theorem Cont.pc_linking {β : Type*} (k : Cont β) : k.pc.linking = none := by
  cases k <;> rfl

@[simp] theorem Pusher.cont_owned (pusher : Pusher (Numbered α)) (old : CountedNodePtr) :
    (pusher.cont old).owned = pusher.owned := by
  cases pusher <;> rfl

/-- The program point after the last access to a node. -/
def droppedPc {β : Type*} (ptr : Nat) (new : NodeCounter) (k : Cont β) : Pc β :=
  if new.internalCount = 0 ∧ new.externalCounters = 0 then .delete ptr k else k.pc

/-- Where the threads are after the counts, -/
theorem resume_pc (s : State τ α) (t : τ) (k : Cont (Numbered α)) :
    (s.resume t k).pc = Function.update s.pc t k.pc := by
  cases k <;> rfl

/-- and after a reference was dropped. -/
theorem dropped_pc (s : State τ α) (t : τ) (ptr : Nat) (new : NodeCounter)
    (k : Cont (Numbered α)) :
    (s.dropped t ptr new k).pc = Function.update s.pc t (droppedPc ptr new k) := by
  unfold State.dropped droppedPc
  split
  · rfl
  · exact resume_pc s t k

-- ---------------------------------------------------------------------------
-- States with the same nodes
-- ---------------------------------------------------------------------------

/-- Nothing happens to the nodes and their counts. -/
structure SameNodes (s s' : State τ α) : Prop where
  count : s'.count = s.count
  next : s'.next = s.next
  allocated : s'.allocated = s.allocated
  counter : s'.counter = s.counter
  published : s'.published = s.published
  passed : s'.passed = s.passed
  external : s'.external = s.external

/-- Going on leaves the nodes, -/
theorem sameNodes_resume (s : State τ α) (t : τ) (k : Cont (Numbered α)) :
    SameNodes s (s.resume t k) := by
  cases k <;> exact ⟨rfl, rfl, rfl, rfl, rfl, rfl, rfl⟩

/-- and so does the branch after a dropped reference. -/
theorem sameNodes_dropped (s : State τ α) (t : τ) (ptr : Nat) (new : NodeCounter)
    (k : Cont (Numbered α)) : SameNodes s (s.dropped t ptr new k) := by
  unfold State.dropped
  split
  · exact ⟨rfl, rfl, rfl, rfl, rfl, rfl, rfl⟩
  · exact sameNodes_resume s t k

-- ---------------------------------------------------------------------------
-- The accesses
-- ---------------------------------------------------------------------------

/-- The program points of `increase_external_count`, with what follows a failed and a
successful exchange. -/
inductive Increases {β : Type*} : Side → CountedNodePtr → Pc β → (CountedNodePtr → Pc β) →
    (CountedNodePtr → Pc β) → Prop
  | pop {old : CountedNodePtr} : Increases .head old (.popIncrease old) .popIncrease .popTail
  | push {value : β} {new old : CountedNodePtr} :
      Increases .tail old (.pushIncrease value new old) (.pushIncrease value new)
        (.pushData value new)

/-- The two exchanges of `next`, with what follows a successful one. -/
inductive Links {β : Type*} : CountedNodePtr → CountedNodePtr → Pc β → Pc β → Prop
  | push {value : β} {new old : CountedNodePtr} :
      Links old new (.pushNext value new old) (.setNewTail (.finish value) old new)
  | help {value : β} {new old : CountedNodePtr} :
      Links old new (.helpNext value new old) (.helpNew value old new)

/-- The two calls of `new`, with what follows. -/
inductive Allocates {β : Type*} (p : Nat) : Pc β → Pc β → Prop
  | push {value : β} : Allocates p (.pushNew value) (.pushLoad value ⟨1, p⟩)
  | help {value : β} {old next : CountedNodePtr} :
      Allocates p (.helpNew value old next)
        (.setNewTail (.help value ⟨next.externalCount, p⟩) old next)

/-- The counter of a node after `free_external_counter`. -/
def NodeCounter.close (counter : NodeCounter) (old : CountedNodePtr) : NodeCounter :=
  ⟨counter.internalCount + (old.externalCount - 2), counter.externalCounters - 1⟩

/-- The counter of a node after `release_ref`. -/
def NodeCounter.release (counter : NodeCounter) : NodeCounter :=
  ⟨counter.internalCount - 1, counter.externalCounters⟩

/-- `free_external_counter`'s exchange. -/
def State.close (s : State τ α) (side : Side) (old : CountedNodePtr) : State τ α :=
  { s with
    count := Function.update s.count old.ptr ((s.count old.ptr).close old)
    external := Function.update s.external old.ptr
      (Function.update (s.external old.ptr) side none) }

/-- `release_ref`'s exchange. -/
def State.release (s : State τ α) (ptr : Nat) : State τ α :=
  { s with count := Function.update s.count ptr (s.count ptr).release }

/-- Accesses that change neither the nodes nor what the thread has to do with them. -/
inductive Quiet (s : State τ α) : Pc (Numbered α) → Pc (Numbered α) → Prop
  | callPop {last : Option (Ret (Numbered α))} : Quiet s (.idle last) .popLoad
  | popLoad : Quiet s .popLoad (.popIncrease (s.counter .head))
  | again {side : Side} {old : CountedNodePtr} {pc : Pc (Numbered α)}
      {again after : CountedNodePtr → Pc (Numbered α)} (h : Increases side old pc again after) :
      Quiet s pc (again (s.counter side))
  | popEmpty {old : CountedNodePtr} (hEq : old.ptr = (s.counter .tail).ptr) :
      Quiet s (.popTail old) (.releaseLoad old.ptr (.popReturn none))
  | popTail {old : CountedNodePtr} (hNe : old.ptr ≠ (s.counter .tail).ptr) :
      Quiet s (.popTail old) (.popNext old)
  | popNext {old : CountedNodePtr} : Quiet s (.popNext old) (.popCas old (s.next old.ptr))
  | popFail {old next : CountedNodePtr} (hNe : s.counter .head ≠ old) :
      Quiet s (.popCas old next) (.releaseLoad old.ptr (.popRetry (s.counter .head)))
  | pushLoad {value : Numbered α} {new : CountedNodePtr} :
      Quiet s (.pushLoad value new) (.pushIncrease value new (s.counter .tail))
  | pushTaken {value : Numbered α} {new old : CountedNodePtr} (hData : s.data old.ptr ≠ none) :
      Quiet s (.pushData value new old) (.helpNext value new old)
  | pushHelped {value : Numbered α} {new old : CountedNodePtr} (hNext : s.next old.ptr ≠ nullNext) :
      Quiet s (.pushNext value new old) (.pushDelete value new old (s.next old.ptr))
  | helpHelped {value : Numbered α} {new old : CountedNodePtr} (hNext : s.next old.ptr ≠ nullNext) :
      Quiet s (.helpNext value new old) (.setNewTail (.help value new) old (s.next old.ptr))
  | tailSame {pusher : Pusher (Numbered α)} {old new : CountedNodePtr}
      (hEq : (s.counter .tail).ptr = old.ptr) :
      Quiet s (.setNewTail pusher old new) (.setNewTail pusher (s.counter .tail) new)
  | tailMoved {pusher : Pusher (Numbered α)} {old new : CountedNodePtr}
      (hNe : (s.counter .tail).ptr ≠ old.ptr) :
      Quiet s (.setNewTail pusher old new)
        (.releaseLoad old.ptr (pusher.cont (s.counter .tail)))
  | freeCounter {side : Side} {old : CountedNodePtr} {k : Cont (Numbered α)} {pc : Pc (Numbered α)}
      (hpc : pc = .freeLoad side old k ∨ ∃ counter, pc = .freeCas side old counter k) :
      Quiet s pc (.freeCas side old (s.count old.ptr) k)
  | releaseCounter {ptr : Nat} {k : Cont (Numbered α)} {pc : Pc (Numbered α)}
      (hpc : pc = .releaseLoad ptr k ∨ ∃ counter, pc = .releaseCas ptr counter k) :
      Quiet s pc (.releaseCas ptr (s.count ptr) k)

/-- What a step can do, with the guards under which it does it. -/
inductive Effect (s : State τ α) (t : τ) : State τ α → Prop
  | quiet {pc : Pc (Numbered α)} (h : Quiet s (s.pc t) pc) : Effect s t (s.setPc t pc)
  | callPush {last : Option (Ret (Numbered α))} {value : α} (hpc : s.pc t = .idle last) :
      Effect s t { s.setPc t (.pushNew (s.calls, value)) with calls := s.calls + 1 }
  | increase {side : Side} {again after : CountedNodePtr → Pc (Numbered α)}
      (h : Increases side (s.counter side) (s.pc t) again after) :
      Effect s t { s.setPc t (after ⟨(s.counter side).externalCount + 1, (s.counter side).ptr⟩) with
        counter := Function.update s.counter side
          ⟨(s.counter side).externalCount + 1, (s.counter side).ptr⟩
        external := Function.update s.external (s.counter side).ptr
          (Function.update (s.external (s.counter side).ptr) side
            (some ((s.counter side).externalCount + 1)))
        taken := Function.update s.taken t (s.serial (s.counter side).ptr) }
  | popCas {next : CountedNodePtr} (hpc : s.pc t = .popCas (s.counter .head) next) :
      Effect s t { (s.move .head (s.counter .head) next).setPc t (.popData (s.counter .head)) with
        popped := s.popped ++ (s.data (s.counter .head).ptr).toList }
  | popData {old : CountedNodePtr} (hpc : s.pc t = .popData old) :
      Effect s t { s.setPc t (.freeLoad .head old (.popReturn (s.data old.ptr))) with
        data := Function.update s.data old.ptr none }
  | pushData {value : Numbered α} {new old : CountedNodePtr}
      (hpc : s.pc t = .pushData value new old) (hData : s.data old.ptr = none) :
      Effect s t { s.setPc t (.pushNext value new old) with
        data := Function.update s.data old.ptr (some value) }
  | alloc {p : Nat} {pc : Pc (Numbered α)} (h : Allocates p (s.pc t) pc) (hZero : p ≠ 0)
      (hFree : s.allocated p = false) : Effect s t ((s.newNode t p).setPc t pc)
  | link {old new : CountedNodePtr} {pc : Pc (Numbered α)} (h : Links old new (s.pc t) pc)
      (hNext : s.next old.ptr = nullNext) : Effect s t ((s.link old.ptr new).setPc t pc)
  | discard {value : Numbered α} {new old next : CountedNodePtr}
      (hpc : s.pc t = .pushDelete value new old next) :
      Effect s t ((s.deleteNode new.ptr).setPc t (.setNewTail (.finish value) old next))
  | moveTail {pusher : Pusher (Numbered α)} {new : CountedNodePtr}
      (hpc : s.pc t = .setNewTail pusher (s.counter .tail) new) :
      Effect s t { (s.move .tail (s.counter .tail) new).setPc t
          (.freeLoad .tail (s.counter .tail) (pusher.cont (s.counter .tail))) with
        pushed := s.pushed ++ (s.data (s.counter .tail).ptr).toList }
  | close {side : Side} {old : CountedNodePtr} {k : Cont (Numbered α)}
      (hpc : s.pc t = .freeCas side old (s.count old.ptr) k) :
      Effect s t ((s.close side old).dropped t old.ptr ((s.count old.ptr).close old) k)
  | release {ptr : Nat} {k : Cont (Numbered α)}
      (hpc : s.pc t = .releaseCas ptr (s.count ptr) k) :
      Effect s t ((s.release ptr).dropped t ptr (s.count ptr).release k)
  | delete {ptr : Nat} {k : Cont (Numbered α)} (hpc : s.pc t = .delete ptr k) :
      Effect s t ((s.deleteNode ptr).resume t k)

/-- `increase_external_count` either fails and starts over or counts one more. -/
theorem increase_effect {side : Side} {old : CountedNodePtr}
    {again after : CountedNodePtr → Pc (Numbered α)}
    (h : Increases side old (s.pc t) again after) :
    Effect s t (s.increaseExternalCount t side old again after) := by
  unfold State.increaseExternalCount
  split
  · next hEq =>
    subst hEq
    exact .increase h
  · exact .quiet (.again h)

/-- Every access of a call in progress is one of the listed effects. -/
theorem run_effect {spurious : Bool} {fresh : Nat} (hst : run s t spurious fresh = some s') :
    Effect s t s' := by
  unfold run at hst
  split at hst
  · cases hst
  · next hpc =>
    cases hst
    exact .quiet (hpc ▸ .popLoad)
  · next hpc =>
    cases hst
    exact increase_effect (hpc ▸ .pop)
  · next hpc =>
    split at hst <;> cases hst
    · next hEq => exact .quiet (hpc ▸ .popEmpty hEq)
    · next hNe => exact .quiet (hpc ▸ .popTail hNe)
  · next hpc =>
    cases hst
    exact .quiet (hpc ▸ .popNext)
  · next hpc =>
    split at hst <;> cases hst
    · next hEq =>
      subst hEq
      exact .popCas hpc
    · next hNe => exact .quiet (hpc ▸ .popFail hNe)
  · next hpc =>
    cases hst
    exact .popData hpc
  · next hpc =>
    split at hst <;> cases hst
    next hFresh => exact .alloc (hpc ▸ .push) hFresh.1 hFresh.2
  · next hpc =>
    cases hst
    exact .quiet (hpc ▸ .pushLoad)
  · next hpc =>
    cases hst
    exact increase_effect (hpc ▸ .push)
  · next hpc =>
    split at hst <;> cases hst
    · next hData => exact .pushData hpc hData
    · next hData => exact .quiet (hpc ▸ .pushTaken (by rw [hData]; exact Option.some_ne_none _))
  · next hpc =>
    split at hst <;> cases hst
    · next hNext => exact .link (hpc ▸ .push) hNext
    · next hNext => exact .quiet (hpc ▸ .pushHelped hNext)
  · next hpc =>
    cases hst
    exact .discard hpc
  · next hpc =>
    split at hst <;> cases hst
    · next hNext => exact .link (hpc ▸ .help) hNext
    · next hNext => exact .quiet (hpc ▸ .helpHelped hNext)
  · next hpc =>
    split at hst <;> cases hst
    next hFresh => exact .alloc (hpc ▸ .help) hFresh.1 hFresh.2
  · next hpc =>
    split at hst
    · next hCas =>
      cases hst
      obtain ⟨rfl, -⟩ := hCas
      exact .moveTail hpc
    · split at hst <;> cases hst
      · next hEq => exact .quiet (hpc ▸ .tailSame hEq)
      · next hNe => exact .quiet (hpc ▸ .tailMoved hNe)
  · next hpc =>
    cases hst
    exact .quiet (hpc ▸ .freeCounter (Or.inl rfl))
  · next hpc =>
    split at hst <;> cases hst
    · next hEq =>
      subst hEq
      exact .close hpc
    · exact .quiet (hpc ▸ .freeCounter (Or.inr ⟨_, rfl⟩))
  · next hpc =>
    cases hst
    exact .quiet (hpc ▸ .releaseCounter (Or.inl rfl))
  · next hpc =>
    split at hst <;> cases hst
    · next hEq =>
      subst hEq
      exact .release hpc
    · exact .quiet (hpc ▸ .releaseCounter (Or.inr ⟨_, rfl⟩))
  · next hpc =>
    cases hst
    exact .delete hpc

/-- The thread that moves. -/
def Action.thread {β : Type*} : Action τ β → τ
  | .callPop t | .callPush t _ | .run t _ _ => t

/-- Every step is one of the listed effects. -/
theorem step_effect (hst : step s a = some s') : Effect s a.thread s' := by
  cases a with
  | callPop t =>
    simp only [step] at hst
    split at hst <;> cases hst
    next hpc => exact .quiet (hpc ▸ .callPop)
  | callPush t value =>
    simp only [step] at hst
    split at hst <;> cases hst
    next hpc => exact .callPush hpc
  | run t spurious fresh => exact run_effect hst

end EmbLinux.DesignLockFree.Queue
