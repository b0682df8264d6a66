import EmbLinux.DesignLockBase.ThreadsafeList.Model
import EmbLinux.Lib.Following

/-!
# EmbLinux — what one step of `threadsafe_list` does

`Effect` lists the steps with what held before them and the state after; the invariants are
proved by cases on it. For each program point there are the mutexes that the thread holds
there, the node that only this thread has, and the nodes that its next step touches.
-/

namespace EmbLinux.DesignLockBase.ThreadsafeList

variable {τ α : Type*} [DecidableEq τ] {s s' : State τ α} {a : Action τ α} {t : τ}

-- ---------------------------------------------------------------------------
-- Program points
-- ---------------------------------------------------------------------------

/-- The mutexes that are locked by the thread. -/
def Pc.holds : Pc α → Nat → Bool
  | .pushTake _, q | .pushLink _, q | .pushUnlock, q => decide (q = head)
  | .readNext _ c, q | .lockNext _ c _, q | .unlockLast _ c, q | .removeDelete c _, q =>
    decide (q = c)
  | .callBack _ n, q | .findReturn n, q | .findUnlock n _, q => decide (q = n)
  | .unlockCurrent _ c n, q | .callPredicate c n, q | .removeTake c n, q | .removeLink c n, q
  | .removeUnlock c n, q | .removePass c n, q => decide (q = c ∨ q = n)
  | .idle _, _ | .pushNew _, _ | .pushLock _, _ | .lockHead _, _ => false

/-- The mutex that the thread waits for. -/
def Pc.waitsFor : Pc α → Option Nat
  | .pushLock _ | .lockHead _ => some head
  | .lockNext _ _ n => some n
  | _ => none

/-- The node of `new_node`. -/
def Pc.newNode : Pc α → Option Nat
  | .pushLock p | .pushTake p | .pushLink p => some p
  | _ => none

/-- The node of `new_node` or `old_next`. -/
def Pc.owned : Pc α → Option Nat
  | .pushLock p | .pushTake p | .pushLink p => some p
  | .removeLink _ n | .removeUnlock _ n | .removeDelete _ n => some n
  | _ => none

/-- The node whose `next` was moved out and is not assigned yet. -/
def Pc.breaks : Pc α → Option Nat
  | .pushLink _ => some head
  | .removeLink c _ => some c
  | _ => none

/-- The nodes whose memory the next step of the thread reads or writes. -/
def Pc.touches : Pc α → List Nat
  | .pushLock _ | .pushUnlock | .lockHead _ => [head]
  | .pushTake p | .pushLink p => [p, head]
  | .readNext _ c | .unlockCurrent _ c _ | .removePass c _ | .unlockLast _ c => [c]
  | .lockNext _ _ n | .callBack _ n | .findReturn n | .findUnlock n _ | .callPredicate _ n
  | .removeUnlock _ n | .removeDelete _ n => [n]
  | .removeTake c _ => [c]
  | .removeLink c n => [c, n]
  | .idle _ | .pushNew _ => []

/-- The thread has no call under way. -/
def Pc.isIdle : Pc α → Bool
  | .idle _ => true
  | _ => false

/-- A link is out of place only under the lock of its node. -/
theorem Pc.holds_of_breaks {pc : Pc α} {p : Nat} (h : pc.breaks = some p) : pc.holds p = true := by
  cases pc <;> cases h <;> simp [Pc.holds]

/-- A new node belongs to the thread that made it. -/
theorem Pc.owned_of_newNode {pc : Pc α} {p : Nat} (h : pc.newNode = some p) :
    pc.owned = some p := by
  cases pc <;> cases h <;> rfl

-- ---------------------------------------------------------------------------
-- Steps
-- ---------------------------------------------------------------------------

/-- What one step does, a case for each program point. -/
inductive Effect (s : State τ α) (t : τ) : State τ α → Prop
  | callPush {last : Option (Ret α)} {data : α} (hpc : s.pc t = .idle last) :
      Effect s t (s.setPc t (.pushNew data))
  | call {last : Option (Ret α)} {v : Traversal} (hpc : s.pc t = .idle last) :
      Effect s t (s.setPc t (.lockHead v))
  | pushNew {data : α} (hpc : s.pc t = .pushNew data) :
      Effect s t ((s.newNode data).setPc t (.pushLock (s.news + 2)))
  | pushLock {p : Nat} (hpc : s.pc t = .pushLock p) (hFree : s.mutex head = none) :
      Effect s t ((s.lock t head).setPc t (.pushTake p))
  | pushTake {p : Nat} (hpc : s.pc t = .pushTake p) :
      Effect s t ((s.moveNext p head).setPc t (.pushLink p))
  | pushLink {p : Nat} (hpc : s.pc t = .pushLink p) :
      Effect s t ((s.linkFront p).setPc t .pushUnlock)
  | pushUnlock (hpc : s.pc t = .pushUnlock) :
      Effect s t ((s.unlock head).setPc t (.idle (some .pushed)))
  | lockHead {v : Traversal} (hpc : s.pc t = .lockHead v) (hFree : s.mutex head = none) :
      Effect s t (((s.lock t head).enter t).setPc t (.readNext v head))
  | readEnd {v : Traversal} {c : Nat} (hpc : s.pc t = .readNext v c) (hNull : s.next c = 0) :
      Effect s t (s.setPc t (.unlockLast v c))
  | readNext {v : Traversal} {c : Nat} (hpc : s.pc t = .readNext v c) (hNext : s.next c ≠ 0) :
      Effect s t (s.setPc t (.lockNext v c (s.next c)))
  | lockNext {v : Traversal} {c n : Nat} (hpc : s.pc t = .lockNext v c n)
      (hFree : s.mutex n = none) :
      Effect s t ((s.lock t n).setPc t (afterLock v c n))
  | unlockCurrent {v : Traversal} {c n : Nat} (hpc : s.pc t = .unlockCurrent v c n) :
      Effect s t ((s.unlock c).setPc t (.callBack v n))
  | callBack {v : Traversal} {n : Nat} {answer : Bool} {value : Option α}
      (hpc : s.pc t = .callBack v n) :
      Effect s t (((s.assign n value).visit t n).setPc t (afterCall v n answer))
  | findReturn {n : Nat} (hpc : s.pc t = .findReturn n) :
      Effect s t (s.setPc t (.findUnlock n (s.data n)))
  | findUnlock {n : Nat} {res : Option α} (hpc : s.pc t = .findUnlock n res) :
      Effect s t ((s.unlock n).setPc t (.idle (some (.found res))))
  | accept {c n : Nat} {value : Option α} (hpc : s.pc t = .callPredicate c n) :
      Effect s t (((s.assign n value).accept t n).setPc t (.removeTake c n))
  | reject {c n : Nat} {value : Option α} (hpc : s.pc t = .callPredicate c n) :
      Effect s t ((s.assign n value).setPc t (.removePass c n))
  | removeTake {c n : Nat} (hpc : s.pc t = .removeTake c n) :
      Effect s t ((s.takeNext t c n).setPc t (.removeLink c n))
  | removeLink {c n : Nat} (hpc : s.pc t = .removeLink c n) :
      Effect s t ((s.moveNext c n).setPc t (.removeUnlock c n))
  | removeUnlock {c n : Nat} (hpc : s.pc t = .removeUnlock c n) :
      Effect s t ((s.unlock n).setPc t (.removeDelete c n))
  | removeDelete {c n : Nat} (hpc : s.pc t = .removeDelete c n) :
      Effect s t ((s.delete n).setPc t (.readNext .removeIf c))
  | removePass {c n : Nat} (hpc : s.pc t = .removePass c n) :
      Effect s t ((s.unlock c).setPc t (.readNext .removeIf n))
  | unlockLast {v : Traversal} {c : Nat} (hpc : s.pc t = .unlockLast v c) :
      Effect s t ((s.unlock c).setPc t (.idle (some v.ret)))

/-- A step inside a call is one of them. -/
theorem run_effect {answer : Bool} {value : Option α} (hst : run s t answer value = some s') :
    Effect s t s' := by
  unfold run at hst
  split at hst
  · cases hst
  · next hpc => cases hst; exact .pushNew hpc
  · next hpc =>
    split at hst
    · next hFree => cases hst; exact .pushLock hpc hFree
    · cases hst
  · next hpc => cases hst; exact .pushTake hpc
  · next hpc => cases hst; exact .pushLink hpc
  · next hpc => cases hst; exact .pushUnlock hpc
  · next hpc =>
    split at hst
    · next hFree => cases hst; exact .lockHead hpc hFree
    · cases hst
  · next hpc =>
    split at hst
    · next hNull => cases hst; exact .readEnd hpc hNull
    · next hNext => cases hst; exact .readNext hpc hNext
  · next hpc =>
    split at hst
    · next hFree => cases hst; exact .lockNext hpc hFree
    · cases hst
  · next hpc => cases hst; exact .unlockCurrent hpc
  · next hpc => cases hst; exact .callBack hpc
  · next hpc => cases hst; exact .findReturn hpc
  · next hpc => cases hst; exact .findUnlock hpc
  · next hpc =>
    split at hst
    · cases hst; exact .accept hpc
    · cases hst; exact .reject hpc
  · next hpc => cases hst; exact .removeTake hpc
  · next hpc => cases hst; exact .removeLink hpc
  · next hpc => cases hst; exact .removeUnlock hpc
  · next hpc => cases hst; exact .removeDelete hpc
  · next hpc => cases hst; exact .removePass hpc
  · next hpc => cases hst; exact .unlockLast hpc

/-- Every step is a step of one thread. -/
theorem step_effect (hst : step s a = some s') : ∃ t, Effect s t s' := by
  cases a with
  | callPush t data =>
    simp only [step] at hst
    split at hst
    · next hpc =>
      cases hst
      exact ⟨t, .callPush hpc⟩
    · cases hst
  | call t v =>
    simp only [step] at hst
    split at hst
    · next hpc =>
      cases hst
      exact ⟨t, .call hpc⟩
    · cases hst
  | run t answer value => exact ⟨t, run_effect hst⟩

/-- A thread that cannot make its next step has no call, or waits for a mutex. -/
theorem run_eq_none {answer : Bool} {value : Option α} (h : run s t answer value = none) :
    (s.pc t).isIdle = true ∨ ∃ p u, (s.pc t).waitsFor = some p ∧ s.mutex p = some u := by
  unfold run at h
  cases hpc : s.pc t with
  | idle last => exact Or.inl rfl
  | pushLock p | lockHead v =>
    rw [hpc] at h
    cases hLock : s.mutex head with
    | none => simp [hLock] at h
    | some u => exact Or.inr ⟨head, u, rfl, hLock⟩
  | lockNext v c n =>
    rw [hpc] at h
    cases hLock : s.mutex n with
    | none => simp [hLock] at h
    | some u => exact Or.inr ⟨n, u, rfl, hLock⟩
  | readNext v c =>
    rw [hpc] at h
    simp only at h
    split at h <;> cases h
  | callPredicate c n =>
    rw [hpc] at h
    simp only at h
    split at h <;> cases h
  | _ =>
    rw [hpc] at h
    cases h

end EmbLinux.DesignLockBase.ThreadsafeList
