import EmbLinux.DesignLockBase.Queue.Steps
import EmbLinux.Lib.Chain
import EmbLinux.Lib.Mutex
import Mathlib.Data.Option.Basic

/-!
# EmbLinux — the list of `threadsafe_queue_fine_grained`

`Nodes s l` says that the nodes `l` are the list from `front` to `tail`, what is stored
in them, and where the dummy node at `tail` is not in order: between two accesses of the
`push` that has `tail_mutex` locked. `PcOk` says what a thread knows of the list at each
program point. A pop meets a `push` in `get_tail` only; there it has `tail_mutex` locked,
so each node of the list belongs to a `push` that is complete.
-/

namespace EmbLinux.DesignLockBase.Queue

variable {τ α : Type*} {s s' : State τ α} {t u : τ} {l l' : List Nat} {p q : Nat}
  {pc : Pc (Numbered α)}

-- ---------------------------------------------------------------------------
-- The mutexes
-- ---------------------------------------------------------------------------

structure Locks (s : State τ α) : Prop where
  head : Guards s.headMutex fun t => (s.pc t).inHead
  tail : Guards s.tailMutex fun t => (s.pc t).inTail

section

variable [DecidableEq τ]

theorem Locks.move (h : Locks s) (hPc : s'.pc = Function.update s.pc t pc)
    (hHead : LockMove t s.headMutex s'.headMutex (s.pc t).inHead pc.inHead)
    (hTail : LockMove t s.tailMutex s'.tailMutex (s.pc t).inTail pc.inTail) : Locks s' :=
  ⟨h.head.move_part hPc hHead, h.tail.move_part hPc hTail⟩

omit [DecidableEq τ] in
theorem Quiet.inHead {pc pc' : Pc (Numbered α)} (h : Quiet s t pc pc') :
    pc'.inHead = pc.inHead := by
  cases h <;> rfl

omit [DecidableEq τ] in
theorem Quiet.inTail {pc pc' : Pc (Numbered α)} (h : Quiet s t pc pc') :
    pc'.inTail = pc.inTail := by
  cases h <;> rfl

/-- Unlocking `head_mutex` leaves `tail_mutex` as it is, -/
theorem HeadUnlock.locks {pc pc' : Pc (Numbered α)} (h : HeadUnlock pc pc') :
    pc.inHead = true ∧ pc'.inHead = false ∧ pc'.inTail = pc.inTail := by
  cases h <;> exact ⟨rfl, rfl, rfl⟩

/-- and locking `tail_mutex` leaves `head_mutex`. -/
theorem TailLock.locks {pc pc' : Pc (Numbered α)} (h : TailLock pc pc') :
    pc.inTail = false ∧ pc'.inTail = true ∧ pc'.inHead = pc.inHead := by
  cases h <;> exact ⟨rfl, rfl, rfl⟩

/-- A mutex is taken while it is free and given back by its owner. -/
theorem locks_effect (h : Locks s) (he : Effect s t s') : Locks s' := by
  -- the steps that lock and unlock nothing
  have hKeep : ∀ {s₁ : State τ α} {pc pc' : Pc (Numbered α)}, s.pc t = pc →
      s₁.pc = Function.update s.pc t pc' → s₁.headMutex = s.headMutex →
      s₁.tailMutex = s.tailMutex → pc'.inHead = pc.inHead → pc'.inTail = pc.inTail → Locks s₁ := by
    intro s₁ pc pc' hpc hPc hHead hTail hInHead hInTail
    refine h.move hPc ?_ ?_
    · rw [hHead, hInHead, hpc]
      exact .keep
    · rw [hTail, hInTail, hpc]
      exact .keep
  cases he with
  | quiet hQuiet => exact hKeep rfl rfl rfl rfl hQuiet.inHead hQuiet.inTail
  | callPush hpc => exact hKeep hpc rfl rfl rfl rfl rfl
  | wake hMem => exact ⟨h.head, h.tail⟩
  | headLock hpc hFree =>
    refine h.move rfl ?_ ?_
    · rw [hFree]
      exact .lock
    · rw [hpc]
      exact .keep
  | headUnlock hUnlock =>
    obtain ⟨hIn, hOut, hSame⟩ := hUnlock.locks
    refine h.move rfl ?_ ?_
    · rw [hIn, hOut]
      exact .unlock
    · rw [hSame]
      exact .keep
  | tailLock hLock hFree =>
    obtain ⟨-, hIn, hSame⟩ := hLock.locks
    refine h.move rfl ?_ ?_
    · rw [hSame]
      exact .keep
    · rw [hFree, hIn]
      exact .lock
  | getUnlock hpc =>
    refine h.move rfl ?_ ?_ <;> rw [hpc]
    · exact .keep
    · exact .unlock
  | getRead hpc => exact hKeep hpc rfl rfl rfl rfl rfl
  | waitBlock hpc =>
    refine h.move rfl ?_ ?_ <;> rw [hpc]
    · exact .unlock
    · exact .keep
  | alloc hpc hZero hFree => exact hKeep hpc rfl rfl rfl rfl rfl
  | pushData hpc => exact hKeep hpc rfl rfl rfl rfl rfl
  | pushNext hpc => exact hKeep hpc rfl rfl rfl rfl rfl
  | pushTail hpc => exact hKeep hpc rfl rfl rfl rfl rfl
  | pushUnlock hpc =>
    refine h.move rfl ?_ ?_ <;> rw [hpc]
    · exact .keep
    · exact .unlock
  | notifyNone hpc hEmpty => exact hKeep hpc rfl rfl rfl rfl rfl
  | notify hpc hMem => exact hKeep hpc rfl rfl rfl rfl rfl
  | popMove hpc => exact hKeep hpc rfl rfl rfl rfl rfl
  | popNext hpc => exact hKeep hpc rfl rfl rfl rfl rfl
  | popHead hpc => exact hKeep hpc rfl rfl rfl rfl rfl
  | popDelete hpc => exact hKeep hpc rfl rfl rfl rfl rfl

omit [DecidableEq τ] in
/-- Both are free. -/
theorem locks_init : Locks (init τ α) :=
  ⟨fun t => by simp [init, Pc.inHead], fun t => by simp [init, Pc.inTail]⟩

end

-- ---------------------------------------------------------------------------
-- The front of the list
-- ---------------------------------------------------------------------------

/-- The first node of the list as the thread at this program point sees it: it may have read
`next` already, and not yet have assigned `head`. -/
def State.frontAt (s : State τ α) : Pc (Numbered α) → Nat
  | .popNext old _ => s.next old
  | .popHead _ next _ => next
  | _ => s.head

/-- The first node of the list: `head`, or the successor of the old head while a pop is
between its two moves. -/
def State.front (s : State τ α) : Nat :=
  match s.headMutex with
  | some t => s.frontAt (s.pc t)
  | none => s.head

/-- A thread that is not moving `head` sees `head`. -/
theorem frontAt_of_still (h : pc.moving = false) : s.frontAt pc = s.head := by
  cases pc <;> first | rfl | cases h

/-- The owner of `head_mutex` is the only one that can be moving it. -/
theorem Locks.front_of_holder (h : Locks s) (ht : (s.pc t).inHead = true) :
    s.front = s.frontAt (s.pc t) := by
  rw [State.front, (h.head t).mpr ht]

/-- While nobody moves it, the list begins at `head`. -/
theorem front_of_still (h : ∀ t, (s.pc t).moving = false) : s.front = s.head := by
  unfold State.front
  split
  · next t _ => exact frontAt_of_still (h t)
  · rfl

section

variable [DecidableEq τ]

/-- Steps that leave `head`, the old heads and the moves of the pops as they are. -/
theorem front_same (h : Locks s) (h' : Locks s') (hPc : s'.pc = Function.update s.pc t pc)
    (hStill : (s.pc t).moving = false) (hStill' : pc.moving = false) (hHead : s'.head = s.head)
    (hNext : ∀ u q, (s.pc u).owned = some q → s'.next q = s.next q) : s'.front = s.front := by
  by_cases hMoving : ∃ u, (s.pc u).moving = true
  · obtain ⟨u, hu⟩ := hMoving
    have hut : u ≠ t := by
      rintro rfl
      rw [hStill] at hu
      cases hu
    have hPcU : s'.pc u = s.pc u := by rw [hPc, Function.update_of_ne hut]
    have hIn := Pc.inHead_of_moving hu
    have hOwned := hNext u
    rw [h.front_of_holder hIn, h'.front_of_holder (hPcU ▸ hIn), hPcU]
    generalize s.pc u = pcu at hOwned hu
    cases pcu with
    | popNext old out => exact hOwned old rfl
    | popHead old next out => rfl
    | _ => cases hu
  · have hAll : ∀ u, (s.pc u).moving = false := by
      intro u
      cases hu : (s.pc u).moving with
      | false => rfl
      | true => exact absurd ⟨u, hu⟩ hMoving
    rw [front_of_still hAll, ← hHead]
    refine front_of_still ?_
    exact forall_of_update (p := fun pc => pc.moving = false) hPc hAll hStill'

end

-- ---------------------------------------------------------------------------
-- The invariant
-- ---------------------------------------------------------------------------

/-- The old head that a pop took: nothing follows it once `next` is moved out, and its
value is there. -/
structure Taken (s : State τ α) (old : Nat) (out : Option (Numbered α)) : Prop where
  complete : s.complete old = true
  data : (s.data old).isSome = true
  out : ∀ v, out = some v → s.data old = some v

/-- What thread `t` knows of the list `l` at its program point. -/
def PcOk (s : State τ α) (l : List Nat) (t : τ) : Pc (Numbered α) → Prop
  | .pushLock _ p | .pushData _ p => s.data p = none ∧ s.next p = 0
  | .pushNext data p =>
    (s.data p = none ∧ s.next p = 0) ∧ s.data s.tail = some data ∧ s.filled t = s.tail
  | .pushTail data p =>
    (s.data p = none ∧ s.next p = 0) ∧ s.data s.tail = some data ∧ s.filled t = s.tail ∧
      s.next s.tail = p
  | .getUnlock _ r | .compare _ r =>
    s.seenEmpty t = decide (s.head = r) ∧
      (s.head ≠ r → s.head ∈ l ∧ s.complete s.head = true)
  | .waitBlock _ | .failUnlock => s.seenEmpty t = true
  | .emptyUnlock b => s.seenEmpty t = b
  | .popValue c => c ≠ .empty ∧ s.head ∈ l ∧ s.complete s.head = true
  | .popMove c out =>
    c ≠ .empty ∧ (s.head ∈ l ∧ s.complete s.head = true) ∧
      ∀ v, out = some v → s.data s.head = some v
  | .popNext old out => Taken s old out
  | .popHead old _ out | .popUnlock old out => Taken s old out ∧ s.next old = 0
  | .popRead old => Taken s old none ∧ s.next old = 0
  | .popDelete old res => Taken s old res ∧ s.next old = 0 ∧ res.isSome = true
  | _ => True

/-- Between the write of `tail->next` and the assignment of `tail`. -/
def Pc.linking {β : Type*} : Pc β → Bool
  | .pushTail .. => true
  | _ => false

/-- The nodes from the front to the dummy are linked and allocated, each thread that is inside
`push` or `pop` has a node of its own, and the values in the list are those that were pushed and
not yet popped. -/
structure Nodes (s : State τ α) (l : List Nat) : Prop where
  null : s.allocated 0 = false
  tail : s.allocated s.tail = true
  mem : ∀ p ∈ l, s.allocated p = true
  /-- From `head`, or where a pop has moved it to, the nodes of the list lead to `tail`. -/
  linked : Linked s.next s.tail s.front l
  /-- A node that a thread has for itself is none of these, -/
  owned : ∀ t p, (s.pc t).owned = some p → s.allocated p = true ∧ p ∉ l ∧ p ≠ s.tail
  /-- and nobody else has it. -/
  ownedOne : ∀ t u p, (s.pc t).owned = some p → (s.pc u).owned = some p → t = u
  /-- What the threads know. -/
  pcs : ∀ t, PcOk s l t (s.pc t)
  /-- The dummy node is empty, unless a `push` is filling it. -/
  dummyData : (∀ t, (s.pc t).filling = false) → s.data s.tail = none
  dummyNext : (∀ t, (s.pc t).linking = false) → s.next s.tail = 0
  /-- A node of the list has been completed, or its `push` is about to unlock. -/
  complete : ∀ p ∈ l, s.complete p = true ∨ ∃ t, s.pc t = .pushUnlock ∧ s.filled t = p
  /-- What went in is what came out and then what is in the list, in this order. -/
  stored : s.pushed.map some = s.popped.map some ++ l.map s.data

/-- What a step of another thread leaves alone keeps what a thread knows. -/
theorem PcOk.frame (h : PcOk s l t pc) (hSeen : s'.seenEmpty t = s.seenEmpty t)
    (hFilled : s'.filled t = s.filled t)
    (hOwned : ∀ q, pc.owned = some q → s'.data q = s.data q ∧ s'.next q = s.next q ∧
      (s.complete q = true → s'.complete q = true))
    (hTail : pc.inTail = true →
      s'.tail = s.tail ∧ s'.data s.tail = s.data s.tail ∧ s'.next s.tail = s.next s.tail)
    (hHead : pc.inHead = true → s'.head = s.head ∧ (s.head ∈ l → s.head ∈ l' ∧
      s'.data s.head = s.data s.head ∧ (s.complete s.head = true → s'.complete s.head = true))) :
    PcOk s' l' t pc := by
  have hTaken : ∀ {old : Nat} {out : Option (Numbered α)}, pc.owned = some old →
      Taken s old out → Taken s' old out := by
    intro old out hOld hTaken
    obtain ⟨hData, -, hComplete⟩ := hOwned old hOld
    refine ⟨hComplete hTaken.complete, ?_, ?_⟩ <;> rw [hData]
    · exact hTaken.data
    · exact hTaken.out
  have hFront : pc.inHead = true → s.head ∈ l ∧ s.complete s.head = true →
      s'.head ∈ l' ∧ s'.complete s'.head = true := by
    rintro hIn ⟨hMem, hComplete⟩
    obtain ⟨hEq, hKept⟩ := hHead hIn
    obtain ⟨hMem', -, hComplete'⟩ := hKept hMem
    rw [hEq]
    exact ⟨hMem', hComplete' hComplete⟩
  cases pc with
  | pushLock data p | pushData data p =>
    obtain ⟨hData, hNext, -⟩ := hOwned p rfl
    exact ⟨hData.trans h.1, hNext.trans h.2⟩
  | pushNext data p =>
    obtain ⟨hData, hNext, -⟩ := hOwned p rfl
    obtain ⟨hTail', hTailData, -⟩ := hTail rfl
    obtain ⟨hNew, hStored, hAt⟩ := h
    refine ⟨⟨hData.trans hNew.1, hNext.trans hNew.2⟩, ?_, ?_⟩ <;> rw [hTail']
    · exact hTailData.trans hStored
    · exact hFilled.trans hAt
  | pushTail data p =>
    obtain ⟨hData, hNext, -⟩ := hOwned p rfl
    obtain ⟨hTail', hTailData, hTailNext⟩ := hTail rfl
    obtain ⟨hNew, hStored, hAt, hLink⟩ := h
    refine ⟨⟨hData.trans hNew.1, hNext.trans hNew.2⟩, ?_, ?_, ?_⟩ <;> rw [hTail']
    · exact hTailData.trans hStored
    · exact hFilled.trans hAt
    · exact hTailNext.trans hLink
  | getUnlock c r | compare c r =>
    obtain ⟨hSeenAt, hFull⟩ := h
    have hEq := (hHead rfl).1
    refine ⟨by rw [hSeen, hEq, hSeenAt], ?_⟩
    intro hNe
    exact hFront rfl (hFull (hEq ▸ hNe))
  | waitBlock o => exact hSeen.trans h
  | failUnlock => exact hSeen.trans h
  | emptyUnlock b => exact hSeen.trans h
  | popValue c => exact ⟨h.1, hFront rfl h.2⟩
  | popMove c out =>
    obtain ⟨hCall, hFull, hOut⟩ := h
    obtain ⟨hEq, hKept⟩ := hHead rfl
    refine ⟨hCall, hFront rfl hFull, ?_⟩
    rw [hEq, (hKept hFull.1).2.1]
    exact hOut
  | popNext old out => exact hTaken rfl h
  | popHead old next out | popUnlock old out | popRead old =>
    exact ⟨hTaken rfl h.1, (hOwned old rfl).2.1.trans h.2⟩
  | popDelete old res => exact ⟨hTaken rfl h.1, (hOwned old rfl).2.1.trans h.2.1, h.2.2⟩
  | idle _ | pushNew _ | pushUnlock | pushNotify | headLock _ | getLock _ | getRead _ | blocked _ =>
    trivial

end EmbLinux.DesignLockBase.Queue
