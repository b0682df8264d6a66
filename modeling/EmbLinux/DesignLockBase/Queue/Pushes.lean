import EmbLinux.DesignLockBase.Queue.Nodes

/-!
# EmbLinux — the steps of `push` keep the list of `threadsafe_queue_fine_grained`

One lemma for each access, and `Nodes.stay` for the steps that leave the nodes alone. The
accesses to the dummy node are made with `tail_mutex` locked, so no other thread knows
anything of its fields; the new node belongs to the thread that pushes it. The assignment
to `tail` adds the old dummy node to the list.
-/

namespace EmbLinux.DesignLockBase.Queue

variable {τ α : Type*} [DecidableEq τ] {s s' : State τ α} {t u : τ} {l : List Nat} {p q : Nat}
  {pc : Pc (Numbered α)} {data : Numbered α}

-- ---------------------------------------------------------------------------
-- Owned nodes
-- ---------------------------------------------------------------------------

/-- A step that gives thread `t` no new node. -/
theorem owned_old (hPc : s'.pc = Function.update s.pc t pc)
    (hOwn : pc.owned = (s.pc t).owned ∨ pc.owned = none) {u : τ} {q : Nat}
    (h : (s'.pc u).owned = some q) : (s.pc u).owned = some q := by
  rcases update_cases hPc u with ⟨rfl, hu⟩ | ⟨-, hu⟩ <;> rw [hu] at h
  · rcases hOwn with hOwn | hOwn
    · exact hOwn ▸ h
    · rw [hOwn] at h
      cases h
  · exact h

/-- A step that gives it the node `p`, which nobody had. -/
theorem owned_new (hPc : s'.pc = Function.update s.pc t pc) (hOwn : pc.owned = some p) {u : τ}
    {q : Nat} (h : (s'.pc u).owned = some q) :
    (u = t ∧ q = p) ∨ (u ≠ t ∧ (s.pc u).owned = some q) := by
  rcases update_cases hPc u with ⟨hut, hu⟩ | ⟨hut, hu⟩ <;> rw [hu] at h
  · exact Or.inl ⟨hut, Option.some.inj (h.symm.trans hOwn)⟩
  · exact Or.inr ⟨hut, h⟩

/-- A property of program points that the step of thread `t` keeps. -/
theorem flag_old (m : Pc (Numbered α) → Bool) (hPc : s'.pc = Function.update s.pc t pc)
    (hKeep : m pc = m (s.pc t)) (hAll : ∀ u, m (s'.pc u) = false) (u : τ) : m (s.pc u) = false := by
  rw [← observe_update m hPc hKeep u]
  exact hAll u

/-- The `push` of another thread that is about to unlock `tail_mutex`. -/
theorem unlocking_other (hPc : s'.pc = Function.update s.pc t pc) (hNot : s.pc t ≠ .pushUnlock)
    (hFilled : ∀ u, u ≠ t → s'.filled u = s.filled u)
    (h : ∃ u, s.pc u = .pushUnlock ∧ s.filled u = q) :
    ∃ u, s'.pc u = .pushUnlock ∧ s'.filled u = q := by
  obtain ⟨u, hu, hAt⟩ := h
  have hut : u ≠ t := fun hEq => hNot (hEq ▸ hu)
  refine ⟨u, ?_, (hFilled u hut).trans hAt⟩
  rw [hPc, Function.update_of_ne hut, hu]

namespace Nodes

variable (h : Nodes s l)

include h in
omit [DecidableEq τ] in
/-- The dummy is not among the nodes with a value. -/
theorem tail_notMem : s.tail ∉ l :=
  fun hMem => h.linked.ne_stop hMem rfl

omit [DecidableEq τ] in
/-- The nodes that other threads own are not the ones of thread `t`. -/
theorem other_ne (h : Nodes s l) (ht : (s.pc t).owned = some p) (hut : u ≠ t)
    (hu : (s.pc u).owned = some q) : q ≠ p := by
  rintro rfl
  exact hut (h.ownedOne u t q hu ht)

end Nodes

/-- What each thread knows, after a step of thread `t`. -/
theorem pcs_step {l' : List Nat} (h : Nodes s l) (hPc : s'.pc = Function.update s.pc t pc)
    (hNew : PcOk s' l' t pc) (hOther : ∀ u, u ≠ t → PcOk s l u (s.pc u) → PcOk s' l' u (s.pc u)) :
    ∀ u, PcOk s' l' u (s'.pc u) := by
  intro u
  rcases update_cases hPc u with ⟨rfl, hu⟩ | ⟨hut, hu⟩ <;> rw [hu]
  · exact hNew
  · exact hOther u hut (h.pcs u)

-- ---------------------------------------------------------------------------
-- Steps that leave the nodes alone
-- ---------------------------------------------------------------------------

/-- The memory is the same. -/
structure SameNodes (s s' : State τ α) : Prop where
  data : s'.data = s.data
  next : s'.next = s.next
  allocated : s'.allocated = s.allocated
  head : s'.head = s.head
  tail : s'.tail = s.tail
  complete : s'.complete = s.complete
  filled : s'.filled = s.filled
  pushed : s'.pushed = s.pushed
  popped : s'.popped = s.popped

/-- The parts of a program point that the list depends on are the same. -/
structure SameRole {β : Type*} (pc pc' : Pc β) : Prop where
  owned : pc'.owned = pc.owned
  filling : pc'.filling = pc.filling
  linking : pc'.linking = pc.linking
  still : pc.moving = false ∧ pc'.moving = false
  notUnlock : pc ≠ .pushUnlock

/-- Steps that keep the list and the allocated nodes; the list, the dummy node and what
the threads know are left to show. -/
theorem Nodes.touch (h : Nodes s l) (hPc : s'.pc = Function.update s.pc t pc)
    (hOwn : pc.owned = (s.pc t).owned) (hNot : s.pc t ≠ .pushUnlock)
    (hKept : s'.allocated = s.allocated ∧ s'.tail = s.tail ∧ s'.complete = s.complete ∧
      s'.pushed = s.pushed ∧ s'.popped = s.popped)
    (hFilled : ∀ u, u ≠ t → s'.filled u = s.filled u) (hData : ∀ q ∈ l, s'.data q = s.data q)
    (hLinked : Linked s'.next s'.tail s'.front l) (hPcs : ∀ u, PcOk s' l u (s'.pc u))
    (hDummyData : (∀ u, (s'.pc u).filling = false) → s'.data s'.tail = none)
    (hDummyNext : (∀ u, (s'.pc u).linking = false) → s'.next s'.tail = 0) : Nodes s' l := by
  obtain ⟨hAlloc, hTail, hComplete, hPushed, hPopped⟩ := hKept
  have hOld : ∀ {u q}, (s'.pc u).owned = some q → (s.pc u).owned = some q :=
    owned_old hPc (Or.inl hOwn)
  refine ⟨?_, ?_, ?_, hLinked, ?_, ?_, hPcs, hDummyData, hDummyNext, ?_, ?_⟩
  · rw [hAlloc]
    exact h.null
  · rw [hAlloc, hTail]
    exact h.tail
  · rw [hAlloc]
    exact h.mem
  · rw [hAlloc, hTail]
    exact fun u q hu => h.owned u q (hOld hu)
  · exact fun u v q hu hv => h.ownedOne u v q (hOld hu) (hOld hv)
  · intro q hq
    rw [hComplete]
    exact (h.complete q hq).imp_right (unlocking_other hPc hNot hFilled)
  · rw [hPushed, hPopped, h.stored]
    congr 1
    exact List.map_congr_left fun q hq => (hData q hq).symm

omit [DecidableEq τ] in
/-- What a thread knows at its program point is about nodes, not about other threads. -/
theorem PcOk.same (h : PcOk s l t pc) (hSame : SameNodes s s')
    (hSeen : s'.seenEmpty t = s.seenEmpty t) : PcOk s' l t pc := by
  refine h.frame hSeen (by rw [hSame.filled]) ?_ ?_ ?_
  · intro q _
    rw [hSame.data, hSame.next, hSame.complete]
    exact ⟨rfl, rfl, id⟩
  · intro _
    rw [hSame.data, hSame.next, hSame.tail]
    exact ⟨rfl, rfl, rfl⟩
  · intro _
    rw [hSame.data, hSame.head, hSame.complete]
    exact ⟨rfl, fun hMem => ⟨hMem, rfl, id⟩⟩

/-- A step that changes no node keeps the list. -/
theorem Nodes.stay (h : Nodes s l) (hLocks : Locks s) (hLocks' : Locks s') (hSame : SameNodes s s')
    (hPc : s'.pc = Function.update s.pc t pc) (hRole : SameRole (s.pc t) pc)
    (hSeen : ∀ u, u ≠ t → s'.seenEmpty u = s.seenEmpty u) (hNew : PcOk s' l t pc) :
    Nodes s' l := by
  have hFront : s'.front = s.front := by
    refine front_same hLocks hLocks' hPc hRole.still.1 hRole.still.2 hSame.head ?_
    intro u q _
    rw [hSame.next]
  have hPcs : ∀ u, PcOk s' l u (s'.pc u) := by
    refine pcs_step h hPc hNew ?_
    intro u hut hOk
    exact hOk.same hSame (hSeen u hut)
  refine h.touch hPc hRole.owned hRole.notUnlock
    ⟨hSame.allocated, hSame.tail, hSame.complete, hSame.pushed, hSame.popped⟩
    (fun u _ => by rw [hSame.filled]) (fun q _ => by rw [hSame.data]) ?_ hPcs ?_ ?_
  · rw [hSame.next, hSame.tail, hFront]
    exact h.linked
  · rw [hSame.data, hSame.tail]
    exact fun hAll => h.dummyData (flag_old Pc.filling hPc hRole.filling hAll)
  · rw [hSame.next, hSame.tail]
    exact fun hAll => h.dummyNext (flag_old Pc.linking hPc hRole.linking hAll)

omit [DecidableEq τ] in
/-- Quiet accesses leave the nodes of a thread with it, -/
theorem Quiet.sameRole {pc pc' : Pc (Numbered α)} (h : Quiet s t pc pc') : SameRole pc pc' := by
  cases h <;> exact ⟨rfl, rfl, rfl, ⟨rfl, rfl⟩, fun hEq => by cases hEq⟩

/-- and so does unlocking `head_mutex`, -/
theorem HeadUnlock.sameRole {pc pc' : Pc (Numbered α)} (h : HeadUnlock pc pc') :
    SameRole pc pc' := by
  cases h <;> exact ⟨rfl, rfl, rfl, ⟨rfl, rfl⟩, fun hEq => by cases hEq⟩

/-- and locking `tail_mutex`. -/
theorem TailLock.sameRole {pc pc' : Pc (Numbered α)} (h : TailLock pc pc') : SameRole pc pc' := by
  cases h <;> exact ⟨rfl, rfl, rfl, ⟨rfl, rfl⟩, fun hEq => by cases hEq⟩

section

omit [DecidableEq τ]

/-- What was known still is. -/
theorem Quiet.pcOk {pc pc' : Pc (Numbered α)} (h : Quiet s t pc pc') (hOk : PcOk s l t pc) :
    PcOk s l t pc' := by
  cases h with
  | call => trivial
  | relock hOut => trivial
  | wait hEq =>
    obtain ⟨hSeen, -⟩ := hOk
    exact hSeen.trans (decide_eq_true hEq)
  | fail hEq =>
    obtain ⟨hSeen, -⟩ := hOk
    exact hSeen.trans (decide_eq_true hEq)
  | empty => exact hOk.1
  | take hNe hCall =>
    refine ⟨?_, hOk.2 hNe, fun v hv => by cases hv⟩
    rcases hCall with rfl | rfl <;> exact fun hEq => by cases hEq
  | takeValue hNe hCall =>
    refine ⟨?_, hOk.2 hNe⟩
    rcases hCall with rfl | rfl <;> exact fun hEq => by cases hEq
  | popValue hData =>
    refine ⟨hOk.1, hOk.2, ?_⟩
    intro v hv
    rw [hData, hv]
  | @popRead old =>
    obtain ⟨hTaken, hNext⟩ := hOk
    exact ⟨⟨hTaken.complete, hTaken.data, fun v hv => hv⟩, hNext, hTaken.data⟩

/-- Outside of the lock less has to be known. -/
theorem HeadUnlock.pcOk {pc pc' : Pc (Numbered α)} (h : HeadUnlock pc pc') (hOk : PcOk s l t pc) :
    PcOk s l t pc' := by
  cases h with
  | pointer => exact hOk
  | value => exact ⟨hOk.1, hOk.2, rfl⟩
  | fail => trivial
  | empty => trivial

/-- Inside of it the dummy is still empty. -/
theorem TailLock.pcOk {pc pc' : Pc (Numbered α)} (h : TailLock pc pc') (hOk : PcOk s l t pc) :
    PcOk s l t pc' := by
  cases h with
  | push => exact hOk
  | get => trivial

end

-- ---------------------------------------------------------------------------
-- `push`
-- ---------------------------------------------------------------------------

namespace Nodes

/-- `new node`. -/
theorem alloc (h : Nodes s l) (hLocks : Locks s) (hpc : s.pc t = .pushNew data) (hZero : p ≠ 0)
    (hFree : s.allocated p = false) (hLocks' : Locks s')
    (hs' : s' = (s.newNode p).setPc t (.pushLock data p)) : Nodes s' l := by
  have hPc : s'.pc = Function.update s.pc t (.pushLock data p) := by rw [hs']; rfl
  have hData : s'.data = Function.update s.data p none := by rw [hs']; rfl
  have hNext : s'.next = Function.update s.next p 0 := by rw [hs']; rfl
  have hTail' : s'.tail = s.tail := by rw [hs']; rfl
  have hAlloc : s'.allocated = Function.update s.allocated p true := by rw [hs']; rfl
  have hComplete : s'.complete = Function.update s.complete p false := by rw [hs']; rfl
  have hFilled : s'.filled = s.filled := by rw [hs']; rfl
  have hHead : s'.head = s.head := by rw [hs']; rfl
  -- the address was free, so it is neither in the list nor with a thread
  have hTail : s.tail ≠ p := by
    rintro rfl
    rw [h.tail] at hFree
    cases hFree
  have hMem : ∀ q ∈ l, q ≠ p := by
    rintro q hq rfl
    rw [h.mem q hq] at hFree
    cases hFree
  have hOwned : ∀ u q, (s.pc u).owned = some q → q ≠ p := by
    rintro u q hu rfl
    rw [(h.owned u q hu).1] at hFree
    cases hFree
  -- so each field reads the new functions at other addresses than `p`
  refine ⟨?_, ?_, ?_, ?_, ?_, ?_, ?_, ?_, ?_, ?_, ?_⟩
  · rw [hAlloc, Function.update_of_ne hZero.symm]
    exact h.null
  · rw [hAlloc, hTail', Function.update_of_ne hTail]
    exact h.tail
  · intro q hq
    rw [hAlloc, Function.update_of_ne (hMem q hq)]
    exact h.mem q hq
  · have hFront : s'.front = s.front := by
      refine front_same hLocks hLocks' hPc (by rw [hpc]; rfl) rfl hHead ?_
      intro u q hu
      rw [hNext, Function.update_of_ne (hOwned u q hu)]
    rw [hFront, hTail', hNext]
    exact h.linked.update (fun hp => hMem p hp rfl) 0
  · intro u q hu
    rw [hAlloc, hTail']
    rcases owned_new hPc rfl hu with ⟨-, rfl⟩ | ⟨-, hu⟩
    · exact ⟨Function.update_self .., fun hq => hMem q hq rfl, hTail.symm⟩
    · rw [Function.update_of_ne (hOwned u q hu)]
      exact h.owned u q hu
  · intro u v q hu hv
    rcases owned_new hPc rfl hu with ⟨hut, hqp⟩ | ⟨-, hu⟩ <;>
      rcases owned_new hPc rfl hv with ⟨hvt, hqp'⟩ | ⟨-, hv⟩
    · rw [hut, hvt]
    · exact absurd hqp (hOwned v q hv)
    · exact absurd hqp' (hOwned u q hu)
    · exact h.ownedOne u v q hu hv
  -- only the thread itself knows the fields of the new node
  · refine pcs_step h hPc ?_ ?_
    · show s'.data p = none ∧ s'.next p = 0
      rw [hData, hNext, Function.update_self, Function.update_self]
      exact ⟨rfl, rfl⟩
    · intro u _ hOk
      refine hOk.frame (by rw [hs']; rfl) (by rw [hFilled]) ?_ ?_ ?_
      · intro q hq
        have hne := hOwned u q hq
        rw [hData, hNext, hComplete, Function.update_of_ne hne, Function.update_of_ne hne,
          Function.update_of_ne hne]
        exact ⟨rfl, rfl, id⟩
      · intro _
        rw [hData, hNext, Function.update_of_ne hTail, Function.update_of_ne hTail]
        exact ⟨hTail', rfl, rfl⟩
      · intro _
        refine ⟨hHead, fun hIn => ?_⟩
        rw [hData, hComplete, Function.update_of_ne (hMem _ hIn),
          Function.update_of_ne (hMem _ hIn)]
        exact ⟨hIn, rfl, id⟩
  · intro hAll
    rw [hData, hTail', Function.update_of_ne hTail]
    exact h.dummyData (flag_old Pc.filling hPc (by rw [hpc]; rfl) hAll)
  · intro hAll
    rw [hNext, hTail', Function.update_of_ne hTail]
    exact h.dummyNext (flag_old Pc.linking hPc (by rw [hpc]; rfl) hAll)
  · intro q hq
    rw [hComplete, Function.update_of_ne (hMem q hq)]
    refine (h.complete q hq).imp_right ?_
    refine unlocking_other hPc ?_ fun u _ => by rw [hFilled]
    rw [hpc]
    exact fun hEq => by cases hEq
  · rw [hs']
    show s.pushed.map some = s.popped.map some ++ l.map (Function.update s.data p none)
    rw [h.stored]
    congr 1
    refine List.map_congr_left ?_
    intro q hq
    rw [Function.update_of_ne (hMem q hq)]

/-- `tail->data = new_data`. -/
theorem pushData (h : Nodes s l) (hLocks : Locks s) (hpc : s.pc t = .pushData data p)
    (hLocks' : Locks s') (hs' : s' = { s.setPc t (.pushNext data p) with
      data := Function.update s.data s.tail (some data)
      filled := Function.update s.filled t s.tail }) : Nodes s' l := by
  have hPc : s'.pc = Function.update s.pc t (.pushNext data p) := by rw [hs']; rfl
  have hData : s'.data = Function.update s.data s.tail (some data) := by rw [hs']
  have hFilled : s'.filled = Function.update s.filled t s.tail := by rw [hs']
  have hNext : s'.next = s.next := by rw [hs']; rfl
  have hTail : s'.tail = s.tail := by rw [hs']; rfl
  have hHead : s'.head = s.head := by rw [hs']; rfl
  have hComplete : s'.complete = s.complete := by rw [hs']; rfl
  have hIn : (s.pc t).inTail = true := by rw [hpc]; rfl
  have hNew : (s.pc t).owned = some p := by rw [hpc]; rfl
  have hOwned : ∀ u q, (s.pc u).owned = some q → q ≠ s.tail := fun u q hu => (h.owned u q hu).2.2
  have hMem : ∀ q ∈ l, q ≠ s.tail := fun q hq => h.linked.ne_stop hq
  have hFront : s'.front = s.front :=
    front_same hLocks hLocks' hPc (by rw [hpc]; rfl) rfl hHead fun _ _ _ => by rw [hNext]
  refine h.touch hPc (by rw [hpc]; rfl) (by rw [hpc]; exact fun hEq => by cases hEq)
    (by rw [hs']; exact ⟨rfl, rfl, rfl, rfl, rfl⟩) ?_ ?_ ?_ ?_ ?_ ?_
  · intro u hut
    rw [hFilled, Function.update_of_ne hut]
  · intro q hq
    rw [hData, Function.update_of_ne (hMem q hq)]
  · rw [hNext, hTail, hFront]
    exact h.linked
  · refine pcs_step h hPc ?_ ?_
    · have hOk := h.pcs t
      rw [hpc] at hOk
      show (s'.data p = none ∧ s'.next p = 0) ∧ s'.data s'.tail = some data ∧ s'.filled t = s'.tail
      rw [hData, hNext, hTail, hFilled, Function.update_of_ne (hOwned t p hNew),
        Function.update_self, Function.update_self]
      exact ⟨hOk, rfl, rfl⟩
    · intro u hut hOk
      refine hOk.frame (by rw [hs']; rfl) (by rw [hFilled, Function.update_of_ne hut]) ?_ ?_ ?_
      · intro q hq
        rw [hData, hNext, hComplete, Function.update_of_ne (hOwned u q hq)]
        exact ⟨rfl, rfl, id⟩
      · exact fun hIn' => absurd (hLocks.tail.unique hIn' hIn) hut
      · intro _
        refine ⟨hHead, fun hHeadMem => ?_⟩
        rw [hData, hComplete, Function.update_of_ne (hMem _ hHeadMem)]
        exact ⟨hHeadMem, rfl, id⟩
  · intro hAll
    have hFilling := hAll t
    rw [hPc, Function.update_self] at hFilling
    cases hFilling
  · intro hAll
    rw [hNext, hTail]
    exact h.dummyNext (flag_old Pc.linking hPc (by rw [hpc]; rfl) hAll)

/-- `tail->next = std::move(p)`. -/
theorem pushNext (h : Nodes s l) (hLocks : Locks s) (hpc : s.pc t = .pushNext data p)
    (hLocks' : Locks s') (hs' : s' = { s.setPc t (.pushTail data p) with
      next := Function.update s.next s.tail p }) : Nodes s' l := by
  have hPc : s'.pc = Function.update s.pc t (.pushTail data p) := by rw [hs']; rfl
  have hData : s'.data = s.data := by rw [hs']; rfl
  have hFilled : s'.filled = s.filled := by rw [hs']; rfl
  have hNext : s'.next = Function.update s.next s.tail p := by rw [hs']
  have hTail : s'.tail = s.tail := by rw [hs']; rfl
  have hHead : s'.head = s.head := by rw [hs']; rfl
  have hComplete : s'.complete = s.complete := by rw [hs']; rfl
  have hIn : (s.pc t).inTail = true := by rw [hpc]; rfl
  have hNew : (s.pc t).owned = some p := by rw [hpc]; rfl
  have hOwned : ∀ u q, (s.pc u).owned = some q → q ≠ s.tail := fun u q hu => (h.owned u q hu).2.2
  have hFront : s'.front = s.front := by
    refine front_same hLocks hLocks' hPc (by rw [hpc]; rfl) rfl hHead ?_
    intro u q hu
    rw [hNext, Function.update_of_ne (hOwned u q hu)]
  refine h.touch hPc (by rw [hpc]; rfl) (by rw [hpc]; exact fun hEq => by cases hEq)
    (by rw [hs']; exact ⟨rfl, rfl, rfl, rfl, rfl⟩) (fun u _ => by rw [hFilled])
    (fun q _ => by rw [hData]) ?_ ?_ ?_ ?_
  · rw [hNext, hTail, hFront]
    exact h.linked.update h.tail_notMem p
  · refine pcs_step h hPc ?_ ?_
    · have hOk := h.pcs t
      rw [hpc] at hOk
      obtain ⟨⟨hDataP, hNextP⟩, hStored, hAt⟩ := hOk
      show (s'.data p = none ∧ s'.next p = 0) ∧ s'.data s'.tail = some data ∧
        s'.filled t = s'.tail ∧ s'.next s'.tail = p
      rw [hData, hNext, hTail, hFilled, Function.update_of_ne (hOwned t p hNew),
        Function.update_self]
      exact ⟨⟨hDataP, hNextP⟩, hStored, hAt, rfl⟩
    · intro u hut hOk
      refine hOk.frame (by rw [hs']; rfl) (by rw [hFilled]) ?_ ?_ ?_
      · intro q hq
        rw [hData, hNext, hComplete, Function.update_of_ne (hOwned u q hq)]
        exact ⟨rfl, rfl, id⟩
      · exact fun hIn' => absurd (hLocks.tail.unique hIn' hIn) hut
      · intro _
        rw [hData, hComplete]
        exact ⟨hHead, fun hHeadMem => ⟨hHeadMem, rfl, id⟩⟩
  · intro hAll
    rw [hData, hTail]
    exact h.dummyData (flag_old Pc.filling hPc (by rw [hpc]; rfl) hAll)
  · intro hAll
    have hLinking := hAll t
    rw [hPc, Function.update_self] at hLinking
    cases hLinking

/-- `tail = new_tail`: the old dummy node is the last node of the list. -/
theorem pushTail (h : Nodes s l) (hLocks : Locks s) (hpc : s.pc t = .pushTail data p)
    (hLocks' : Locks s') (hs' : s' = (s.assignTail data p).setPc t .pushUnlock) :
    Nodes s' (l ++ [s.tail]) := by
  have hPc : s'.pc = Function.update s.pc t .pushUnlock := by rw [hs']; rfl
  have hData : s'.data = s.data := by rw [hs']; rfl
  have hFilled : s'.filled = s.filled := by rw [hs']; rfl
  have hNext : s'.next = s.next := by rw [hs']; rfl
  have hTail : s'.tail = p := by rw [hs']; rfl
  have hHead : s'.head = s.head := by rw [hs']; rfl
  have hAlloc : s'.allocated = s.allocated := by rw [hs']; rfl
  have hComplete : s'.complete = s.complete := by rw [hs']; rfl
  have hIn : (s.pc t).inTail = true := by rw [hpc]; rfl
  have hNew : (s.pc t).owned = some p := by rw [hpc]; rfl
  obtain ⟨hAllocP, hOutP, hNeP⟩ := h.owned t p hNew
  have hOld : ∀ {u q}, (s'.pc u).owned = some q → (s.pc u).owned = some q :=
    owned_old hPc (Or.inr rfl)
  have hNotMe : ∀ {u q}, (s'.pc u).owned = some q → u ≠ t := by
    rintro u q hu rfl
    rw [hPc, Function.update_self] at hu
    cases hu
  have hOk := h.pcs t
  rw [hpc] at hOk
  obtain ⟨⟨hDataP, hNextP⟩, hStored, hAt, hLink⟩ := hOk
  refine ⟨?_, ?_, ?_, ?_, ?_, ?_, ?_, ?_, ?_, ?_, ?_⟩
  · rw [hAlloc]
    exact h.null
  · rw [hAlloc, hTail]
    exact hAllocP
  · intro q hq
    rw [hAlloc]
    rcases List.mem_append.mp hq with hq | hq
    · exact h.mem q hq
    · rw [List.mem_singleton.mp hq]
      exact h.tail
  · rw [front_same hLocks hLocks' hPc (by rw [hpc]; rfl) rfl hHead fun _ _ _ => by rw [hNext],
      hNext, hTail]
    exact h.linked.extend hLink hNeP.symm hOutP
  · intro u q hu
    obtain ⟨hAllocQ, hOutQ, hNeQ⟩ := h.owned u q (hOld hu)
    rw [hAlloc, hTail]
    refine ⟨hAllocQ, ?_, h.other_ne hNew (hNotMe hu) (hOld hu)⟩
    intro hq
    rcases List.mem_append.mp hq with hq | hq
    · exact hOutQ hq
    · exact hNeQ (List.mem_singleton.mp hq)
  · exact fun u v q hu hv => h.ownedOne u v q (hOld hu) (hOld hv)
  · refine pcs_step h hPc trivial ?_
    intro u hut hOk
    refine hOk.frame (by rw [hs']; rfl) (by rw [hFilled]) ?_ ?_ ?_
    · intro q hq
      rw [hData, hNext, hComplete]
      exact ⟨rfl, rfl, id⟩
    · exact fun hIn' => absurd (hLocks.tail.unique hIn' hIn) hut
    · intro _
      rw [hData, hComplete]
      exact ⟨hHead, fun hHeadMem => ⟨List.mem_append_left _ hHeadMem, rfl, id⟩⟩
  · intro _
    rw [hData, hTail]
    exact hDataP
  · intro _
    rw [hNext, hTail]
    exact hNextP
  · intro q hq
    rw [hComplete]
    rcases List.mem_append.mp hq with hq | hq
    · refine (h.complete q hq).imp_right ?_
      exact unlocking_other hPc (by rw [hpc]; exact fun hEq => by cases hEq)
        fun u _ => by rw [hFilled]
    · refine Or.inr ⟨t, by rw [hPc, Function.update_self], ?_⟩
      rw [hFilled, hAt, List.mem_singleton.mp hq]
  · rw [hData, hs']
    show (s.pushed ++ [data]).map some = s.popped.map some ++ (l ++ [s.tail]).map s.data
    rw [List.map_append, List.map_append, h.stored, List.append_assoc, List.map_singleton,
      List.map_singleton, hStored]

/-- `push` leaves its locked region. -/
theorem pushUnlock (h : Nodes s l) (hLocks : Locks s) (hpc : s.pc t = .pushUnlock)
    (hLocks' : Locks s') (hs' : s' = { s.setPc t .pushNotify with
      tailMutex := none
      complete := Function.update s.complete (s.filled t) true }) : Nodes s' l := by
  have hPc : s'.pc = Function.update s.pc t .pushNotify := by rw [hs']; rfl
  have hData : s'.data = s.data := by rw [hs']; rfl
  have hNext : s'.next = s.next := by rw [hs']; rfl
  have hTail : s'.tail = s.tail := by rw [hs']; rfl
  have hHead : s'.head = s.head := by rw [hs']; rfl
  have hAlloc : s'.allocated = s.allocated := by rw [hs']; rfl
  have hComplete : s'.complete = Function.update s.complete (s.filled t) true := by rw [hs']
  have hIn : (s.pc t).inTail = true := by rw [hpc]; rfl
  have hOld : ∀ {u q}, (s'.pc u).owned = some q → (s.pc u).owned = some q :=
    owned_old hPc (Or.inr rfl)
  have hMono : ∀ q, s.complete q = true → s'.complete q = true := by
    intro q hq
    rw [hComplete]
    rcases update_at s.complete (s.filled t) true q with ⟨-, hAt⟩ | ⟨-, hAt⟩ <;> rw [hAt]
    exact hq
  refine ⟨?_, ?_, ?_, ?_, ?_, ?_, ?_, ?_, ?_, ?_, ?_⟩
  · rw [hAlloc]
    exact h.null
  · rw [hAlloc, hTail]
    exact h.tail
  · rw [hAlloc]
    exact h.mem
  · rw [front_same hLocks hLocks' hPc (by rw [hpc]; rfl) rfl hHead fun _ _ _ => by rw [hNext],
      hNext, hTail]
    exact h.linked
  · rw [hAlloc, hTail]
    exact fun u q hu => h.owned u q (hOld hu)
  · exact fun u v q hu hv => h.ownedOne u v q (hOld hu) (hOld hv)
  · refine pcs_step h hPc trivial ?_
    intro u hut hOk
    refine hOk.frame (by rw [hs']; rfl) (by rw [hs']; rfl) ?_ ?_ ?_
    · intro q _
      rw [hData, hNext]
      exact ⟨rfl, rfl, hMono q⟩
    · intro _
      rw [hData, hNext, hTail]
      exact ⟨rfl, rfl, rfl⟩
    · intro _
      rw [hData]
      exact ⟨hHead, fun hHeadMem => ⟨hHeadMem, rfl, hMono _⟩⟩
  · rw [hData, hTail]
    exact fun hAll => h.dummyData (flag_old Pc.filling hPc (by rw [hpc]; rfl) hAll)
  · rw [hNext, hTail]
    exact fun hAll => h.dummyNext (flag_old Pc.linking hPc (by rw [hpc]; rfl) hAll)
  · intro q hq
    rcases h.complete q hq with hDone | ⟨u, hu, hAt⟩
    · exact Or.inl (hMono q hDone)
    · -- the thread that is about to unlock is this one
      obtain rfl : u = t := hLocks.tail.unique (by rw [hu]; rfl) hIn
      rw [hComplete, ← hAt, Function.update_self]
      exact Or.inl rfl
  · rw [hData, hs']
    exact h.stored

end Nodes

end EmbLinux.DesignLockBase.Queue
