import EmbLinux.DesignLockBase.Queue.Pushes

/-!
# EmbLinux — the invariant of `threadsafe_queue_fine_grained`

The steps of the pops: the first node of the list is moved out of `head` into a pop, and
nobody else reaches it from then on. `get_tail` is where the pops meet the calls of
`push`: its reader has both mutexes locked. With the steps of `push` and of `data_cond`
this gives the invariant `Inv` of all runs.
-/

namespace EmbLinux.DesignLockBase.Queue

variable {τ α : Type*} [DecidableEq τ] {s s' : State τ α} {t u : τ} {l : List Nat} {q : Nat}
  {pc : Pc (Numbered α)}

namespace Nodes

-- ---------------------------------------------------------------------------
-- The pops
-- ---------------------------------------------------------------------------

omit [DecidableEq τ] in
/-- Each node of the list has a value. -/
theorem data_isSome (h : Nodes s l) (hq : q ∈ l) : (s.data q).isSome = true := by
  have hMem : s.data q ∈ s.pushed.map some := by
    rw [h.stored]
    exact List.mem_append_right _ (List.mem_map_of_mem hq)
  obtain ⟨v, -, hv⟩ := List.mem_map.mp hMem
  rw [← hv]
  rfl

omit [DecidableEq τ] in
/-- The head of the list is `head`, for a pop that has seen that the queue is not empty. -/
theorem head_cons (h : Nodes s l) (hLocks : Locks s) (hIn : (s.pc t).inHead = true)
    (hStill : (s.pc t).moving = false) (hMem : s.head ∈ l) :
    ∃ rest, l = s.head :: rest ∧ Linked s.next s.tail (s.next s.head) rest := by
  have hLinked := h.linked
  rw [hLocks.front_of_holder hIn, frontAt_of_still hStill] at hLinked
  exact hLinked.eq_cons (h.linked.ne_stop hMem)

/-- `old_head = std::move(head)`: the first node belongs to the pop. -/
theorem popMove {c : HeadCall} {out : Option (Numbered α)} (h : Nodes s l) (hLocks : Locks s)
    (hpc : s.pc t = .popMove c out) (hLocks' : Locks s')
    (hs' : s' = (s.moveHead t).setPc t (.popNext s.head out)) :
    ∃ rest, l = s.head :: rest ∧ Nodes s' rest := by
  have hPc : s'.pc = Function.update s.pc t (.popNext s.head out) := by rw [hs']; rfl
  have hData : s'.data = s.data := by rw [hs']; rfl
  have hNext : s'.next = s.next := by rw [hs']; rfl
  have hTail : s'.tail = s.tail := by rw [hs']; rfl
  have hAlloc : s'.allocated = s.allocated := by rw [hs']; rfl
  have hComplete : s'.complete = s.complete := by rw [hs']; rfl
  have hFilled : s'.filled = s.filled := by rw [hs']; rfl
  have hIn : (s.pc t).inHead = true := by rw [hpc]; rfl
  have hOk := h.pcs t
  rw [hpc] at hOk
  obtain ⟨-, ⟨hMem, hDone⟩, hOut⟩ := hOk
  have hIsSome := h.data_isSome hMem
  obtain ⟨rest, rfl, hRest⟩ := h.head_cons hLocks hIn (by rw [hpc]; rfl) hMem
  have hOwned : ∀ {u q}, (s.pc u).owned = some q → q ≠ s.head := by
    rintro u q hu rfl
    exact (h.owned u _ hu).2.1 List.mem_cons_self
  refine ⟨rest, rfl, ?_, ?_, ?_, ?_, ?_, ?_, ?_, ?_, ?_, ?_, ?_⟩
  · rw [hAlloc]
    exact h.null
  · rw [hAlloc, hTail]
    exact h.tail
  · rw [hAlloc]
    exact fun q hq => h.mem q (List.mem_cons_of_mem _ hq)
  · have hPcT : s'.pc t = .popNext s.head out := by rw [hPc, Function.update_self]
    rw [hLocks'.front_of_holder (t := t) (by rw [hPcT]; rfl), hPcT, hTail]
    show Linked s'.next s.tail (s'.next s.head) rest
    rw [hNext]
    exact hRest
  · intro u q hu
    rw [hAlloc, hTail]
    rcases owned_new hPc rfl hu with ⟨-, rfl⟩ | ⟨-, hu⟩
    · exact ⟨h.mem _ List.mem_cons_self, (List.nodup_cons.mp h.linked.nodup).1,
        h.linked.ne_stop List.mem_cons_self⟩
    · obtain ⟨hAllocQ, hOutQ, hNeQ⟩ := h.owned u q hu
      exact ⟨hAllocQ, fun hq => hOutQ (List.mem_cons_of_mem _ hq), hNeQ⟩
  · intro u v q hu hv
    rcases owned_new hPc rfl hu with ⟨hut, hq⟩ | ⟨-, hu⟩ <;>
      rcases owned_new hPc rfl hv with ⟨hvt, hq'⟩ | ⟨-, hv⟩
    · rw [hut, hvt]
    · exact absurd hq (hOwned hv)
    · exact absurd hq' (hOwned hu)
    · exact h.ownedOne u v q hu hv
  · refine pcs_step h hPc ?_ ?_
    · show Taken s' s.head out
      refine ⟨?_, ?_, ?_⟩
      · rw [hComplete]
        exact hDone
      · rw [hData]
        exact hIsSome
      · rw [hData]
        exact hOut
    · intro u hut hOk
      refine hOk.frame (by rw [hs']; rfl) (by rw [hFilled]) ?_ ?_ ?_
      · intro q hq
        rw [hData, hNext, hComplete]
        exact ⟨rfl, rfl, id⟩
      · intro _
        rw [hData, hNext, hTail]
        exact ⟨rfl, rfl, rfl⟩
      · exact fun hIn' => absurd (hLocks.head.unique hIn' hIn) hut
  · rw [hData, hTail]
    exact fun hAll => h.dummyData (flag_old Pc.filling hPc (by rw [hpc]; rfl) hAll)
  · rw [hNext, hTail]
    exact fun hAll => h.dummyNext (flag_old Pc.linking hPc (by rw [hpc]; rfl) hAll)
  · intro q hq
    rw [hComplete]
    refine (h.complete q (List.mem_cons_of_mem _ hq)).imp_right ?_
    exact unlocking_other hPc (by rw [hpc]; exact fun hEq => by cases hEq)
      fun u _ => by rw [hFilled]
  · obtain ⟨v, hv⟩ := Option.isSome_iff_exists.mp hIsSome
    rw [hData, hs']
    show s.pushed.map some = (s.popped ++ (s.data s.head).toList).map some ++ rest.map s.data
    rw [h.stored, hv, List.map_cons, hv, Option.toList_some, List.map_append, List.map_singleton,
      List.append_assoc, List.singleton_append]

/-- `next` is moved out of the old head. -/
theorem popNext {old : Nat} {out : Option (Numbered α)} (h : Nodes s l) (hLocks : Locks s)
    (hpc : s.pc t = .popNext old out) (hLocks' : Locks s')
    (hs' : s' = { s.setPc t (.popHead old (s.next old) out) with
      next := Function.update s.next old 0 }) : Nodes s' l := by
  have hPc : s'.pc = Function.update s.pc t (.popHead old (s.next old) out) := by rw [hs']; rfl
  have hData : s'.data = s.data := by rw [hs']; rfl
  have hNext : s'.next = Function.update s.next old 0 := by rw [hs']
  have hTail : s'.tail = s.tail := by rw [hs']; rfl
  have hHead : s'.head = s.head := by rw [hs']; rfl
  have hComplete : s'.complete = s.complete := by rw [hs']; rfl
  have hFilled : s'.filled = s.filled := by rw [hs']; rfl
  have hIn : (s.pc t).inHead = true := by rw [hpc]; rfl
  have hMine : (s.pc t).owned = some old := by rw [hpc]; rfl
  obtain ⟨-, hOutOld, hNeOld⟩ := h.owned t old hMine
  refine h.touch hPc (by rw [hpc]; rfl) (by rw [hpc]; exact fun hEq => by cases hEq)
    (by rw [hs']; exact ⟨rfl, rfl, rfl, rfl, rfl⟩) (fun u _ => by rw [hFilled])
    (fun q _ => by rw [hData]) ?_ ?_ ?_ ?_
  · have hPcT : s'.pc t = .popHead old (s.next old) out := by rw [hPc, Function.update_self]
    have hLinked := h.linked
    rw [hLocks.front_of_holder hIn, hpc] at hLinked
    rw [hLocks'.front_of_holder (t := t) (by rw [hPcT]; rfl), hPcT, hTail, hNext]
    exact hLinked.update hOutOld 0
  · refine pcs_step h hPc ?_ ?_
    · have hOk := h.pcs t
      rw [hpc] at hOk
      show Taken s' old out ∧ s'.next old = 0
      refine ⟨⟨?_, ?_, ?_⟩, ?_⟩
      · rw [hComplete]
        exact hOk.complete
      · rw [hData]
        exact hOk.data
      · rw [hData]
        exact hOk.out
      · rw [hNext, Function.update_self]
    · intro u hut hOk
      refine hOk.frame (by rw [hs']; rfl) (by rw [hFilled]) ?_ ?_ ?_
      · intro q hq
        rw [hData, hNext, hComplete, Function.update_of_ne (h.other_ne hMine hut hq)]
        exact ⟨rfl, rfl, id⟩
      · intro _
        rw [hData, hNext, Function.update_of_ne hNeOld.symm]
        exact ⟨hTail, rfl, rfl⟩
      · exact fun hIn' => absurd (hLocks.head.unique hIn' hIn) hut
  · rw [hData, hTail]
    exact fun hAll => h.dummyData (flag_old Pc.filling hPc (by rw [hpc]; rfl) hAll)
  · rw [hNext, hTail, Function.update_of_ne hNeOld.symm]
    exact fun hAll => h.dummyNext (flag_old Pc.linking hPc (by rw [hpc]; rfl) hAll)

/-- The pointer that was moved out is stored in `head`. -/
theorem popHead {old next : Nat} {out : Option (Numbered α)} (h : Nodes s l) (hLocks : Locks s)
    (hpc : s.pc t = .popHead old next out) (hLocks' : Locks s')
    (hs' : s' = { s.setPc t (.popUnlock old out) with head := next }) : Nodes s' l := by
  have hPc : s'.pc = Function.update s.pc t (.popUnlock old out) := by rw [hs']; rfl
  have hData : s'.data = s.data := by rw [hs']; rfl
  have hNext : s'.next = s.next := by rw [hs']; rfl
  have hTail : s'.tail = s.tail := by rw [hs']; rfl
  have hComplete : s'.complete = s.complete := by rw [hs']; rfl
  have hFilled : s'.filled = s.filled := by rw [hs']; rfl
  have hIn : (s.pc t).inHead = true := by rw [hpc]; rfl
  refine h.touch hPc (by rw [hpc]; rfl) (by rw [hpc]; exact fun hEq => by cases hEq)
    (by rw [hs']; exact ⟨rfl, rfl, rfl, rfl, rfl⟩) (fun u _ => by rw [hFilled])
    (fun q _ => by rw [hData]) ?_ ?_ ?_ ?_
  · have hPcT : s'.pc t = .popUnlock old out := by rw [hPc, Function.update_self]
    have hLinked := h.linked
    rw [hLocks.front_of_holder hIn, hpc] at hLinked
    rw [hLocks'.front_of_holder (t := t) (by rw [hPcT]; rfl), hPcT, hTail, hNext]
    show Linked s.next s.tail s'.head l
    rw [hs']
    exact hLinked
  · refine pcs_step h hPc ?_ ?_
    · have hOk := h.pcs t
      rw [hpc] at hOk
      obtain ⟨hTaken, hNextOld⟩ := hOk
      show Taken s' old out ∧ s'.next old = 0
      refine ⟨⟨?_, ?_, ?_⟩, ?_⟩
      · rw [hComplete]
        exact hTaken.complete
      · rw [hData]
        exact hTaken.data
      · rw [hData]
        exact hTaken.out
      · rw [hNext]
        exact hNextOld
    · intro u hut hOk
      refine hOk.frame (by rw [hs']; rfl) (by rw [hFilled]) ?_ ?_ ?_
      · intro q hq
        rw [hData, hNext, hComplete]
        exact ⟨rfl, rfl, id⟩
      · intro _
        rw [hData, hNext, hTail]
        exact ⟨rfl, rfl, rfl⟩
      · exact fun hIn' => absurd (hLocks.head.unique hIn' hIn) hut
  · rw [hData, hTail]
    exact fun hAll => h.dummyData (flag_old Pc.filling hPc (by rw [hpc]; rfl) hAll)
  · rw [hNext, hTail]
    exact fun hAll => h.dummyNext (flag_old Pc.linking hPc (by rw [hpc]; rfl) hAll)

/-- `delete` of the old head. -/
theorem popDelete {old : Nat} {res : Option (Numbered α)} (h : Nodes s l) (hLocks : Locks s)
    (hpc : s.pc t = .popDelete old res) (hLocks' : Locks s')
    (hs' : s' = { s.setPc t (.idle (some (.popped res))) with
      allocated := Function.update s.allocated old false }) : Nodes s' l := by
  have hPc : s'.pc = Function.update s.pc t (.idle (some (.popped res))) := by rw [hs']; rfl
  have hData : s'.data = s.data := by rw [hs']; rfl
  have hNext : s'.next = s.next := by rw [hs']; rfl
  have hTail : s'.tail = s.tail := by rw [hs']; rfl
  have hHead : s'.head = s.head := by rw [hs']; rfl
  have hAlloc : s'.allocated = Function.update s.allocated old false := by rw [hs']
  have hComplete : s'.complete = s.complete := by rw [hs']; rfl
  have hFilled : s'.filled = s.filled := by rw [hs']; rfl
  have hMine : (s.pc t).owned = some old := by rw [hpc]; rfl
  obtain ⟨hAllocOld, hOutOld, hNeOld⟩ := h.owned t old hMine
  have hOld : ∀ {u q}, (s'.pc u).owned = some q → (s.pc u).owned = some q :=
    owned_old hPc (Or.inr rfl)
  have hNotMe : ∀ {u q}, (s'.pc u).owned = some q → u ≠ t := by
    rintro u q hu rfl
    rw [hPc, Function.update_self] at hu
    cases hu
  have hNull : (0 : Nat) ≠ old := by
    rintro rfl
    rw [h.null] at hAllocOld
    cases hAllocOld
  refine ⟨?_, ?_, ?_, ?_, ?_, ?_, ?_, ?_, ?_, ?_, ?_⟩
  · rw [hAlloc, Function.update_of_ne hNull]
    exact h.null
  · rw [hAlloc, hTail, Function.update_of_ne hNeOld.symm]
    exact h.tail
  · intro q hq
    have hne : q ≠ old := fun hEq => hOutOld (hEq ▸ hq)
    rw [hAlloc, Function.update_of_ne hne]
    exact h.mem q hq
  · rw [front_same hLocks hLocks' hPc (by rw [hpc]; rfl) rfl hHead fun _ _ _ => by rw [hNext],
      hNext, hTail]
    exact h.linked
  · intro u q hu
    rw [hAlloc, hTail, Function.update_of_ne (h.other_ne hMine (hNotMe hu) (hOld hu))]
    exact h.owned u q (hOld hu)
  · exact fun u v q hu hv => h.ownedOne u v q (hOld hu) (hOld hv)
  · refine pcs_step h hPc trivial ?_
    intro u hut hOk
    refine hOk.frame (by rw [hs']; rfl) (by rw [hFilled]) ?_ ?_ ?_
    · intro q _
      rw [hData, hNext, hComplete]
      exact ⟨rfl, rfl, id⟩
    · intro _
      rw [hData, hNext, hTail]
      exact ⟨rfl, rfl, rfl⟩
    · intro _
      rw [hData, hComplete]
      exact ⟨hHead, fun hHeadMem => ⟨hHeadMem, rfl, id⟩⟩
  · rw [hData, hTail]
    exact fun hAll => h.dummyData (flag_old Pc.filling hPc (by rw [hpc]; rfl) hAll)
  · rw [hNext, hTail]
    exact fun hAll => h.dummyNext (flag_old Pc.linking hPc (by rw [hpc]; rfl) hAll)
  · intro q hq
    rw [hComplete]
    refine (h.complete q hq).imp_right ?_
    exact unlocking_other hPc (by rw [hpc]; exact fun hEq => by cases hEq)
      fun u _ => by rw [hFilled]
  · rw [hData, hs']
    exact h.stored

-- ---------------------------------------------------------------------------
-- `get_tail`
-- ---------------------------------------------------------------------------

section

omit [DecidableEq τ]

/-- As many values popped as pushed: nothing is stored. -/
theorem length_eq (h : Nodes s l) : s.pushed.length = s.popped.length + l.length := by
  have hLength := congrArg List.length h.stored
  rwa [List.length_map, List.length_append, List.length_map, List.length_map] at hLength

/-- The predicate, for a thread that has both mutexes locked. -/
theorem empty_iff (h : Nodes s l) (hLocks : Locks s) (hIn : (s.pc t).inHead = true)
    (hStill : (s.pc t).moving = false) :
    s.head = s.tail ↔ s.pushed.length = s.popped.length := by
  have hLinked := h.linked
  rw [hLocks.front_of_holder hIn, frontAt_of_still hStill] at hLinked
  have hLength := h.length_eq
  constructor
  · intro hEq
    rw [hEq] at hLinked
    rw [hLinked.eq_nil] at hLength
    exact hLength
  · intro hEq
    cases l with
    | nil => exact hLinked
    | cons q rest =>
      rw [List.length_cons] at hLength
      omega

/-- What the reader of `tail` sees belongs to complete calls of `push`. -/
theorem complete_of_reader (h : Nodes s l) (hLocks : Locks s) (hIn : (s.pc t).inTail = true)
    (hNot : s.pc t ≠ .pushUnlock) (hq : q ∈ l) : s.complete q = true := by
  rcases h.complete q hq with hDone | ⟨u, hu, -⟩
  · exact hDone
  · obtain rfl : u = t := hLocks.tail.unique (by rw [hu]; rfl) hIn
    exact absurd hu hNot

end

/-- A thread that reads `tail` under `tail_mutex` and `head_mutex` knows the last node. -/
theorem getRead {c : HeadCall} (h : Nodes s l) (hLocks : Locks s) (hpc : s.pc t = .getRead c) :
    PcOk ((s.readTail t).setPc t (.getUnlock c s.tail)) l t (.getUnlock c s.tail) := by
  have hInHead : (s.pc t).inHead = true := by rw [hpc]; rfl
  have hStill : (s.pc t).moving = false := by rw [hpc]; rfl
  have hInTail : (s.pc t).inTail = true := by rw [hpc]; rfl
  have hEmpty := h.empty_iff hLocks hInHead hStill
  show Function.update s.seenEmpty t (decide (s.pushed.length = s.popped.length)) t =
    decide (s.head = s.tail) ∧ (s.head ≠ s.tail → s.head ∈ l ∧ s.complete s.head = true)
  rw [Function.update_self]
  refine ⟨decide_eq_decide.mpr hEmpty.symm, ?_⟩
  intro hNe
  have hLinked := h.linked
  rw [hLocks.front_of_holder hInHead, frontAt_of_still hStill] at hLinked
  obtain ⟨rest, rfl, -⟩ := hLinked.eq_cons hNe
  refine ⟨List.mem_cons_self, ?_⟩
  refine h.complete_of_reader hLocks hInTail ?_ List.mem_cons_self
  rw [hpc]
  exact fun hEq => by cases hEq

end Nodes

-- ---------------------------------------------------------------------------
-- `data_cond`
-- ---------------------------------------------------------------------------

/-- The threads in the list of `data_cond` are blocked in `wait`. -/
structure Waiting (s : State τ α) : Prop where
  nodup : s.waiting.Nodup
  blocked : ∀ t ∈ s.waiting, ∃ o, s.pc t = .blocked o

/-- A thread that is not in the list moves. -/
theorem Waiting.move (h : Waiting s) (hPc : s'.pc = Function.update s.pc t pc)
    (hSub : s'.waiting.Sublist s.waiting) (hOut : t ∉ s.waiting) : Waiting s' := by
  refine ⟨h.nodup.sublist hSub, ?_⟩
  intro u hu
  have hMem := hSub.subset hu
  have hut : u ≠ t := fun hEq => hOut (hEq ▸ hMem)
  rw [hPc, Function.update_of_ne hut]
  exact h.blocked u hMem

omit [DecidableEq τ] in
/-- Only blocked threads wait. -/
theorem Waiting.notMem (h : Waiting s) (hNot : ∀ o, s.pc t ≠ .blocked o) : t ∉ s.waiting := by
  intro hMem
  obtain ⟨o, ho⟩ := h.blocked t hMem
  exact hNot o ho

omit [DecidableEq τ] in
theorem Quiet.notMem {pc' : Pc (Numbered α)} (h : Quiet s t (s.pc t) pc') (hWaiting : Waiting s) :
    t ∉ s.waiting := by
  generalize hpc : s.pc t = pc at h
  cases h with
  | relock hOut => exact hOut
  | _ => exact hWaiting.notMem fun o hEq => by cases hpc.symm.trans hEq

/-- A step blocks one thread or wakes up to one. -/
theorem waiting_effect (h : Waiting s) (he : Effect s t s') : Waiting s' := by
  -- the steps at a program point other than `blocked`
  have hMove : ∀ {s₁ : State τ α} {pc pc' : Pc (Numbered α)}, s.pc t = pc →
      s₁.pc = Function.update s.pc t pc' → s₁.waiting.Sublist s.waiting →
      (∀ o, pc ≠ .blocked o) → Waiting s₁ := by
    intro s₁ pc pc' hpc hPc hSub hNot
    refine h.move hPc hSub (h.notMem ?_)
    rw [hpc]
    exact hNot
  cases he with
  | quiet hQuiet => exact h.move rfl (List.Sublist.refl _) (hQuiet.notMem h)
  | callPush hpc => exact hMove hpc rfl (List.Sublist.refl _) fun o hEq => by cases hEq
  | wake hMem =>
    refine ⟨h.nodup.erase t, ?_⟩
    exact fun u hu => h.blocked u (List.mem_of_mem_erase hu)
  | headLock hpc hFree => exact hMove hpc rfl (List.Sublist.refl _) fun o hEq => by cases hEq
  | headUnlock hUnlock =>
    refine hMove rfl rfl (List.Sublist.refl _) ?_
    generalize s.pc t = pc at hUnlock
    intro o hEq
    cases hUnlock <;> cases hEq
  | tailLock hLock hFree =>
    refine hMove rfl rfl (List.Sublist.refl _) ?_
    generalize s.pc t = pc at hLock
    intro o hEq
    cases hLock <;> cases hEq
  | getUnlock hpc => exact hMove hpc rfl (List.Sublist.refl _) fun o hEq => by cases hEq
  | getRead hpc => exact hMove hpc rfl (List.Sublist.refl _) fun o hEq => by cases hEq
  | @waitBlock o hpc =>
    have hOut : t ∉ s.waiting := h.notMem fun o' hEq => by cases hpc.symm.trans hEq
    refine ⟨?_, ?_⟩
    · show (s.waiting ++ [t]).Nodup
      refine List.nodup_append'.mpr ⟨h.nodup, List.nodup_singleton _, ?_⟩
      exact fun u hu hut => hOut (List.mem_singleton.mp hut ▸ hu)
    · intro u hu
      show ∃ o', Function.update s.pc t (.blocked o) u = .blocked o'
      rcases List.mem_append.mp hu with hu | hu
      · have hut : u ≠ t := fun hEq => hOut (hEq ▸ hu)
        rw [Function.update_of_ne hut]
        exact h.blocked u hu
      · rw [List.mem_singleton.mp hu, Function.update_self]
        exact ⟨o, rfl⟩
  | alloc hpc hZero hFree => exact hMove hpc rfl (List.Sublist.refl _) fun o hEq => by cases hEq
  | pushData hpc => exact hMove hpc rfl (List.Sublist.refl _) fun o hEq => by cases hEq
  | pushNext hpc => exact hMove hpc rfl (List.Sublist.refl _) fun o hEq => by cases hEq
  | pushTail hpc => exact hMove hpc rfl (List.Sublist.refl _) fun o hEq => by cases hEq
  | pushUnlock hpc => exact hMove hpc rfl (List.Sublist.refl _) fun o hEq => by cases hEq
  | notifyNone hpc hEmpty => exact hMove hpc rfl (List.Sublist.refl _) fun o hEq => by cases hEq
  | notify hpc hMem => exact hMove hpc rfl List.erase_sublist fun o hEq => by cases hEq
  | popMove hpc => exact hMove hpc rfl (List.Sublist.refl _) fun o hEq => by cases hEq
  | popNext hpc => exact hMove hpc rfl (List.Sublist.refl _) fun o hEq => by cases hEq
  | popHead hpc => exact hMove hpc rfl (List.Sublist.refl _) fun o hEq => by cases hEq
  | popDelete hpc => exact hMove hpc rfl (List.Sublist.refl _) fun o hEq => by cases hEq

-- ---------------------------------------------------------------------------
-- The invariant
-- ---------------------------------------------------------------------------

/-- How a step changes the list. -/
def listAfter (s : State τ α) (l : List Nat) : Pc (Numbered α) → List Nat
  | .pushTail .. => l ++ [s.tail]
  | .popMove .. => l.tail
  | _ => l

/-- The mutexes, the waiting threads and the list of nodes from `head` to `tail`. -/
structure Inv (s : State τ α) (l : List Nat) : Prop where
  locks : Locks s
  waiting : Waiting s
  nodes : Nodes s l

/-- The list after a step of thread `t`. -/
theorem nodes_effect (h : Inv s l) (he : Effect s t s') :
    Nodes s' (listAfter s l (s.pc t)) := by
  obtain ⟨hLocks, hWaiting, hNodes⟩ := h
  have hLocks' := locks_effect hLocks he
  have hOk := hNodes.pcs t
  -- the steps that leave the nodes alone
  have hStay : ∀ {pc pc' : Pc (Numbered α)}, s.pc t = pc → SameNodes s s' →
      s'.pc = Function.update s.pc t pc' → SameRole pc pc' →
      (∀ u, u ≠ t → s'.seenEmpty u = s.seenEmpty u) → PcOk s' l t pc' → listAfter s l pc = l →
      Nodes s' (listAfter s l (s.pc t)) := by
    intro pc pc' hpc hSame hPc hRole hSeen hNew hList
    rw [hpc, hList]
    exact hNodes.stay hLocks hLocks' hSame hPc (hpc ▸ hRole) hSeen hNew
  have hAll : SameNodes s s := ⟨rfl, rfl, rfl, rfl, rfl, rfl, rfl, rfl, rfl⟩
  cases he with
  | @quiet pc hQuiet =>
    have hSame : SameNodes s (s.setPc t pc) := ⟨rfl, rfl, rfl, rfl, rfl, rfl, rfl, rfl, rfl⟩
    refine hStay rfl hSame rfl hQuiet.sameRole (fun _ _ => rfl)
      ((hQuiet.pcOk hOk).same hSame rfl) ?_
    generalize s.pc t = pc at hQuiet
    cases hQuiet <;> rfl
  | callPush hpc =>
    exact hStay hpc ⟨rfl, rfl, rfl, rfl, rfl, rfl, rfl, rfl, rfl⟩ rfl
      ⟨rfl, rfl, rfl, ⟨rfl, rfl⟩, fun hEq => by cases hEq⟩ (fun _ _ => rfl) trivial rfl
  | wake hMem =>
    obtain ⟨o, hpc⟩ := hWaiting.blocked t hMem
    exact hStay hpc ⟨rfl, rfl, rfl, rfl, rfl, rfl, rfl, rfl, rfl⟩
      (by rw [← hpc, Function.update_eq_self]; rfl)
      ⟨rfl, rfl, rfl, ⟨rfl, rfl⟩, fun hEq => by cases hEq⟩ (fun _ _ => rfl) trivial rfl
  | headLock hpc hFree =>
    exact hStay hpc ⟨rfl, rfl, rfl, rfl, rfl, rfl, rfl, rfl, rfl⟩ rfl
      ⟨rfl, rfl, rfl, ⟨rfl, rfl⟩, fun hEq => by cases hEq⟩ (fun _ _ => rfl) trivial rfl
  | @headUnlock pc hUnlock =>
    have hSame : SameNodes s { s.setPc t pc with headMutex := none } :=
      ⟨rfl, rfl, rfl, rfl, rfl, rfl, rfl, rfl, rfl⟩
    refine hStay rfl hSame rfl hUnlock.sameRole (fun _ _ => rfl)
      ((hUnlock.pcOk hOk).same hSame rfl) ?_
    generalize s.pc t = pc at hUnlock
    cases hUnlock <;> rfl
  | @tailLock pc hLock hFree =>
    have hSame : SameNodes s { s.setPc t pc with tailMutex := some t } :=
      ⟨rfl, rfl, rfl, rfl, rfl, rfl, rfl, rfl, rfl⟩
    refine hStay rfl hSame rfl hLock.sameRole (fun _ _ => rfl) ((hLock.pcOk hOk).same hSame rfl) ?_
    generalize s.pc t = pc at hLock
    cases hLock <;> rfl
  | @getUnlock c r hpc =>
    rw [hpc] at hOk
    exact hStay hpc ⟨rfl, rfl, rfl, rfl, rfl, rfl, rfl, rfl, rfl⟩ rfl
      ⟨rfl, rfl, rfl, ⟨rfl, rfl⟩, fun hEq => by cases hEq⟩ (fun _ _ => rfl) hOk rfl
  | getRead hpc =>
    exact hStay hpc ⟨rfl, rfl, rfl, rfl, rfl, rfl, rfl, rfl, rfl⟩ rfl
      ⟨rfl, rfl, rfl, ⟨rfl, rfl⟩, fun hEq => by cases hEq⟩
      (fun u hut => Function.update_of_ne hut _ _) (hNodes.getRead hLocks hpc) rfl
  | waitBlock hpc =>
    exact hStay hpc ⟨rfl, rfl, rfl, rfl, rfl, rfl, rfl, rfl, rfl⟩ rfl
      ⟨rfl, rfl, rfl, ⟨rfl, rfl⟩, fun hEq => by cases hEq⟩ (fun _ _ => rfl) trivial rfl
  | alloc hpc hZero hFree =>
    rw [hpc]
    exact hNodes.alloc hLocks hpc hZero hFree hLocks' rfl
  | pushData hpc =>
    rw [hpc]
    exact hNodes.pushData hLocks hpc hLocks' rfl
  | pushNext hpc =>
    rw [hpc]
    exact hNodes.pushNext hLocks hpc hLocks' rfl
  | pushTail hpc =>
    rw [hpc]
    exact hNodes.pushTail hLocks hpc hLocks' rfl
  | pushUnlock hpc =>
    rw [hpc]
    exact hNodes.pushUnlock hLocks hpc hLocks' rfl
  | notifyNone hpc hEmpty =>
    exact hStay hpc ⟨rfl, rfl, rfl, rfl, rfl, rfl, rfl, rfl, rfl⟩ rfl
      ⟨rfl, rfl, rfl, ⟨rfl, rfl⟩, fun hEq => by cases hEq⟩ (fun _ _ => rfl) trivial rfl
  | notify hpc hMem =>
    exact hStay hpc ⟨rfl, rfl, rfl, rfl, rfl, rfl, rfl, rfl, rfl⟩ rfl
      ⟨rfl, rfl, rfl, ⟨rfl, rfl⟩, fun hEq => by cases hEq⟩ (fun _ _ => rfl) trivial rfl
  | popMove hpc =>
    obtain ⟨rest, rfl, hRest⟩ := hNodes.popMove hLocks hpc hLocks' rfl
    rw [hpc]
    exact hRest
  | popNext hpc =>
    rw [hpc]
    exact hNodes.popNext hLocks hpc hLocks' rfl
  | popHead hpc =>
    rw [hpc]
    exact hNodes.popHead hLocks hpc hLocks' rfl
  | popDelete hpc =>
    rw [hpc]
    exact hNodes.popDelete hLocks hpc hLocks' rfl

/-- Each effect keeps the three parts; `listAfter` says what becomes of the list. -/
theorem inv_effect (h : Inv s l) (he : Effect s t s') : Inv s' (listAfter s l (s.pc t)) :=
  ⟨locks_effect h.locks he, waiting_effect h.waiting he, nodes_effect h he⟩

omit [DecidableEq τ] in
/-- One dummy node. -/
theorem inv_init : Inv (init τ α) [] := by
  refine ⟨locks_init, ⟨List.nodup_nil, fun t ht => by cases ht⟩, ?_⟩
  refine ⟨rfl, rfl, ?_, rfl, ?_, ?_, fun t => trivial, fun _ => rfl, fun _ => rfl, ?_, rfl⟩
  · exact fun p hp => absurd hp List.not_mem_nil
  · intro t p hp
    cases hp
  · intro t u p hp
    cases hp
  · exact fun p hp => absurd hp List.not_mem_nil

/-- A case for each action. -/
theorem inv_step {a : Action τ α} (h : ∃ l, Inv s l) (hst : step s a = some s') :
    ∃ l, Inv s' l := by
  obtain ⟨l, hl⟩ := h
  exact ⟨_, inv_effect hl (step_effect hst)⟩

/-- The run lemma: the list is in order in every state reached. -/
theorem inv_reachable {ok : State τ α → Action τ α → Prop}
    (h : (system τ α).ReachableWhere ok s) : ∃ l, Inv s l :=
  h.invariant (I := fun s => ∃ l, Inv s l) ⟨[], inv_init⟩
    fun _ _ _ _ hInv _ hst => inv_step hInv hst

end EmbLinux.DesignLockBase.Queue
