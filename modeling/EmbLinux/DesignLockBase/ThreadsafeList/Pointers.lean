import EmbLinux.DesignLockBase.ThreadsafeList.Locks

/-!
# EmbLinux — steps of `threadsafe_list` that move a pointer

One lemma for each: the `new` of a node, the two moves of `push_front`, the two of `remove_if`
and its `delete`. Each is made with the mutex of the node whose `next` changes, and the other
threads know only the nodes that they have locked and the ones behind these.
-/

namespace EmbLinux.DesignLockBase.ThreadsafeList

variable {τ α : Type*} [DecidableEq τ] {s s' : State τ α} {t u : τ} {pc : Pc α} {p q c n : Nat}

/-- The mutexes stay, and the thread that moves holds those it had. -/
theorem locks_keep (h : Inv s) (hPc : s'.pc = Function.update s.pc t pc)
    (hMutex : s'.mutex = s.mutex) (hHolds : pc.holds = (s.pc t).holds) (q : Nat) :
    Guards (s'.mutex q) fun u => (s'.pc u).holds q := by
  refine Guards.move_part (p := fun pc : Pc α => pc.holds q) (h.locks q) hPc ?_
  rw [hMutex, hHolds]
  exact .keep

/-- A thread's node is with no other thread. -/
theorem owned_step (h : Inv s) (hPc : s'.pc = Function.update s.pc t pc)
    (hOwned : pc.owned = (s.pc t).owned ∨ pc.owned = none ∨
      ∃ p, pc.owned = some p ∧ ∀ u, (s.pc u).owned ≠ some p) :
    Exclusive fun u => (s'.pc u).owned := by
  rw [hPc, part_update]
  rcases hOwned with hSame | hNone | ⟨p, hSome, hNew⟩
  · rw [hSame, Function.update_eq_self]
    exact h.owned
  · rw [hNone]
    exact h.owned.drop
  · rw [hSome]
    exact h.owned.put hNew

/-- The other threads stay where they are, -/
theorem pc_other (hPc : s'.pc = Function.update s.pc t pc) (hut : u ≠ t) :
    s'.pc u = s.pc u := by
  rw [hPc, Function.update_of_ne hut]

/-- and this one goes on. -/
theorem pc_here (hPc : s'.pc = Function.update s.pc t pc) : s'.pc t = pc := by
  rw [hPc, Function.update_self]

namespace Inv

variable (h : Inv s)

include h

section

omit [DecidableEq τ]

/-- The node that `new` makes is known to nobody. -/
theorem fresh_not_owned (u : τ) : (s.pc u).owned ≠ some (s.news + 2) := by
  intro hu
  exact Nat.lt_irrefl _ (h.ownedLive u _ hu).1.lt

/-- A new node has a new address. -/
theorem fresh_not_mem : s.news + 2 ∉ head :: s.nodes := by
  intro hMem
  rcases List.mem_cons.mp hMem with hHead | hMem
  · exact absurd hHead (by unfold head; omega)
  · exact Nat.lt_irrefl _ (h.live _ hMem).lt

/-- Nobody has locked what does not exist. -/
theorem fresh_free : s.mutex (s.news + 2) = none := by
  cases hMutex : s.mutex (s.news + 2) with
  | none => rfl
  | some u =>
    rcases h.mem_of_holds ((h.locks _ u).mp hMutex) with hMem | hOwn
    · exact absurd hMem h.fresh_not_mem
    · exact absurd hOwn (h.fresh_not_owned u)

end

/-- `new node(value)` -/
theorem newNode {data : α} (hpc : s.pc t = .pushNew data)
    (hPc : s'.pc = Function.update s.pc t (.pushLock (s.news + 2)))
    (hData : s'.data = Function.update s.data (s.news + 2) (some data))
    (hNext : s'.next = Function.update s.next (s.news + 2) 0)
    (hAllocated : s'.allocated = Function.update s.allocated (s.news + 2) true)
    (hMutex : s'.mutex = Function.update s.mutex (s.news + 2) none) (hNews : s'.news = s.news + 1)
    (hNodes : s'.nodes = s.nodes) : Inv s' := by
  have hFresh := h.fresh_not_mem
  have hSame : s'.mutex = s.mutex :=
    hMutex.trans (Function.update_eq_self_iff.mpr h.fresh_free.symm)
  have hLive : ∀ p, Live s p → Live s' p := by
    intro p hp
    have hne : p ≠ s.news + 2 := Nat.ne_of_lt hp.lt
    refine hp.mono (by omega) ?_ fun hOld => ?_
    · rw [hAllocated, Function.update_of_ne hne]
    · rwa [hData, Function.update_of_ne hne]
  have hNextOld : ∀ p, p ≠ s.news + 2 → s'.next p = s.next p := fun p hp => by
    rw [hNext, Function.update_of_ne hp]
  refine ⟨locks_keep h hPc hSame (by rw [hpc]; rfl), by rw [hNodes]; exact h.nodup, ?_,
    by rw [hNodes]; exact fun p hp => hLive p (h.live p hp), ?_, ?_, ?_, ?_⟩
  · rw [hAllocated, Function.update_of_ne (ne_of_mem_of_not_mem List.mem_cons_self hFresh)]
    exact h.headLive
  · rw [hNodes]
    intro p hp hWhole
    rw [hNextOld p (ne_of_mem_of_not_mem hp hFresh), succ_congr hNodes]
    refine h.next p hp fun u hu => ?_
    rcases update_cases hPc u with ⟨rfl, -⟩ | ⟨-, hOther⟩
    · rw [hpc] at hu
      cases hu
    · exact hWhole u (hOther ▸ hu)
  · exact owned_step h hPc (Or.inr (Or.inr ⟨_, rfl, h.fresh_not_owned⟩))
  · rw [hNodes]
    intro u p hu
    rcases update_cases hPc u with ⟨-, hHere⟩ | ⟨-, hOther⟩
    · rw [hHere] at hu
      cases hu
      refine ⟨⟨by omega, by omega, ?_, ?_⟩, fun hMem => hFresh (List.mem_cons_of_mem _ hMem)⟩
      · rw [hAllocated, Function.update_self]
      · rw [hData, Function.update_self]
        rfl
    · obtain ⟨hOld, hOut⟩ := h.ownedLive u p (hOther ▸ hu)
      exact ⟨hLive p hOld, hOut⟩
  · intro u
    rcases update_cases hPc u with ⟨-, hHere⟩ | ⟨-, hOther⟩
    · rw [hHere]
      trivial
    · rw [hOther]
      refine (h.pcs u).keep h.head_not_mem
        (fun p hp _ => ⟨hNodes ▸ hp, succ_congr hNodes p⟩) fun p hp => hNextOld p ?_
      rintro rfl
      exact h.fresh_not_owned u hp

/-- A step that changes pointers, of nodes that its thread has locked or that are its own. -/
theorem rewire (hPc : s'.pc = Function.update s.pc t pc) (hData : s'.data = s.data)
    (hAllocated : s'.allocated = s.allocated) (hMutex : s'.mutex = s.mutex)
    (hNews : s'.news = s.news) (hHolds : pc.holds = (s.pc t).holds)
    (hNodup : (head :: s'.nodes).Nodup) (hNodes : ∀ p ∈ s'.nodes, Live s p)
    (hNext : ∀ p ∈ head :: s'.nodes, pc.breaks ≠ some p →
      (∀ u, u ≠ t → (s.pc u).breaks ≠ some p) → s'.next p = s'.succ p)
    (hOwned : pc.owned = (s.pc t).owned ∨ pc.owned = none ∨
      ∃ p, pc.owned = some p ∧ p ∈ s.nodes)
    (hOut : ∀ p, pc.owned = some p → p ∉ s'.nodes)
    (hOutOther : ∀ p, p ∉ s.nodes → (s.pc t).owned ≠ some p → p ∉ s'.nodes)
    (hOk : PcOk s' pc)
    (hOther : ∀ p ∈ head :: s.nodes, (s.pc t).holds p = false →
      p ∈ head :: s'.nodes ∧ s'.succ p = s.succ p)
    (hNextOther : ∀ p, p ∉ head :: s.nodes → (s.pc t).owned ≠ some p →
      s'.next p = s.next p) : Inv s' := by
  have hLive : ∀ q, Live s q → Live s' q := fun q hq =>
    hq.mono (Nat.le_of_eq hNews.symm) (congrFun hAllocated q) (by rw [hData]; exact id)
  have hNotOwned : ∀ u, u ≠ t → ∀ p, (s.pc u).owned = some p → (s.pc t).owned ≠ some p :=
    fun u hut p hu ht => hut (h.owned u t p hu ht)
  refine ⟨locks_keep h hPc hMutex hHolds, hNodup, by rw [hAllocated]; exact h.headLive,
    fun q hq => hLive q (hNodes q hq), ?_, ?_, ?_, ?_⟩
  · intro p hp hWhole
    refine hNext p hp ?_ fun u hut => ?_
    · exact pc_here hPc ▸ hWhole t
    · exact pc_other hPc hut ▸ hWhole u
  · refine owned_step h hPc (hOwned.imp_right (Or.imp_right ?_))
    rintro ⟨p, hp, hMem⟩
    exact ⟨p, hp, fun u hu => (h.ownedLive u p hu).2 hMem⟩
  · intro u p hu
    rcases update_cases hPc u with ⟨-, hHere⟩ | ⟨hut, hThere⟩
    · rw [hHere] at hu
      refine ⟨hLive p ?_, hOut p hu⟩
      rcases hOwned with hSame | hNone | ⟨q, hq, hMem⟩
      · exact (h.ownedLive t p (hSame ▸ hu)).1
      · rw [hNone] at hu
        cases hu
      · obtain rfl := Option.some.inj (hq.symm.trans hu)
        exact h.live q hMem
    · rw [hThere] at hu
      obtain ⟨hOld, hNotIn⟩ := h.ownedLive u p hu
      exact ⟨hLive p hOld, hOutOther p hNotIn (hNotOwned u hut p hu)⟩
  · intro u
    rcases update_cases hPc u with ⟨-, hHere⟩ | ⟨hut, hThere⟩
    · rw [hHere]
      exact hOk
    · rw [hThere]
      refine (h.pcs u).keep h.head_not_mem (fun p hp hHeld => hOther p hp ?_) fun p hp => ?_
      · exact (h.locks p).not_inside hHeld (Ne.symm hut)
      · exact hNextOther p (h.owned_ne hp) (hNotOwned u hut p hp)

/-- `new_node->next = std::move(head.next)` -/
theorem pushTake (hpc : s.pc t = .pushTake p)
    (hPc : s'.pc = Function.update s.pc t (.pushLink p)) (hData : s'.data = s.data)
    (hNext : s'.next = Function.update (Function.update s.next p (s.next head)) head 0)
    (hAllocated : s'.allocated = s.allocated) (hMutex : s'.mutex = s.mutex)
    (hNews : s'.news = s.news) (hNodes : s'.nodes = s.nodes) : Inv s' := by
  have hOwn : (s.pc t).owned = some p := by rw [hpc]; rfl
  have hOut := h.owned_ne hOwn
  have hHeadNe : p ≠ head := fun hEq => hOut (hEq ▸ List.mem_cons_self)
  have hSucc := succ_congr hNodes
  refine h.rewire hPc hData hAllocated hMutex hNews (by rw [hpc]; rfl) (hNodes ▸ h.nodup)
    (hNodes ▸ h.live) ?_ (Or.inl (by rw [hpc]; rfl)) ?_ ?_ ?_
    (fun q hq _ => ⟨hNodes ▸ hq, hSucc q⟩) ?_
  · rw [hNodes]
    intro q hq hNot hOther
    have hqh : q ≠ head := fun hEq => hNot (by rw [hEq]; rfl)
    rw [hNext, Function.update_of_ne hqh, Function.update_of_ne (ne_of_mem_of_not_mem hq hOut),
      hSucc]
    refine h.next q hq fun u hu => ?_
    by_cases hut : u = t
    · rw [hut, hpc] at hu
      cases hu
    · exact hOther u hut hu
  · rintro q ⟨⟩
    rw [hNodes]
    exact fun hMem => hOut (List.mem_cons_of_mem _ hMem)
  · rw [hNodes]
    exact fun _ hq _ => hq
  · change s'.next p = s'.succ head
    rw [hNext, Function.update_of_ne hHeadNe, Function.update_self, hSucc]
    exact h.next_eq (t := t) List.mem_cons_self (by simp [hpc, Pc.holds]) (by simp [hpc, Pc.breaks])
  · intro q hq hNot
    rw [hNext, Function.update_of_ne fun hEq : q = head => hq (hEq ▸ List.mem_cons_self),
      Function.update_of_ne fun hEq : q = p => hNot (hEq ▸ hOwn)]

omit h [DecidableEq τ] in
/-- The nodes behind the first one, after `push_front`. -/
theorem succ_linkFront (hNodes : s'.nodes = p :: s.nodes) : s'.succ head = p ∧
    (p ≠ head → s'.succ p = s.succ head) ∧
    ∀ q, q ≠ head → q ≠ p → s'.succ q = s.succ q := by
  unfold State.succ
  rw [hNodes]
  refine ⟨by rw [following_cons_self]; rfl, fun hp => ?_, fun q hqh hqp => ?_⟩
  · rw [following_cons_of_ne (Ne.symm hp), following_cons_self, following_cons_self]
  · rw [following_insert hqh hqp]

/-- `head.next = std::move(new_node)` -/
theorem pushLink (hpc : s.pc t = .pushLink p)
    (hPc : s'.pc = Function.update s.pc t .pushUnlock) (hData : s'.data = s.data)
    (hNext : s'.next = Function.update s.next head p)
    (hAllocated : s'.allocated = s.allocated) (hMutex : s'.mutex = s.mutex)
    (hNews : s'.news = s.news) (hNodes : s'.nodes = p :: s.nodes) : Inv s' := by
  have hOwn : (s.pc t).owned = some p := by rw [hpc]; rfl
  have hOut := h.owned_ne hOwn
  have hHeadNe : p ≠ head := fun hEq => hOut (hEq ▸ List.mem_cons_self)
  obtain ⟨hFirst, hSecond, hSame⟩ := succ_linkFront hNodes
  have hFirstNext : s.next p = s.succ head := by
    have hOk := h.pcs t
    rw [hpc] at hOk
    exact hOk
  have hNotHeld : ∀ q, (s.pc t).holds q = false → q ≠ head := by
    rintro q hq rfl
    simp [hpc, Pc.holds] at hq
  refine h.rewire hPc hData hAllocated hMutex hNews (by rw [hpc]; rfl) ?_ ?_ ?_
    (Or.inr (Or.inl rfl)) ?_
    ?_ trivial ?_ ?_
  · rw [hNodes]
    exact (List.Perm.swap head p s.nodes).nodup_iff.mp (List.nodup_cons.mpr ⟨hOut, h.nodup⟩)
  · rw [hNodes]
    intro q hq
    rcases List.mem_cons.mp hq with rfl | hq
    · exact (h.ownedLive t q hOwn).1
    · exact h.live q hq
  · rw [hNodes]
    intro q hq _ hOther
    by_cases hqh : q = head
    · rw [hqh, hNext, Function.update_self, hFirst]
    rw [hNext, Function.update_of_ne hqh]
    by_cases hqp : q = p
    · rw [hqp, hFirstNext, hSecond hHeadNe]
    · have hMem : q ∈ head :: s.nodes := by simpa [hqh, hqp] using hq
      rw [hSame q hqh hqp]
      refine h.next q hMem fun u hu => ?_
      by_cases hut : u = t
      · rw [hut, hpc] at hu
        exact hqh (Option.some.inj hu).symm
      · exact hOther u hut hu
  · intro q hNone
    cases hNone
  · rw [hNodes]
    intro q hq hNot hMem
    rcases List.mem_cons.mp hMem with rfl | hMem
    · exact hNot hOwn
    · exact hq hMem
  · intro q hq hFree
    rw [hNodes]
    refine ⟨?_, hSame q (hNotHeld q hFree) (ne_of_mem_of_not_mem hq hOut)⟩
    rcases List.mem_cons.mp hq with rfl | hq
    · exact List.mem_cons_self
    · exact List.mem_cons_of_mem _ (List.mem_cons_of_mem _ hq)
  · intro q hq _
    rw [hNext, Function.update_of_ne fun hEq : q = head => hq (hEq ▸ List.mem_cons_self)]

omit h [DecidableEq τ] in
/-- The nodes behind the others, after a node was taken out. -/
theorem succ_takeNext (hNodup : (head :: s.nodes).Nodup) (hNodes : s'.nodes = s.nodes.erase n)
    (hSucc : s.succ c = n) (hn : n ≠ 0) : s'.succ c = s.succ n ∧
    ∀ q, q ≠ c → q ≠ n → s'.succ q = s.succ q := by
  obtain ⟨r, hList⟩ := mem_of_succ hSucc hn
  have hHeadNe : head ≠ n := by
    rintro rfl
    exact (List.nodup_cons.mp hNodup).1 (succ_mem hSucc hn)
  have hErase : head :: s'.nodes = (head :: s.nodes).erase n := by
    rw [hNodes, List.erase_cons_tail (by simpa using hHeadNe)]
  have hne : c ≠ n := by
    rintro rfl
    exact not_mem_following hNodup c (hList ▸ List.mem_cons_self)
  unfold State.succ
  rw [hErase]
  refine ⟨?_, fun q hqc hqn => ?_⟩
  · rw [following_erase hNodup hne, hList, List.erase_cons_head, following_of_cons hNodup hList]
  · rw [following_erase hNodup hqn]
    cases hBehind : following q (head :: s.nodes) with
    | nil => rfl
    | cons m r' =>
      have hmn : m ≠ n := by
        rintro rfl
        exact hqc (following_inj hNodup hBehind hList)
      rw [List.erase_cons_tail (by simpa using hmn)]
      rfl

/-- `old_next = std::move(current->next)` -/
theorem removeTake (hpc : s.pc t = .removeTake c n)
    (hPc : s'.pc = Function.update s.pc t (.removeLink c n)) (hData : s'.data = s.data)
    (hNext : s'.next = Function.update s.next c 0) (hAllocated : s'.allocated = s.allocated)
    (hMutex : s'.mutex = s.mutex) (hNews : s'.news = s.news)
    (hNodes : s'.nodes = s.nodes.erase n) : Inv s' := by
  have hOk := h.pcs t
  rw [hpc] at hOk
  obtain ⟨hMem, hn, hSucc⟩ := hOk
  have hnMem := succ_mem hSucc hn
  have hnc := h.succ_ne hSucc hn
  have hNodup := (List.nodup_cons.mp h.nodup).2
  obtain ⟨hBehind, hSame⟩ := succ_takeNext h.nodup hNodes hSucc hn
  have hKept : ∀ q ∈ head :: s.nodes, q ≠ n → q ∈ head :: s'.nodes := by
    intro q hq hqn
    rw [hNodes]
    rcases List.mem_cons.mp hq with rfl | hq
    · exact List.mem_cons_self
    · exact List.mem_cons_of_mem _ ((List.mem_erase_of_ne hqn).mpr hq)
  have hSub : ∀ q ∈ s'.nodes, q ∈ s.nodes := by
    rw [hNodes]
    exact fun q => List.mem_of_mem_erase
  have hGone : n ∉ s'.nodes := by
    rw [hNodes]
    exact hNodup.not_mem_erase
  have hnHead : n ≠ head := ne_of_mem_of_not_mem hnMem h.head_not_mem
  refine h.rewire hPc hData hAllocated hMutex hNews (by rw [hpc]; rfl) ?_
    (fun q hq => h.live q (hSub q hq)) ?_ (Or.inr (Or.inr ⟨n, rfl, hnMem⟩)) ?_
    (fun q hq _ hIn => hq (hSub q hIn)) ?_ ?_ ?_
  · rw [hNodes]
    exact List.nodup_cons.mpr
      ⟨fun hIn => h.head_not_mem (List.mem_of_mem_erase hIn), hNodup.erase n⟩
  · intro q hq hNot hOther
    have hqc : q ≠ c := fun hEq => hNot (by rw [hEq]; rfl)
    have hqn : q ≠ n := by
      rintro rfl
      rcases List.mem_cons.mp hq with hEq | hIn
      · exact hnHead hEq
      · exact hGone hIn
    have hOld : q ∈ head :: s.nodes := by
      rcases List.mem_cons.mp hq with rfl | hIn
      · exact List.mem_cons_self
      · exact List.mem_cons_of_mem _ (hSub q hIn)
    rw [hNext, Function.update_of_ne hqc, hSame q hqc hqn]
    refine h.next q hOld fun u hu => ?_
    by_cases hut : u = t
    · rw [hut, hpc] at hu
      cases hu
    · exact hOther u hut hu
  · rintro q ⟨⟩
    exact hGone
  · refine ⟨hKept c hMem hnc.symm, ?_⟩
    rw [hNext, Function.update_of_ne hnc, hBehind]
    exact h.next_eq (t := t) (List.mem_cons_of_mem _ hnMem) (by simp [hpc, Pc.holds])
      (by simp [hpc, Pc.breaks])
  · intro q hq hFree
    have hNot : q ≠ c ∧ q ≠ n := by simpa [hpc, Pc.holds] using hFree
    exact ⟨hKept q hq hNot.2, hSame q hNot.1 hNot.2⟩
  · intro q hq _
    rw [hNext, Function.update_of_ne (ne_of_mem_of_not_mem hMem hq).symm]

/-- `current->next = std::move(next->next)` -/
theorem removeLink (hpc : s.pc t = .removeLink c n)
    (hPc : s'.pc = Function.update s.pc t (.removeUnlock c n)) (hData : s'.data = s.data)
    (hNext : s'.next = Function.update (Function.update s.next c (s.next n)) n 0)
    (hAllocated : s'.allocated = s.allocated) (hMutex : s'.mutex = s.mutex)
    (hNews : s'.news = s.news) (hNodes : s'.nodes = s.nodes) : Inv s' := by
  have hOk := h.pcs t
  rw [hpc] at hOk
  obtain ⟨hMem, hBehind⟩ := hOk
  have hOwn : (s.pc t).owned = some n := by rw [hpc]; rfl
  have hOut := h.owned_ne hOwn
  have hcn : c ≠ n := ne_of_mem_of_not_mem hMem hOut
  have hSucc := succ_congr hNodes
  refine h.rewire hPc hData hAllocated hMutex hNews (by rw [hpc]; rfl) (hNodes ▸ h.nodup)
    (hNodes ▸ h.live) ?_ (Or.inl (by rw [hpc]; rfl)) ?_ ?_
    (show c ∈ head :: s'.nodes from hNodes ▸ hMem)
    (fun q hq _ => ⟨hNodes ▸ hq, hSucc q⟩) ?_
  · rw [hNodes]
    intro q hq _ hOther
    rw [hNext, Function.update_of_ne (ne_of_mem_of_not_mem hq hOut), hSucc]
    by_cases hqc : q = c
    · rw [hqc, Function.update_self]
      exact hBehind
    · rw [Function.update_of_ne hqc]
      refine h.next q hq fun u hu => ?_
      by_cases hut : u = t
      · rw [hut, hpc] at hu
        exact hqc (Option.some.inj hu).symm
      · exact hOther u hut hu
  · rintro q ⟨⟩
    rw [hNodes]
    exact fun hIn => hOut (List.mem_cons_of_mem _ hIn)
  · rw [hNodes]
    exact fun _ hq _ => hq
  · intro q hq hNot
    rw [hNext, Function.update_of_ne fun hEq : q = n => hNot (hEq ▸ hOwn),
      Function.update_of_ne (ne_of_mem_of_not_mem hMem hq).symm]

/-- `old_next` ends: its node is deleted. -/
theorem removeDelete (hpc : s.pc t = .removeDelete c n)
    (hPc : s'.pc = Function.update s.pc t (.readNext .removeIf c)) (hData : s'.data = s.data)
    (hNext : s'.next = s.next) (hAllocated : s'.allocated = Function.update s.allocated n false)
    (hMutex : s'.mutex = s.mutex) (hNews : s'.news = s.news) (hNodes : s'.nodes = s.nodes) :
    Inv s' := by
  have hOk := h.pcs t
  rw [hpc] at hOk
  have hOwn : (s.pc t).owned = some n := by rw [hpc]; rfl
  have hOut := h.owned_ne hOwn
  have hSucc := succ_congr hNodes
  have hLive : ∀ q, q ≠ n → Live s q → Live s' q := fun q hqn hq =>
    hq.mono (Nat.le_of_eq hNews.symm) (by rw [hAllocated, Function.update_of_ne hqn])
      (by rw [hData]; exact id)
  refine ⟨locks_keep h hPc hMutex (by rw [hpc]; rfl), hNodes ▸ h.nodup, ?_, ?_, ?_,
    owned_step h hPc (Or.inr (Or.inl rfl)), ?_, ?_⟩
  · rw [hAllocated, Function.update_of_ne (ne_of_mem_of_not_mem List.mem_cons_self hOut)]
    exact h.headLive
  · rw [hNodes]
    exact fun q hq => hLive q (ne_of_mem_of_not_mem (List.mem_cons_of_mem _ hq) hOut) (h.live q hq)
  · rw [hNodes, hNext]
    intro q hq hWhole
    rw [hSucc]
    refine h.next q hq fun u hu => ?_
    rcases update_cases hPc u with ⟨rfl, -⟩ | ⟨-, hOther⟩
    · rw [hpc] at hu
      cases hu
    · exact hWhole u (hOther ▸ hu)
  · rw [hNodes]
    intro u q hu
    rcases update_cases hPc u with ⟨-, hHere⟩ | ⟨hut, hOther⟩
    · rw [hHere] at hu
      cases hu
    · rw [hOther] at hu
      obtain ⟨hOld, hNotIn⟩ := h.ownedLive u q hu
      refine ⟨hLive q ?_ hOld, hNotIn⟩
      rintro rfl
      exact hut (h.owned u t q hu hOwn)
  · exact forall_of_update hPc (fun u => (h.pcs u).congr hNodes hNext)
      ((show PcOk s (.readNext .removeIf c) from hOk).congr hNodes hNext)

end Inv

-- ---------------------------------------------------------------------------
-- All steps
-- ---------------------------------------------------------------------------

/-- Hand over hand: the thread has the lock of the node behind and of the one ahead. -/
theorem holds_afterLock (v : Traversal) (c n q : Nat) :
    (afterLock v c n : Pc α).holds q = decide (q = c ∨ q = n) := by
  cases v <;> rfl

/-- It owns no node then, and every link is in place, -/
theorem afterLock_owned (v : Traversal) (c n : Nat) :
    (afterLock v c n : Pc α).owned = none ∧ (afterLock v c n : Pc α).breaks = none := by
  cases v <;> exact ⟨rfl, rfl⟩

/-- and the call of the function changes nothing of that. -/
theorem afterCall_parts (v : Traversal) (n : Nat) (answer : Bool) :
    (afterCall v n answer : Pc α).holds = (Pc.callBack v n : Pc α).holds ∧
      (afterCall v n answer : Pc α).owned = none ∧ (afterCall v n answer : Pc α).breaks = none := by
  cases v <;> cases answer <;> exact ⟨rfl, rfl, rfl⟩

omit [DecidableEq τ] in
/-- The function may assign to the element. -/
theorem assign_frame (s : State τ α) (n : Nat) (value : Option α) :
    s.assign n value = { s with data := (s.assign n value).data } := by
  cases value <;> rfl

/-- A case for each effect; the two relinkings are those of `push_front` and of a removal. -/
theorem inv_effect (h : Inv s) (he : Effect s t s') : Inv s' := by
  have hOk := h.pcs t
  cases he with
  | callPush hpc | call hpc =>
    exact h.go (t := t) rfl rfl rfl rfl rfl (fun _ => id) rfl (by rw [hpc]; rfl)
      (by rw [hpc]; rfl) (by rw [hpc]; rfl) trivial
  | pushNew hpc => exact h.newNode hpc rfl rfl rfl rfl rfl rfl rfl
  -- `head` is locked by nobody else, so nothing is known of it by other threads
  | pushLock hpc hFree =>
    refine h.acquire (t := t) (q := head) rfl rfl rfl rfl rfl rfl rfl hFree rfl ?_
      (by rw [hpc]; rfl) (by rw [hpc]; rfl) trivial
    intro q hq
    rw [hpc]
    exact decide_eq_false hq
  | pushTake hpc => exact h.pushTake hpc rfl rfl rfl rfl rfl rfl rfl
  | pushLink hpc => exact h.pushLink hpc rfl rfl rfl rfl rfl rfl rfl
  | pushUnlock hpc =>
    refine h.release (t := t) (q := head) rfl rfl rfl rfl rfl rfl rfl (by rw [hpc]; rfl) rfl ?_
      (by rw [hpc]; rfl) (by rw [hpc]; rfl) trivial
    intro q hq
    rw [hpc]
    exact (decide_eq_false hq).symm
  | lockHead hpc hFree =>
    refine h.acquire (t := t) (q := head) rfl rfl rfl rfl rfl rfl rfl hFree rfl ?_
      (by rw [hpc]; rfl) (by rw [hpc]; rfl) List.mem_cons_self
    intro q hq
    rw [hpc]
    exact decide_eq_false hq
  -- a thread reads the `next` of the node it has locked, which is the node behind it in the list
  | @readEnd v c hpc hNull =>
    rw [hpc] at hOk
    have hNext := h.next_eq (t := t) hOk (by simp [hpc, Pc.holds]) (by simp [hpc, Pc.breaks])
    exact h.go (t := t) rfl rfl rfl rfl rfl (fun _ => id) rfl (by rw [hpc]; rfl)
      (by rw [hpc]; rfl) (by rw [hpc]; rfl) ⟨hOk, hNext.symm.trans hNull⟩
  | @readNext v c hpc hSome =>
    rw [hpc] at hOk
    have hNext := h.next_eq (t := t) hOk (by simp [hpc, Pc.holds]) (by simp [hpc, Pc.breaks])
    exact h.go (t := t) rfl rfl rfl rfl rfl (fun _ => id) rfl (by rw [hpc]; rfl)
      (by rw [hpc]; rfl) (by rw [hpc]; rfl) ⟨hOk, hSome, hNext.symm⟩
  | @lockNext v c n hpc hFree =>
    rw [hpc] at hOk
    refine h.acquire (t := t) (q := n) rfl rfl rfl rfl rfl rfl rfl hFree ?_ ?_
      (by rw [hpc, (afterLock_owned v c n).1]; rfl) (by rw [hpc, (afterLock_owned v c n).2]; rfl) ?_
    · simp [holds_afterLock]
    · intro q hq
      rw [holds_afterLock, hpc]
      simp [Pc.holds, hq]
    · cases v <;> exact hOk
  -- from here on the thread is at the next node, which it has locked already
  | @unlockCurrent v c n hpc =>
    rw [hpc] at hOk
    have hne := h.succ_ne hOk.2.2 hOk.2.1
    refine h.release (t := t) (q := c) rfl rfl rfl rfl rfl rfl rfl (by simp [hpc, Pc.holds])
      (by simp [Pc.holds, hne.symm]) ?_ (by rw [hpc]; rfl) (by rw [hpc]; rfl)
      (succ_mem hOk.2.2 hOk.2.1)
    intro q hq
    simp [hpc, Pc.holds, hq]
  -- the function may assign to the element, which is not empty before or after
  | @callBack v n answer value hpc =>
    rw [hpc] at hOk
    obtain ⟨hHolds, hOwned, hBreaks⟩ := afterCall_parts (α := α) v n answer
    rw [assign_frame]
    refine h.go (t := t) rfl rfl rfl rfl rfl (fun _ => isSome_assign s n value) rfl
      (by rw [hpc, hHolds]) (by rw [hpc, hOwned]; rfl) (by rw [hpc, hBreaks]; rfl) ?_
    cases v with
    | findFirstIf =>
      cases answer
      · exact List.mem_cons_of_mem _ hOk
      · exact hOk
    | forEach | removeIf => exact List.mem_cons_of_mem _ hOk
  | findReturn hpc =>
    rw [hpc] at hOk
    exact h.go (t := t) rfl rfl rfl rfl rfl (fun _ => id) rfl (by rw [hpc]; rfl)
      (by rw [hpc]; rfl) (by rw [hpc]; rfl) hOk
  | @findUnlock n res hpc =>
    refine h.release (t := t) (q := n) rfl rfl rfl rfl rfl rfl rfl (by simp [hpc, Pc.holds]) rfl ?_
      (by rw [hpc]; rfl) (by rw [hpc]; rfl) trivial
    intro q hq
    simp [hpc, Pc.holds, hq]
  | @accept c n value hpc =>
    rw [hpc] at hOk
    rw [assign_frame]
    exact h.go (t := t) rfl rfl rfl rfl rfl (fun _ => isSome_assign s n value) rfl
      (by rw [hpc]; rfl) (by rw [hpc]; rfl) (by rw [hpc]; rfl) hOk
  | @reject c n value hpc =>
    rw [hpc] at hOk
    rw [assign_frame]
    exact h.go (t := t) rfl rfl rfl rfl rfl (fun _ => isSome_assign s n value) rfl
      (by rw [hpc]; rfl) (by rw [hpc]; rfl) (by rw [hpc]; rfl) hOk
  | removeTake hpc => exact h.removeTake hpc rfl rfl rfl rfl rfl rfl rfl
  | removeLink hpc => exact h.removeLink hpc rfl rfl rfl rfl rfl rfl rfl
  -- the node that was taken out is unlocked before it is deleted
  | @removeUnlock c n hpc =>
    rw [hpc] at hOk
    have hOut := h.owned_ne (t := t) (p := n) (by rw [hpc]; rfl)
    refine h.release (t := t) (q := n) rfl rfl rfl rfl rfl rfl rfl (by simp [hpc, Pc.holds])
      ?_ ?_ (by rw [hpc]; rfl) (by rw [hpc]; rfl) hOk
    · simpa [Pc.holds] using (ne_of_mem_of_not_mem hOk hOut).symm
    · intro q hq
      simp [hpc, Pc.holds, hq]
  | removeDelete hpc => exact h.removeDelete hpc rfl rfl rfl rfl rfl rfl rfl
  | @removePass c n hpc =>
    rw [hpc] at hOk
    have hne := h.succ_ne hOk.2.2 hOk.2.1
    refine h.release (t := t) (q := c) rfl rfl rfl rfl rfl rfl rfl (by simp [hpc, Pc.holds])
      (by simp [Pc.holds, hne.symm]) ?_ (by rw [hpc]; rfl) (by rw [hpc]; rfl)
      (List.mem_cons_of_mem _ (succ_mem hOk.2.2 hOk.2.1))
    intro q hq
    simp [hpc, Pc.holds, hq]
  | @unlockLast v c hpc =>
    refine h.release (t := t) (q := c) rfl rfl rfl rfl rfl rfl rfl (by simp [hpc, Pc.holds]) rfl ?_
      (by rw [hpc]; rfl) (by rw [hpc]; rfl) trivial
    intro q hq
    simp [hpc, Pc.holds, hq]

/-- In every state. -/
theorem inv_reachable (hs : (system τ α).Reachable s) : Inv s := by
  refine hs.invariant inv_init ?_
  intro s a s' _ h _ hst
  obtain ⟨t, he⟩ := step_effect hst
  exact inv_effect h he

end EmbLinux.DesignLockBase.ThreadsafeList
