import EmbLinux.DesignLockBase.ThreadsafeList.Invariant

/-!
# EmbLinux — steps of `threadsafe_list` that move no pointer

`Inv.move` is the lemma for a step that locks or unlocks, reads a pointer or calls the function
or predicate: the nodes and pointers stay, and the thread has at most one mutex more or less.
-/

namespace EmbLinux.DesignLockBase.ThreadsafeList

variable {τ α : Type*} [DecidableEq τ] {s s' : State τ α} {t u : τ} {pc : Pc α} {p q : Nat}

section

omit [DecidableEq τ]

/-- Successors are a matter of the list of nodes. -/
theorem succ_congr (hNodes : s'.nodes = s.nodes) (p : Nat) : s'.succ p = s.succ p := by
  unfold State.succ
  rw [hNodes]

/-- What a traversal knows is about the list and the links. -/
theorem PcOk.congr (h : PcOk s pc) (hNodes : s'.nodes = s.nodes) (hNext : s'.next = s.next) :
    PcOk s' pc := by
  have hSucc := succ_congr hNodes
  cases pc <;> simp only [PcOk, hSucc, hNodes, hNext] at h ⊢ <;> exact h

/-- A node that is alive stays so while its memory is not freed. -/
theorem Live.mono (h : Live s p) (hNews : s.news ≤ s'.news)
    (hAllocated : s'.allocated p = s.allocated p)
    (hData : (s.data p).isSome = true → (s'.data p).isSome = true) : Live s' p :=
  ⟨h.ge, Nat.lt_of_lt_of_le h.lt (Nat.add_le_add_right hNews 2), hAllocated.trans h.allocated,
    hData h.data⟩

end

namespace Inv

variable (h : Inv s)

include h

/-- A step that moves no pointer. -/
theorem move (hPc : s'.pc = Function.update s.pc t pc) (hNodes : s'.nodes = s.nodes)
    (hNext : s'.next = s.next) (hAllocated : s'.allocated = s.allocated)
    (hNews : s'.news = s.news)
    (hData : ∀ p, (s.data p).isSome = true → (s'.data p).isSome = true)
    (hLock : ∀ p, LockMove t (s.mutex p) (s'.mutex p) ((s.pc t).holds p) (pc.holds p))
    (hOwned : pc.owned = (s.pc t).owned) (hBreaks : pc.breaks = (s.pc t).breaks)
    (hOk : PcOk s pc) : Inv s' := by
  have hSucc := succ_congr hNodes
  have hLive : ∀ p, Live s p → Live s' p := fun p hp =>
    hp.mono (Nat.le_of_eq hNews.symm) (congrFun hAllocated p) (hData p)
  have hOwnedAll : ∀ u, (s'.pc u).owned = (s.pc u).owned := observe_update Pc.owned hPc hOwned
  have hBreaksAll : ∀ u, (s'.pc u).breaks = (s.pc u).breaks := observe_update Pc.breaks hPc hBreaks
  refine ⟨?_, ?_, ?_, ?_, ?_, ?_, ?_, ?_⟩
  · intro q
    exact Guards.move_part (p := fun pc => pc.holds q) (h.locks q) hPc (hLock q)
  · rw [hNodes]
    exact h.nodup
  · rw [hAllocated]
    exact h.headLive
  · rw [hNodes]
    exact fun p hp => hLive p (h.live p hp)
  · rw [hNodes, hNext]
    intro p hp hWhole
    rw [hSucc]
    exact h.next p hp fun u => hBreaksAll u ▸ hWhole u
  · intro u v p hu hv
    exact h.owned u v p ((hOwnedAll u).symm.trans hu) ((hOwnedAll v).symm.trans hv)
  · rw [hNodes]
    intro u p hu
    obtain ⟨hLiveOwn, hOut⟩ := h.ownedLive u p ((hOwnedAll u).symm.trans hu)
    exact ⟨hLive p hLiveOwn, hOut⟩
  · exact forall_of_update hPc (fun u => (h.pcs u).congr hNodes hNext) (hOk.congr hNodes hNext)

omit [DecidableEq τ] in
/-- The node behind a node is another one. -/
theorem succ_ne {c n : Nat} (hSucc : s.succ c = n) (hn : n ≠ 0) : n ≠ c := by
  rintro rfl
  obtain ⟨r, hList⟩ := mem_of_succ hSucc hn
  exact not_mem_following h.nodup n (hList ▸ List.mem_cons_self)

/-- A step that neither locks nor unlocks. -/
theorem go (hPc : s'.pc = Function.update s.pc t pc) (hNodes : s'.nodes = s.nodes)
    (hNext : s'.next = s.next) (hAllocated : s'.allocated = s.allocated)
    (hNews : s'.news = s.news)
    (hData : ∀ p, (s.data p).isSome = true → (s'.data p).isSome = true)
    (hMutex : s'.mutex = s.mutex) (hHolds : pc.holds = (s.pc t).holds)
    (hOwned : pc.owned = (s.pc t).owned) (hBreaks : pc.breaks = (s.pc t).breaks)
    (hOk : PcOk s pc) : Inv s' := by
  refine h.move hPc hNodes hNext hAllocated hNews hData ?_ hOwned hBreaks hOk
  intro p
  rw [hMutex, hHolds]
  exact .keep

/-- A step that locks a mutex. -/
theorem acquire (hPc : s'.pc = Function.update s.pc t pc) (hNodes : s'.nodes = s.nodes)
    (hNext : s'.next = s.next) (hAllocated : s'.allocated = s.allocated)
    (hNews : s'.news = s.news) (hData : s'.data = s.data)
    (hMutex : s'.mutex = Function.update s.mutex q (some t)) (hFree : s.mutex q = none)
    (hIn : pc.holds q = true) (hOther : ∀ p, p ≠ q → pc.holds p = (s.pc t).holds p)
    (hOwned : pc.owned = (s.pc t).owned) (hBreaks : pc.breaks = (s.pc t).breaks)
    (hOk : PcOk s pc) : Inv s' := by
  refine h.move hPc hNodes hNext hAllocated hNews (fun p hp => hData ▸ hp) ?_ hOwned hBreaks hOk
  rw [hMutex]
  exact LockMove.lock_at hFree hIn hOther

/-- A step that unlocks a mutex. -/
theorem release (hPc : s'.pc = Function.update s.pc t pc) (hNodes : s'.nodes = s.nodes)
    (hNext : s'.next = s.next) (hAllocated : s'.allocated = s.allocated)
    (hNews : s'.news = s.news) (hData : s'.data = s.data)
    (hMutex : s'.mutex = Function.update s.mutex q none) (hIn : (s.pc t).holds q = true)
    (hOut : pc.holds q = false) (hOther : ∀ p, p ≠ q → pc.holds p = (s.pc t).holds p)
    (hOwned : pc.owned = (s.pc t).owned) (hBreaks : pc.breaks = (s.pc t).breaks)
    (hOk : PcOk s pc) : Inv s' := by
  refine h.move hPc hNodes hNext hAllocated hNews (fun p hp => hData ▸ hp) ?_ hOwned hBreaks hOk
  rw [hMutex]
  exact LockMove.unlock_at hIn hOut hOther

end Inv

omit [DecidableEq τ] in
/-- An assignment of a function to an element leaves a value there. -/
theorem isSome_assign (s : State τ α) (n : Nat) (value : Option α) {p : Nat}
    (h : (s.data p).isSome = true) : ((s.assign n value).data p).isSome = true := by
  cases value with
  | none => exact h
  | some x =>
    change (Function.update s.data n (some x) p).isSome = true
    rcases update_at s.data n (some x) p with ⟨-, hAt⟩ | ⟨-, hAt⟩ <;> rw [hAt]
    · rfl
    · exact h

end EmbLinux.DesignLockBase.ThreadsafeList
