import EmbLinux.DesignLockBase.ThreadsafeList.Pointers

/-!
# EmbLinux — what a traversal of `threadsafe_list` sees

`Visits` compares the nodes that a `for_each` has visited and those that are ahead of it
with those that were in the list when it locked `head` and still are. No thread overtakes it:
a node is put in at the front, behind it, and a node is taken out by a thread that has
locked it and the one before, so not between what it has locked and what comes next.
-/

namespace EmbLinux.DesignLockBase.ThreadsafeList

variable {τ α : Type*} [DecidableEq τ] {s s' : State τ α} {t u : τ} {pc : Pc α} {p q c n : Nat}

/-- The nodes that are ahead of a `for_each` in the list `l`. -/
def Pc.ahead (l : List Nat) : Pc α → Option (List Nat)
  | .readNext .forEach c | .lockNext .forEach c _ | .unlockCurrent .forEach c _
  | .unlockLast .forEach c => some (following c l)
  | .callBack .forEach n => some (n :: following n l)
  | _ => none

/-- A traversal has visited what it has behind it: of the nodes that were there from its call
on, each is visited or still ahead, and none twice. -/
structure Visits (s : State τ α) : Prop where
  present : ∀ t, (s.present t).Sublist s.nodes
  once : ∀ t rest, (s.pc t).ahead (head :: s.nodes) = some rest → (s.visited t ++ rest).Nodup
  covered : ∀ t rest, (s.pc t).ahead (head :: s.nodes) = some rest →
    (s.present t).Sublist (s.visited t ++ rest)

namespace Visits

variable (h : Visits s)

include h

/-- The list stays, and the thread has visited no node more. -/
theorem keep (hPc : s'.pc = Function.update s.pc t pc) (hNodes : s'.nodes = s.nodes)
    (hPresent : s'.present = s.present) (hVisited : s'.visited = s.visited)
    (hAhead : pc.ahead (head :: s.nodes) = none ∨
      pc.ahead (head :: s.nodes) = (s.pc t).ahead (head :: s.nodes)) : Visits s' := by
  have hOld : ∀ u rest, (s'.pc u).ahead (head :: s.nodes) = some rest →
      (s.pc u).ahead (head :: s.nodes) = some rest := by
    intro u rest hu
    rcases update_cases hPc u with ⟨rfl, hHere⟩ | ⟨-, hOther⟩
    · rw [hHere] at hu
      rcases hAhead with hNone | hSame
      · rw [hNone] at hu
        cases hu
      · exact hSame.symm.trans hu
    · exact hOther ▸ hu
  refine ⟨?_, ?_, ?_⟩
  · rw [hPresent, hNodes]
    exact h.present
  · rw [hVisited, hNodes]
    exact fun u rest hu => h.once u rest (hOld u rest hu)
  · rw [hVisited, hPresent, hNodes]
    exact fun u rest hu => h.covered u rest (hOld u rest hu)

/-- A traversal begins: all nodes are ahead. -/
theorem enter (hNodup : s.nodes.Nodup) (v : Traversal)
    (hPc : s'.pc = Function.update s.pc t (.readNext v head)) (hNodes : s'.nodes = s.nodes)
    (hPresent : s'.present = Function.update s.present t s.nodes)
    (hVisited : s'.visited = Function.update s.visited t []) : Visits s' := by
  have hAll : ∀ rest, (Pc.readNext v head : Pc α).ahead (head :: s.nodes) = some rest →
      rest = s.nodes := by
    intro rest hRest
    cases v with
    | forEach =>
      rw [Pc.ahead, following_cons_self] at hRest
      exact (Option.some.inj hRest).symm
    | findFirstIf | removeIf => cases hRest
  refine ⟨fun u => ?_, fun u rest hu => ?_, fun u rest hu => ?_⟩
  · rw [hPresent, hNodes]
    rcases update_at s.present t s.nodes u with ⟨-, hAt⟩ | ⟨-, hAt⟩ <;> rw [hAt]
    exact h.present u
  · rw [hNodes] at hu
    rw [hVisited]
    rcases update_cases hPc u with ⟨rfl, hHere⟩ | ⟨hut, hOther⟩
    · rw [hHere] at hu
      rw [Function.update_self, hAll rest hu]
      exact hNodup
    · rw [Function.update_of_ne hut]
      exact h.once u rest (hOther ▸ hu)
  · rw [hNodes] at hu
    rw [hVisited, hPresent]
    rcases update_cases hPc u with ⟨rfl, hHere⟩ | ⟨hut, hOther⟩
    · rw [hHere] at hu
      rw [Function.update_self, Function.update_self, hAll rest hu]
      exact List.Sublist.refl _
    · rw [Function.update_of_ne hut, Function.update_of_ne hut]
      exact h.covered u rest (hOther ▸ hu)

/-- The function is applied to the first node ahead. -/
theorem visit {v : Traversal} {answer : Bool} (hpc : s.pc t = .callBack v n)
    (hPc : s'.pc = Function.update s.pc t (afterCall v n answer)) (hNodes : s'.nodes = s.nodes)
    (hPresent : s'.present = s.present)
    (hVisited : s'.visited = Function.update s.visited t (s.visited t ++ [n])) : Visits s' := by
  have hAll : ∀ rest, (afterCall v n answer : Pc α).ahead (head :: s.nodes) = some rest →
      (s.pc t).ahead (head :: s.nodes) = some (n :: rest) := by
    intro rest hRest
    rw [hpc]
    cases v with
    | forEach =>
      obtain rfl := Option.some.inj hRest
      rfl
    | findFirstIf => cases answer <;> cases hRest
    | removeIf => cases hRest
  refine ⟨?_, fun u rest hu => ?_, fun u rest hu => ?_⟩
  · rw [hPresent, hNodes]
    exact h.present
  · rw [hNodes] at hu
    rw [hVisited]
    rcases update_cases hPc u with ⟨rfl, hHere⟩ | ⟨hut, hOther⟩
    · rw [hHere] at hu
      rw [Function.update_self, List.append_assoc]
      exact h.once u _ (hAll rest hu)
    · rw [Function.update_of_ne hut]
      exact h.once u rest (hOther ▸ hu)
  · rw [hNodes] at hu
    rw [hVisited, hPresent]
    rcases update_cases hPc u with ⟨rfl, hHere⟩ | ⟨hut, hOther⟩
    · rw [hHere] at hu
      rw [Function.update_self, List.append_assoc]
      exact h.covered u _ (hAll rest hu)
    · rw [Function.update_of_ne hut]
      exact h.covered u rest (hOther ▸ hu)

end Visits

-- ---------------------------------------------------------------------------
-- Nodes that come and go
-- ---------------------------------------------------------------------------

omit [DecidableEq τ] in
/-- The same is ahead in two lists that agree behind the nodes that the thread has locked. -/
theorem Pc.ahead_congr {l l' : List Nat}
    (h : ∀ c, pc.holds c = true → following c l' = following c l) : pc.ahead l' = pc.ahead l := by
  cases pc with
  | readNext v c | lockNext v c n | unlockCurrent v c n | unlockLast v c =>
    cases v with
    | forEach => exact congrArg some (h c (by simp [Pc.holds]))
    | findFirstIf | removeIf => rfl
  | callBack v n =>
    cases v with
    | forEach => exact congrArg (fun r => some (n :: r)) (h n (by simp [Pc.holds]))
    | findFirstIf | removeIf => rfl
  | _ => rfl

omit [DecidableEq τ] in
/-- What is ahead, without a node that the thread has not locked. -/
theorem Pc.ahead_erase {l : List Nat} (hNodup : l.Nodup) (hFree : pc.holds n = false) :
    pc.ahead (l.erase n) = (pc.ahead l).map fun rest => rest.erase n := by
  have hne : ∀ c, pc.holds c = true → c ≠ n := by
    rintro c hc rfl
    rw [hFree] at hc
    cases hc
  cases pc with
  | readNext v c | lockNext v c m | unlockCurrent v c m | unlockLast v c =>
    cases v with
    | forEach => exact congrArg some (following_erase hNodup (hne c (by simp [Pc.holds])))
    | findFirstIf | removeIf => rfl
  | callBack v m =>
    cases v with
    | forEach =>
      have hmn := hne m (by simp [Pc.holds])
      change some (m :: following m (l.erase n)) = some ((m :: following m l).erase n)
      rw [following_erase hNodup hmn, List.erase_cons_tail (by simpa using hmn)]
    | findFirstIf | removeIf => rfl
  | _ => rfl

namespace Visits

variable (h : Visits s) (hInv : Inv s)

include h hInv

/-- A node is put in at the front, by a thread that has locked `head`. -/
theorem link (hHolds : (s.pc t).holds head = true) (hOwn : (s.pc t).owned = some p)
    (hPc : s'.pc = Function.update s.pc t .pushUnlock) (hNodes : s'.nodes = p :: s.nodes)
    (hPresent : s'.present = s.present) (hVisited : s'.visited = s.visited) : Visits s' := by
  have hOld : ∀ u rest, (s'.pc u).ahead (head :: s'.nodes) = some rest →
      (s.pc u).ahead (head :: s.nodes) = some rest := by
    intro u rest hu
    rcases update_cases hPc u with ⟨-, hHere⟩ | ⟨hut, hOther⟩
    · rw [hHere] at hu
      cases hu
    · rw [hOther, hNodes, Pc.ahead_congr] at hu
      · exact hu
      · intro c hc
        refine following_insert (hInv.ne_of_holds hut hc hHolds) ?_
        rintro rfl
        rcases hInv.mem_of_holds hc with hMem | hOwnOther
        · exact hInv.owned_ne hOwn hMem
        · exact hut (hInv.owned u t c hOwnOther hOwn)
  refine ⟨fun u => ?_, ?_, ?_⟩
  · rw [hPresent, hNodes]
    exact (h.present u).cons p
  · rw [hVisited]
    exact fun u rest hu => h.once u rest (hOld u rest hu)
  · rw [hVisited, hPresent]
    exact fun u rest hu => h.covered u rest (hOld u rest hu)

/-- A node is taken out, by a thread that has locked it. -/
theorem take (hHolds : (s.pc t).holds n = true) (hn : n ≠ head)
    (hPc : s'.pc = Function.update s.pc t (.removeLink c n)) (hNodes : s'.nodes = s.nodes.erase n)
    (hPresent : s'.present = fun u => (s.present u).erase n) (hVisited : s'.visited = s.visited) :
    Visits s' := by
  have hErase : head :: s'.nodes = (head :: s.nodes).erase n := by
    rw [hNodes, List.erase_cons_tail (by simpa using hn.symm)]
  have hOld : ∀ u rest, (s'.pc u).ahead (head :: s'.nodes) = some rest →
      ∃ before, (s.pc u).ahead (head :: s.nodes) = some before ∧ rest = before.erase n := by
    intro u rest hu
    rcases update_cases hPc u with ⟨-, hHere⟩ | ⟨hut, hOther⟩
    · rw [hHere] at hu
      cases hu
    · rw [hOther, hErase, Pc.ahead_erase hInv.nodup ((hInv.locks n).not_inside hHolds hut),
        Option.map_eq_some_iff] at hu
      obtain ⟨before, hBefore, hEq⟩ := hu
      exact ⟨before, hBefore, hEq.symm⟩
  refine ⟨fun u => ?_, ?_, ?_⟩
  · rw [hPresent, hNodes]
    exact (h.present u).erase n
  · rw [hVisited]
    intro u rest hu
    obtain ⟨before, hBefore, rfl⟩ := hOld u rest hu
    exact (h.once u before hBefore).sublist
      ((List.Sublist.refl _).append List.erase_sublist)
  · rw [hVisited, hPresent]
    intro u rest hu
    obtain ⟨before, hBefore, rfl⟩ := hOld u rest hu
    have hOnce := h.once u before hBefore
    refine ((h.covered u before hBefore).erase n).trans ?_
    by_cases hIn : n ∈ s.visited u
    · have hOut : n ∉ before := fun hMem => (List.nodup_append.mp hOnce).2.2 n hIn n hMem rfl
      rw [List.erase_append_left _ hIn, List.erase_of_not_mem hOut]
      exact List.erase_sublist.append (List.Sublist.refl _)
    · rw [List.erase_append_right _ hIn]

end Visits

/-- A case for each effect; nodes that are put in or taken out meanwhile are not among those
that count. -/
theorem visits_effect (h : Visits s) (hInv : Inv s) (he : Effect s t s') : Visits s' := by
  have hNodes := (List.nodup_cons.mp hInv.nodup).2
  have hOk := hInv.pcs t
  cases he with
  | callPush | call | pushNew | pushLock | pushTake | pushUnlock | findReturn | findUnlock
  | removeLink | removeUnlock | unlockLast =>
    exact h.keep (t := t) rfl rfl rfl rfl (Or.inl rfl)
  | removeDelete | removePass => exact h.keep (t := t) rfl rfl rfl rfl (Or.inl rfl)
  | pushLink hpc =>
    exact h.link hInv (t := t) (by rw [hpc]; rfl) (by rw [hpc]; rfl) rfl rfl rfl rfl
  | @lockHead v hpc hFree => exact h.enter hNodes v rfl rfl rfl rfl
  | @readEnd v c hpc hNull =>
    refine h.keep (t := t) rfl rfl rfl rfl (Or.inr ?_)
    rw [hpc]
    cases v <;> rfl
  | @readNext v c hpc hNext =>
    refine h.keep (t := t) rfl rfl rfl rfl (Or.inr ?_)
    rw [hpc]
    cases v <;> rfl
  | @lockNext v c n hpc hFree =>
    refine h.keep (t := t) rfl rfl rfl rfl (Or.inr ?_)
    rw [hpc]
    cases v <;> rfl
  | @unlockCurrent v c n hpc =>
    refine h.keep (t := t) rfl rfl rfl rfl (Or.inr ?_)
    rw [hpc] at hOk ⊢
    obtain ⟨r, hList⟩ := mem_of_succ hOk.2.2 hOk.2.1
    cases v with
    | forEach => simp only [Pc.ahead, hList, following_of_cons hInv.nodup hList]
    | findFirstIf | removeIf => rfl
  | @callBack v n answer value hpc =>
    rw [assign_frame]
    exact h.visit hpc rfl rfl rfl rfl
  | accept | reject =>
    rw [assign_frame]
    exact h.keep (t := t) rfl rfl rfl rfl (Or.inl rfl)
  | @removeTake c n hpc =>
    rw [hpc] at hOk
    have hMem := succ_mem hOk.2.2 hOk.2.1
    exact h.take hInv (t := t) (by simp [hpc, Pc.holds])
      (ne_of_mem_of_not_mem hMem hInv.head_not_mem) rfl rfl rfl rfl

/-- In every state. -/
theorem visits_reachable (hs : (system τ α).Reachable s) : Visits s := by
  have hInit : Visits (init τ α) := by
    refine ⟨fun _ => List.Sublist.refl _, ?_, ?_⟩
    · intro t rest hNone
      cases hNone
    · intro t rest hNone
      cases hNone
  refine hs.invariant hInit ?_
  intro s a s' hs h _ hst
  obtain ⟨t, he⟩ := step_effect hst
  exact visits_effect h (inv_reachable hs) he

end EmbLinux.DesignLockBase.ThreadsafeList
