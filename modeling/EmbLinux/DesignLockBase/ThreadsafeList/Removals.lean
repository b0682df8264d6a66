import EmbLinux.DesignLockBase.ThreadsafeList.Traversals

/-!
# EmbLinux — the nodes that leave `threadsafe_list`

`Removals` says which nodes have left the list, and that their predicate held. The smart
pointers that a step of the list assigns or destroys are null (`cleared_reachable`), so no
node goes with them: a node is deleted by the `remove_if` that took it out, and alone.
-/

namespace EmbLinux.DesignLockBase.ThreadsafeList

variable {τ α : Type*} [DecidableEq τ] {s s' : State τ α} {t u : τ} {pc : Pc α} {p q c n : Nat}

-- ---------------------------------------------------------------------------
-- Nodes that left the list
-- ---------------------------------------------------------------------------

/-- The node for which the predicate returned true, before it is taken out. -/
def Pc.accepts : Pc α → Option Nat
  | .removeTake _ n => some n
  | _ => none

/-- The node of `old_next`. -/
def Pc.oldNext : Pc α → Option Nat
  | .removeLink _ n | .removeUnlock _ n | .removeDelete _ n => some n
  | _ => none

/-- A predicate that has accepted a node is followed by its removal. -/
theorem Pc.removeTake_of_accepts (h : pc.accepts = some p) : ∃ c, pc = .removeTake c p := by
  cases pc <;> cases h
  case removeTake c => exact ⟨c, rfl⟩

/-- A node is taken out once, by the thread whose predicate accepted it, and never comes back.
-/
structure Removals (s : State τ α) : Prop where
  /-- A thread that is about to take a node out has had its predicate answered true, -/
  taken : ∀ t p, (s.pc t).accepts = some p → (t, p) ∈ s.accepted
  /-- and one that has done so is recorded. -/
  removed : ∀ t p, (s.pc t).oldNext = some p → (t, p) ∈ s.unlinked
  pending : ∀ t p, (t, p) ∈ s.accepted → (t, p) ∈ s.unlinked ∨ (s.pc t).accepts = some p
  accepted : ∀ x ∈ s.unlinked, x ∈ s.accepted
  /-- A node that has left does not come back, -/
  gone : ∀ t p, (t, p) ∈ s.unlinked →
    p ∉ s.nodes ∧ p < s.news + 2 ∧ ∀ u, (s.pc u).newNode ≠ some p
  /-- so it leaves once. -/
  once : (s.unlinked.map Prod.snd).Nodup

namespace Removals

variable (h : Removals s)

include h

/-- No node leaves the list, and no predicate returns true. -/
theorem keep (hPc : s'.pc = Function.update s.pc t pc)
    (hAccepted : s'.accepted = s.accepted) (hUnlinked : s'.unlinked = s.unlinked)
    (hNodes : ∀ p ∈ s'.nodes, p ∈ s.nodes ∨ (s.pc t).newNode = some p)
    (hNews : s.news ≤ s'.news) (hOld : (s.pc t).accepts = none) (hAccepts : pc.accepts = none)
    (hRemoved : pc.oldNext = none ∨ pc.oldNext = (s.pc t).oldNext)
    (hNew : pc.newNode = none ∨ pc.newNode = (s.pc t).newNode ∨
      pc.newNode = some (s.news + 2)) : Removals s' := by
  refine ⟨?_, ?_, ?_, ?_, ?_, ?_⟩
  · rw [hAccepted]
    refine part_of_update Pc.accepts hPc (fun p hp => ?_) fun u p _ => h.taken u p
    rw [hAccepts] at hp
    cases hp
  · rw [hUnlinked]
    refine part_of_update Pc.oldNext hPc (fun p hp => ?_) fun u p _ => h.removed u p
    rcases hRemoved with hNone | hSame
    · rw [hNone] at hp
      cases hp
    · exact h.removed t p (hSame.symm.trans hp)
  · rw [hAccepted, hUnlinked]
    intro u p hu
    rw [observe_update Pc.accepts hPc (hAccepts.trans hOld.symm)]
    exact h.pending u p hu
  · rw [hAccepted, hUnlinked]
    exact h.accepted
  · rw [hUnlinked]
    intro u p hu
    obtain ⟨hOut, hLt, hNone⟩ := h.gone u p hu
    refine ⟨fun hMem => ?_, by omega, ?_⟩
    · rcases hNodes p hMem with hMem | hOwn
      · exact hOut hMem
      · exact hNone t hOwn
    · refine forall_of_update (p := fun pc => pc.newNode ≠ some p) hPc hNone fun hv => ?_
      rcases hNew with hNo | hSame | hFresh
      · rw [hNo] at hv
        cases hv
      · exact hNone t (hSame.symm.trans hv)
      · obtain rfl := Option.some.inj (hFresh.symm.trans hv)
        exact Nat.lt_irrefl _ hLt
  · rw [hUnlinked]
    exact h.once

/-- The predicate returns true. -/
theorem accept (hpc : s.pc t = .callPredicate c n)
    (hPc : s'.pc = Function.update s.pc t (.removeTake c n))
    (hAccepted : s'.accepted = s.accepted ++ [(t, n)]) (hUnlinked : s'.unlinked = s.unlinked)
    (hNodes : s'.nodes = s.nodes) (hNews : s'.news = s.news) : Removals s' := by
  have hMore : ∀ x ∈ s.accepted, x ∈ s'.accepted := by
    rw [hAccepted]
    exact fun x => List.mem_append_left _
  refine ⟨?_, ?_, ?_, ?_, ?_, ?_⟩
  · refine part_of_update Pc.accepts hPc (fun p hp => ?_) fun u p _ hu => hMore _ (h.taken u p hu)
    obtain rfl := Option.some.inj hp
    rw [hAccepted]
    exact List.mem_append_right _ List.mem_cons_self
  · rw [hUnlinked]
    exact part_of_update Pc.oldNext hPc (fun p hp => by cases hp) fun u p _ => h.removed u p
  · rw [hAccepted, hUnlinked]
    intro u p hu
    rcases List.mem_append.mp hu with hu | hu
    · refine (h.pending u p hu).imp_right fun hOld => ?_
      have hut : u ≠ t := by
        rintro rfl
        rw [hpc] at hOld
        cases hOld
      rwa [hPc, Function.update_of_ne hut]
    · obtain ⟨rfl, rfl⟩ := Prod.mk.inj (List.mem_singleton.mp hu)
      exact Or.inr (by rw [hPc, Function.update_self]; rfl)
  · rw [hUnlinked]
    exact fun x hx => hMore x (h.accepted x hx)
  · rw [hUnlinked, hNodes, hNews]
    intro u p hu
    obtain ⟨hOut, hLt, hNone⟩ := h.gone u p hu
    exact ⟨hOut, hLt, forall_of_update (p := fun pc => pc.newNode ≠ some p) hPc hNone nofun⟩
  · rw [hUnlinked]
    exact h.once

/-- A node leaves the list. -/
theorem take (hInv : Inv s) (hpc : s.pc t = .removeTake c n)
    (hPc : s'.pc = Function.update s.pc t (.removeLink c n)) (hAccepted : s'.accepted = s.accepted)
    (hUnlinked : s'.unlinked = s.unlinked ++ [(t, n)]) (hNodes : s'.nodes = s.nodes.erase n)
    (hNews : s'.news = s.news) : Removals s' := by
  have hOk := hInv.pcs t
  rw [hpc] at hOk
  have hMem := succ_mem hOk.2.2 hOk.2.1
  refine ⟨?_, ?_, ?_, ?_, ?_, ?_⟩
  · rw [hAccepted]
    exact part_of_update Pc.accepts hPc (fun p hp => by cases hp) fun u p _ => h.taken u p
  · rw [hUnlinked]
    refine part_of_update Pc.oldNext hPc (fun p hp => ?_)
      fun u p _ hu => List.mem_append_left _ (h.removed u p hu)
    obtain rfl := Option.some.inj hp
    exact List.mem_append_right _ List.mem_cons_self
  · rw [hAccepted, hUnlinked]
    intro u p hu
    rcases h.pending u p hu with hOut | hOld
    · exact Or.inl (List.mem_append_left _ hOut)
    · by_cases hut : u = t
      · rw [hut, hpc] at hOld
        obtain rfl := Option.some.inj hOld
        exact Or.inl (List.mem_append_right _ (hut ▸ List.mem_cons_self))
      · exact Or.inr (by rwa [hPc, Function.update_of_ne hut])
  · rw [hAccepted, hUnlinked]
    intro x hx
    rcases List.mem_append.mp hx with hx | hx
    · exact h.accepted x hx
    · rw [List.mem_singleton.mp hx]
      exact h.taken t n (by rw [hpc]; rfl)
  · rw [hUnlinked, hNodes, hNews]
    intro u p hu
    have hOldGone : p ∉ s.nodes.erase n ∧ p < s.news + 2 ∧ ∀ v, (s.pc v).newNode ≠ some p := by
      rcases List.mem_append.mp hu with hu | hu
      · obtain ⟨hOut, hLt, hNone⟩ := h.gone u p hu
        exact ⟨fun hIn => hOut (List.mem_of_mem_erase hIn), hLt, hNone⟩
      · obtain ⟨-, rfl⟩ := Prod.mk.inj (List.mem_singleton.mp hu)
        refine ⟨(List.nodup_cons.mp hInv.nodup).2.not_mem_erase, (hInv.live p hMem).lt, ?_⟩
        exact fun v hv => (hInv.ownedLive v p (Pc.owned_of_newNode hv)).2 hMem
    exact ⟨hOldGone.1, hOldGone.2.1,
      forall_of_update (p := fun pc => pc.newNode ≠ some p) hPc hOldGone.2.2 nofun⟩
  · rw [hUnlinked, List.map_append]
    refine List.nodup_append'.mpr ⟨h.once, List.nodup_singleton _, ?_⟩
    intro p hp hn
    obtain rfl := List.mem_singleton.mp hn
    obtain ⟨x, hx, hEq⟩ := List.mem_map.mp hp
    exact (h.gone x.1 x.2 hx).1 (hEq ▸ hMem)

end Removals

/-- A case for each effect. -/
theorem removals_effect (h : Removals s) (hInv : Inv s) (he : Effect s t s') : Removals s' := by
  cases he with
  | callPush hpc | call hpc | pushUnlock hpc | lockHead hpc | readEnd hpc | readNext hpc
  | unlockCurrent hpc | findReturn hpc | findUnlock hpc | removeDelete hpc | removePass hpc
  | unlockLast hpc =>
    exact h.keep (t := t) rfl rfl rfl (fun _ => Or.inl) (Nat.le_refl _) (by rw [hpc]; rfl) rfl
      (Or.inl rfl) (Or.inl rfl)
  | removeLink hpc | removeUnlock hpc =>
    exact h.keep (t := t) rfl rfl rfl (fun _ => Or.inl) (Nat.le_refl _) (by rw [hpc]; rfl) rfl
      (Or.inr (by rw [hpc]; rfl)) (Or.inl rfl)
  | pushNew hpc =>
    exact h.keep (t := t) rfl rfl rfl (fun _ => Or.inl) (Nat.le_succ _) (by rw [hpc]; rfl) rfl
      (Or.inl rfl) (Or.inr (Or.inr rfl))
  | pushLock hpc | pushTake hpc =>
    exact h.keep (t := t) rfl rfl rfl (fun _ => Or.inl) (Nat.le_refl _) (by rw [hpc]; rfl) rfl
      (Or.inl rfl) (Or.inr (Or.inl (by rw [hpc]; rfl)))
  | @pushLink p hpc =>
    refine h.keep (t := t) rfl rfl rfl (fun q hq => ?_) (Nat.le_refl _) (by rw [hpc]; rfl) rfl
      (Or.inl rfl) (Or.inl rfl)
    rcases List.mem_cons.mp hq with rfl | hq
    · exact Or.inr (by rw [hpc]; rfl)
    · exact Or.inl hq
  | @lockNext v c n hpc =>
    refine h.keep (t := t) rfl rfl rfl (fun _ => Or.inl) (Nat.le_refl _) (by rw [hpc]; rfl) ?_
      (Or.inl ?_) (Or.inl ?_)
    · cases v <;> rfl
    · cases v <;> rfl
    · cases v <;> rfl
  | @callBack v n answer value hpc =>
    rw [assign_frame]
    refine h.keep (t := t) rfl rfl rfl (fun _ => Or.inl) (Nat.le_refl _) (by rw [hpc]; rfl) ?_
      (Or.inl ?_) (Or.inl ?_)
    · cases v <;> cases answer <;> rfl
    · cases v <;> cases answer <;> rfl
    · cases v <;> cases answer <;> rfl
  | accept hpc =>
    rw [assign_frame]
    exact h.accept hpc rfl rfl rfl rfl rfl
  | reject hpc =>
    rw [assign_frame]
    exact h.keep (t := t) rfl rfl rfl (fun _ => Or.inl) (Nat.le_refl _) (by rw [hpc]; rfl) rfl
      (Or.inl rfl) (Or.inl rfl)
  | removeTake hpc => exact h.take hInv hpc rfl rfl rfl rfl rfl

/-- In every state. -/
theorem removals_reachable (hs : (system τ α).Reachable s) : Removals s := by
  have hInit : Removals (init τ α) := by
    refine ⟨nofun, nofun, ?_, ?_, ?_, List.nodup_nil⟩
    · exact fun t p hp => absurd hp List.not_mem_nil
    · exact fun x hx => absurd hx List.not_mem_nil
    · exact fun t p hp => absurd hp List.not_mem_nil
  refine hs.invariant hInit ?_
  intro s a s' hs h _ hst
  obtain ⟨t, he⟩ := step_effect hst
  exact removals_effect h (inv_reachable hs) he

-- ---------------------------------------------------------------------------
-- Smart pointers that are assigned or destroyed
-- ---------------------------------------------------------------------------

/-- The node whose `next` a later step of the call assigns, or destroys with the node. -/
def Pc.clears : Pc α → Option Nat
  | .pushLock p | .pushTake p => some p
  | .pushLink _ => some head
  | .removeLink c _ => some c
  | .removeUnlock _ n | .removeDelete _ n => some n
  | _ => none

/-- A link that is cleared belongs to a node that is being put in or taken out. -/
theorem Pc.owned_or_breaks (h : pc.clears = some p) : pc.owned = some p ∨ pc.breaks = some p := by
  cases pc <;> cases h
  case pushLock | pushTake | removeUnlock | removeDelete => exact Or.inl rfl
  case pushLink | removeLink => exact Or.inr rfl

/-- What is assigned or destroyed is null. -/
def Cleared (s : State τ α) : Prop :=
  ∀ t p, (s.pc t).clears = some p → s.next p = 0

omit [DecidableEq τ] in
/-- A `unique_ptr` that was moved from is null. -/
theorem moveNext_source (s : State τ α) (c n : Nat) : (s.moveNext c n).next n = 0 :=
  Function.update_self n 0 (Function.update s.next c (s.next n))

omit [DecidableEq τ] in
/-- A node that the move does not assign to. -/
theorem moveNext_of_ne (hp : p ≠ c) :
    (s.moveNext c n).next p = s.next p ∨ (s.moveNext c n).next p = 0 := by
  rcases update_at (Function.update s.next c (s.next n)) n 0 p with ⟨-, hAt⟩ | ⟨-, hAt⟩
  · exact Or.inr hAt
  · exact Or.inl (hAt.trans (Function.update_of_ne hp _ _))

namespace Cleared

variable (h : Cleared s)

include h

/-- The step writes null, or nothing. -/
theorem keep (hPc : s'.pc = Function.update s.pc t pc)
    (hNext : ∀ p, s'.next p = s.next p ∨ s'.next p = 0)
    (hClears : ∀ p, pc.clears = some p → (s.pc t).clears = some p ∨ s'.next p = 0) :
    Cleared s' := by
  have hOld : ∀ u p, (s.pc u).clears = some p → s'.next p = 0 := by
    intro u p hu
    rcases hNext p with hSame | hNull
    · exact hSame.trans (h u p hu)
    · exact hNull
  intro u p hu
  rcases update_cases hPc u with ⟨rfl, hHere⟩ | ⟨-, hOther⟩
  · rw [hHere] at hu
    rcases hClears p hu with hBefore | hNull
    · exact hOld u p hBefore
    · exact hNull
  · exact hOld u p (hOther ▸ hu)

/-- The step writes to a node that the thread has locked in the list, or that is its own. -/
theorem write (hInv : Inv s) (hPc : s'.pc = Function.update s.pc t pc)
    (hMine : (s.pc t).owned = some q ∨ q ∈ head :: s.nodes ∧ (s.pc t).holds q = true)
    (hNext : ∀ p, p ≠ q → s'.next p = s.next p ∨ s'.next p = 0)
    (hClears : ∀ p, pc.clears = some p → s'.next p = 0) : Cleared s' := by
  intro u p hu
  rcases update_cases hPc u with ⟨-, hHere⟩ | ⟨hut, hOther⟩
  · exact hClears p (hHere ▸ hu)
  · rw [hOther] at hu
    have hpq : p ≠ q := by
      rintro rfl
      rcases Pc.owned_or_breaks hu with hOwn | hBreaks
      · rcases hMine with hMine | ⟨hMem, -⟩
        · exact hut (hInv.owned u t p hOwn hMine)
        · exact hInv.owned_ne hOwn hMem
      · have hHolds := Pc.holds_of_breaks hBreaks
        rcases hMine with hMine | ⟨-, hMine⟩
        · rcases hInv.mem_of_holds hHolds with hMem | hOwn
          · exact hInv.owned_ne hMine hMem
          · exact hut (hInv.owned u t p hOwn hMine)
        · exact hInv.ne_of_holds hut hHolds hMine rfl
    rcases hNext p hpq with hSame | hNull
    · exact hSame.trans (h u p hu)
    · exact hNull

end Cleared

/-- A case for each effect. -/
theorem cleared_effect (h : Cleared s) (hInv : Inv s) (he : Effect s t s') : Cleared s' := by
  have hOk := hInv.pcs t
  cases he with
  | callPush | call | pushUnlock | lockHead | readEnd | readNext | unlockCurrent | findReturn
  | findUnlock | removeDelete | removePass | unlockLast =>
    exact h.keep (t := t) rfl (fun _ => Or.inl rfl) (fun _ hp => nomatch hp)
  | pushLock hpc | removeUnlock hpc =>
    exact h.keep (t := t) rfl (fun _ => Or.inl rfl) (fun _ hp => Or.inl (hpc ▸ hp))
  | @lockNext v c n hpc =>
    refine h.keep (t := t) rfl (fun _ => Or.inl rfl) ?_
    cases v <;> exact fun _ hp => nomatch hp
  | @callBack v n answer value hpc =>
    rw [assign_frame]
    refine h.keep (t := t) rfl (fun _ => Or.inl rfl) ?_
    cases v <;> cases answer <;> exact fun _ hp => nomatch hp
  | accept | reject =>
    rw [assign_frame]
    exact h.keep (t := t) rfl (fun _ => Or.inl rfl) (fun _ hp => nomatch hp)
  | pushNew hpc =>
    refine h.keep (t := t) rfl (fun p => ?_) (fun p hp => Or.inr ?_)
    · exact (update_at s.next (s.news + 2) 0 p).symm.imp And.right And.right
    · obtain rfl := Option.some.inj hp
      exact Function.update_self _ _ _
  | @removeTake c n hpc =>
    refine h.keep (t := t) rfl (fun p => ?_) (fun p hp => Or.inr ?_)
    · exact (update_at s.next c 0 p).symm.imp And.right And.right
    · obtain rfl := Option.some.inj hp
      exact Function.update_self _ _ _
  | @pushTake p hpc =>
    refine h.write hInv (t := t) (q := p) rfl (Or.inl (by rw [hpc]; rfl)) (fun q hq => ?_) ?_
    · exact moveNext_of_ne hq
    · intro q hq
      obtain rfl := Option.some.inj hq
      exact moveNext_source s p head
  | @pushLink p hpc =>
    refine h.write hInv (t := t) (q := head) rfl (Or.inr ⟨List.mem_cons_self, by rw [hpc]; rfl⟩)
      (fun q hq => Or.inl ?_) (fun _ hq => nomatch hq)
    exact Function.update_of_ne (f := s.next) hq _
  | @removeLink c n hpc =>
    rw [hpc] at hOk
    refine h.write hInv (t := t) (q := c) rfl (Or.inr ⟨hOk.1, by simp [hpc, Pc.holds]⟩)
      (fun q hq => ?_) ?_
    · exact moveNext_of_ne hq
    · intro q hq
      obtain rfl := Option.some.inj hq
      exact moveNext_source s c n

/-- In every state. -/
theorem cleared_reachable (hs : (system τ α).Reachable s) : Cleared s := by
  refine hs.invariant (fun t p hp => nomatch hp) ?_
  intro s a s' hs h _ hst
  obtain ⟨t, he⟩ := step_effect hst
  exact cleared_effect h (inv_reachable hs) he

end EmbLinux.DesignLockBase.ThreadsafeList
