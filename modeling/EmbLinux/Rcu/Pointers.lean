import EmbLinux.Rcu.Registry

/-!
# EmbLinux — every pointee has one owner

A pointer that was ever installed is linked in one `RcuPtr`, or pending in one
`update` between its `exchange` and its `delete`, or deleted. `Pointers` says
so in every run in which each `update` brings a fresh pointer (`FreshPtr`).
-/

namespace EmbLinux.Rcu

variable {τ δ ρ π : Type*} [DecidableEq τ] [DecidableEq δ] [DecidableEq ρ]
  {cfg : Config δ ρ π} {s s' : State τ δ ρ π} {a : Action τ δ ρ π} {t : τ}

/-- The pointer that an `update` took out and has not deleted yet. -/
def pendingPtr : Pc δ π → Option π
  | .syncAdd _ old | .scanInUse _ old _ | .scanEpoch _ old _ => old
  | .delete p => some p
  | _ => none

omit [DecidableEq δ] in
@[simp] theorem pendingPtr_afterSync (old : Option π) :
    pendingPtr (afterSync old : Pc δ π) = old := by
  cases old <;> rfl

/-- A pointer that some `RcuPtr` started with or some `update` brought. -/
def Known (cfg : Config δ ρ π) (s : State τ δ ρ π) (p : π) : Prop :=
  (∃ r, cfg.initialPtr r = some p) ∨ p ∈ s.installed

/-- The step condition: `update` is called with a null or a fresh pointer. -/
def FreshPtr (cfg : Config δ ρ π) (s : State τ δ ρ π) : Action τ δ ρ π → Prop
  | .update _ _ (some p) => ¬ Known cfg s p
  | _ => True

/-- A pointer that was not installed is fresh. -/
theorem onePtr_fresh {τ δ : Type*} {domain : δ} {s : State τ δ Unit Nat} {p : Nat} (hPos : 0 < p)
    (hNew : p ∉ s.installed) : ¬ Known (onePtr domain) s p := by
  intro hKnown
  rcases hKnown with ⟨r, hInit⟩ | hInst
  · have : 0 = p := Option.some.inj hInit
    omega
  · exact hNew hInst

/-- A pointer is linked, with one `update` that has exchanged it, or deleted, and only one of
these. -/
structure Pointers (cfg : Config δ ρ π) (s : State τ δ ρ π) : Prop where
  /-- A pointer is linked in one place, -/
  linked_inj : ∀ r r' p, s.ptr r = some p → s.ptr r' = some p → r = r'
  /-- and then it is not pending -/
  linked_pending : ∀ r t p, s.ptr r = some p → pendingPtr (s.threads t).pc ≠ some p
  /-- and not deleted. -/
  linked_deleted : ∀ r p, s.ptr r = some p → p ∉ s.deleted
  /-- It is pending in one `update`, -/
  pending_inj : ∀ t t' p, pendingPtr (s.threads t).pc = some p →
    pendingPtr (s.threads t').pc = some p → t = t'
  /-- and then not deleted. -/
  pending_deleted : ∀ t p, pendingPtr (s.threads t).pc = some p → p ∉ s.deleted
  /-- It is deleted once. -/
  deleted_nodup : s.deleted.Nodup
  /-- All of these were installed at some time. -/
  linked_known : ∀ r p, s.ptr r = some p → Known cfg s p
  pending_known : ∀ t p, pendingPtr (s.threads t).pc = some p → Known cfg s p
  deleted_known : ∀ p ∈ s.deleted, Known cfg s p

omit [DecidableEq τ] [DecidableEq δ] [DecidableEq ρ] in
/-- The initial pointers are linked. -/
theorem pointers_init : Pointers cfg (init τ cfg) where
  linked_inj := cfg.initialPtr_inj
  linked_pending := by simp [init, pendingPtr]
  linked_deleted := by simp [init]
  pending_inj := by simp [init, pendingPtr]
  pending_deleted := by simp [init, pendingPtr]
  deleted_nodup := List.nodup_nil
  linked_known := fun r _ hr => Or.inl ⟨r, hr⟩
  pending_known := by simp [init, pendingPtr]
  deleted_known := by simp [init]

omit [DecidableEq δ] [DecidableEq ρ] in
/-- A step of one thread that neither takes over nor gives up a pointer. -/
theorem Pointers.move (h : Pointers cfg s) {th : Thread δ π}
    (hThreads : s'.threads = Function.update s.threads t th) (hPtr : s'.ptr = s.ptr)
    (hDel : s'.deleted = s.deleted) (hInst : s'.installed = s.installed)
    (hPend : pendingPtr th.pc = pendingPtr (s.threads t).pc) : Pointers cfg s' := by
  have hPending : ∀ u, pendingPtr (s'.threads u).pc = pendingPtr (s.threads u).pc :=
    observe_update (fun th => pendingPtr th.pc) hThreads hPend
  have hKnown : ∀ p, Known cfg s' p ↔ Known cfg s p := by
    intro p
    simp only [Known, hInst]
  constructor <;> simp only [hPtr, hDel, hPending, hKnown]
  · exact h.linked_inj
  · exact h.linked_pending
  · exact h.linked_deleted
  · exact h.pending_inj
  · exact h.pending_deleted
  · exact h.deleted_nodup
  · exact h.linked_known
  · exact h.pending_known
  · exact h.deleted_known

omit [DecidableEq δ] in
/-- The `exchange` of `update`: the old pointer goes from the `RcuPtr` to the
thread, and a fresh one takes its place. -/
theorem Pointers.exchange (h : Pointers cfg s) {r : ρ} {newPtr : Option π} {th : Thread δ π}
    (hThreads : s'.threads = Function.update s.threads t th)
    (hPtr : s'.ptr = Function.update s.ptr r newPtr) (hDel : s'.deleted = s.deleted)
    (hInst : s'.installed = newPtr.toList ++ s.installed)
    (hPend : pendingPtr th.pc = s.ptr r)
    (hFresh : ∀ p, newPtr = some p → ¬ Known cfg s p) : Pointers cfg s' := by
  -- where a pointer can be after the exchange
  have hLinked : ∀ r' p, s'.ptr r' = some p →
      (r' = r ∧ newPtr = some p) ∨ (r' ≠ r ∧ s.ptr r' = some p) := by
    intro r' p hr
    rcases update_cases hPtr r' with ⟨hrr, hAt⟩ | ⟨hrr, hAt⟩ <;> rw [hAt] at hr
    · exact Or.inl ⟨hrr, hr⟩
    · exact Or.inr ⟨hrr, hr⟩
  have hPending : ∀ u p, pendingPtr (s'.threads u).pc = some p →
      (u = t ∧ s.ptr r = some p) ∨ (u ≠ t ∧ pendingPtr (s.threads u).pc = some p) := by
    intro u p hu
    rcases update_cases hThreads u with ⟨hut, hAt⟩ | ⟨hut, hAt⟩ <;> rw [hAt] at hu
    · exact Or.inl ⟨hut, hPend.symm.trans hu⟩
    · exact Or.inr ⟨hut, hu⟩
  have hOld : ∀ p, Known cfg s p → Known cfg s' p := by
    rintro p (hp | hp)
    · exact Or.inl hp
    · exact Or.inr (by rw [hInst]; exact List.mem_append_right _ hp)
  have hPendKnown : ∀ u p, pendingPtr (s'.threads u).pc = some p → Known cfg s p := by
    intro u p hu
    rcases hPending u p hu with ⟨-, hp⟩ | ⟨-, hp⟩
    · exact h.linked_known r p hp
    · exact h.pending_known u p hp
  refine ⟨?_, ?_, ?_, ?_, ?_, ?_, ?_, ?_, ?_⟩
  · -- no two `RcuPtr`s link one pointer
    intro r₁ r₂ p h₁ h₂
    rcases hLinked r₁ p h₁ with ⟨hr₁, hp⟩ | ⟨-, hp₁⟩ <;>
      rcases hLinked r₂ p h₂ with ⟨hr₂, hp'⟩ | ⟨-, hp₂⟩
    · rw [hr₁, hr₂]
    · exact absurd (h.linked_known r₂ p hp₂) (hFresh p hp)
    · exact absurd (h.linked_known r₁ p hp₁) (hFresh p hp')
    · exact h.linked_inj r₁ r₂ p hp₁ hp₂
  · -- a linked pointer is not pending
    intro r' u p hr hu
    rcases hLinked r' p hr with ⟨-, hp⟩ | ⟨hne, hp⟩
    · exact hFresh p hp (hPendKnown u p hu)
    · rcases hPending u p hu with ⟨-, hp'⟩ | ⟨-, hp'⟩
      · exact hne (h.linked_inj r' r p hp hp')
      · exact h.linked_pending r' u p hp hp'
  · -- nor deleted
    intro r' p hr hd
    rw [hDel] at hd
    rcases hLinked r' p hr with ⟨-, hp⟩ | ⟨-, hp⟩
    · exact hFresh p hp (h.deleted_known p hd)
    · exact h.linked_deleted r' p hp hd
  · -- no two updates have one pending
    intro u u' p hu hu'
    rcases hPending u p hu with ⟨hut, hp⟩ | ⟨-, hp⟩ <;>
      rcases hPending u' p hu' with ⟨hut', hp'⟩ | ⟨-, hp'⟩
    · rw [hut, hut']
    · exact absurd hp' (h.linked_pending r u' p hp)
    · exact absurd hp (h.linked_pending r u p hp')
    · exact h.pending_inj u u' p hp hp'
  · -- a pending pointer is not deleted
    intro u p hu hd
    rw [hDel] at hd
    rcases hPending u p hu with ⟨-, hp⟩ | ⟨-, hp⟩
    · exact h.linked_deleted r p hp hd
    · exact h.pending_deleted u p hp hd
  · rw [hDel]
    exact h.deleted_nodup
  · -- every pointer is known
    intro r' p hr
    rcases hLinked r' p hr with ⟨-, hp⟩ | ⟨-, hp⟩
    · exact Or.inr (by rw [hInst, hp]; exact List.mem_cons_self ..)
    · exact hOld p (h.linked_known r' p hp)
  · intro u p hu
    exact hOld p (hPendKnown u p hu)
  · intro p hp
    rw [hDel] at hp
    exact hOld p (h.deleted_known p hp)

omit [DecidableEq δ] [DecidableEq ρ] in
/-- The `delete` of `update`: the pending pointer is deleted, for the first time. -/
theorem Pointers.delete (h : Pointers cfg s) {p : π} (hpc : (s.threads t).pc = .delete p)
    (hThreads : s'.threads = Function.update s.threads t { s.threads t with pc := .idle })
    (hPtr : s'.ptr = s.ptr) (hDel : s'.deleted = p :: s.deleted)
    (hInst : s'.installed = s.installed) : Pointers cfg s' := by
  have hHere : pendingPtr (s.threads t).pc = some p := by rw [hpc]; rfl
  -- the thread has nothing pending any more
  have hPending : ∀ u q, pendingPtr (s'.threads u).pc = some q →
      u ≠ t ∧ pendingPtr (s.threads u).pc = some q := by
    intro u q hu
    rcases update_cases hThreads u with ⟨-, hAt⟩ | ⟨hut, hAt⟩ <;> rw [hAt] at hu
    · simp [pendingPtr] at hu
    · exact ⟨hut, hu⟩
  have hKnown : ∀ q, Known cfg s' q ↔ Known cfg s q := by
    intro q
    simp only [Known, hInst]
  refine ⟨?_, ?_, ?_, ?_, ?_, ?_, ?_, ?_, ?_⟩
  · rw [hPtr]
    exact h.linked_inj
  · intro r u q hr hu
    rw [hPtr] at hr
    exact h.linked_pending r u q hr (hPending u q hu).2
  · -- the pointer deleted was pending, so no `RcuPtr` links it
    intro r q hr hq
    rw [hPtr] at hr
    rw [hDel] at hq
    rcases List.mem_cons.mp hq with rfl | hq
    · exact h.linked_pending r t q hr hHere
    · exact h.linked_deleted r q hr hq
  · intro u u' q hu hu'
    exact h.pending_inj u u' q (hPending u q hu).2 (hPending u' q hu').2
  · -- and no other update has it
    intro u q hu hq
    obtain ⟨hut, hu'⟩ := hPending u q hu
    rw [hDel] at hq
    rcases List.mem_cons.mp hq with rfl | hq
    · exact hut (h.pending_inj u t q hu' hHere)
    · exact h.pending_deleted u q hu' hq
  · -- it was not deleted before
    rw [hDel]
    exact List.nodup_cons.mpr ⟨h.pending_deleted t p hHere, h.deleted_nodup⟩
  · intro r q hr
    rw [hPtr] at hr
    exact (hKnown q).mpr (h.linked_known r q hr)
  · intro u q hu
    exact (hKnown q).mpr (h.pending_known u q (hPending u q hu).2)
  · intro q hq
    rw [hKnown]
    rw [hDel] at hq
    rcases List.mem_cons.mp hq with rfl | hq
    · exact h.pending_known t q hHere
    · exact h.deleted_known q hq

/-- An exchange takes the old pointer out and links a fresh one; a `delete` is of the pointer
that its thread has taken out. -/
theorem pointers_step (h : Pointers cfg s) (hok : FreshPtr cfg s a)
    (hst : step cfg s a = some s') : Pointers cfg s' := by
  cases step_effect hst with
  | scanSpin => exact h
  | @swapNull t r newPtr hpc hold =>
    refine h.exchange rfl rfl rfl rfl (by simp [hold, pendingPtr]) ?_
    rintro p rfl
    exact hok
  | @swap t r newPtr old hpc hold =>
    refine h.exchange rfl rfl rfl rfl (by simp [hold, pendingPtr]) ?_
    rintro p rfl
    exact hok
  | delete hpc => exact h.delete hpc rfl rfl rfl rfl
  | scanDone hpc => exact h.move rfl rfl rfl rfl (by rw [hpc, pendingPtr_afterSync]; rfl)
  | closeGuard => exact h.move rfl rfl rfl rfl rfl
  | read => exact h.move rfl rfl rfl rfl rfl
  | _ => exact h.move rfl rfl rfl rfl (by simp [pendingPtr, *])

end EmbLinux.Rcu
