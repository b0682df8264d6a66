import EmbLinux.Rcu.Protection

/-!
# EmbLinux — read sections that do not nest

A thread that opens a `scoped_rcu_reader` only while it has none open never
stores to the record of a guard that holds a pointer: the condition `OuterSafe`
of `Protection` is met by every step. `stepOk_of_sectionOk` trades the one
condition for the other.
-/

namespace EmbLinux.Rcu

variable {τ δ ρ π : Type*} [DecidableEq τ] [DecidableEq δ] [DecidableEq ρ]
  {cfg : Config δ ρ π} {s s' : State τ δ ρ π} {a : Action τ δ ρ π} {t : τ}

/-- The step condition: a guard is opened only while the thread has none open. -/
def NonNested (s : State τ δ ρ π) : Action τ δ ρ π → Prop
  | .openGuard t _ => (s.threads t).guards = []
  | _ => True

/-- The step conditions of sections that do not nest. -/
structure SectionOk (cfg : Config δ ρ π) (s : State τ δ ρ π) (a : Action τ δ ρ π) : Prop where
  fresh : FreshPtr cfg s a
  nonNested : NonNested s a
  noWrap : NoWrap s a
  ownSlot : OwnSlot s a

/-- The program points inside the constructor of a guard. -/
def Opening : Pc δ π → Prop
  | .register _ | .registerStore _ | .lockLoad _ | .lockPublish _ _ => True
  | _ => False

/-- At most one guard is open, none while one is being opened, and the record of
the open one is active. -/
structure Sections (s : State τ δ ρ π) : Prop where
  opening : ∀ t, Opening (s.threads t).pc → (s.threads t).guards = []
  single : ∀ t, (s.threads t).guards.length ≤ 1
  active : ∀ t, ∀ g ∈ (s.threads t).guards, s.epoch g.slot ≠ 0

omit [DecidableEq τ] [DecidableEq δ] [DecidableEq ρ] in
/-- No section is open. -/
theorem sections_init : Sections (init τ cfg) where
  opening := by simp [init]
  single := by simp [init]
  active := by simp [init]

omit [DecidableEq τ] [DecidableEq δ] [DecidableEq ρ] in
/-- Without nesting there is no outer guard to release. -/
theorem Sections.outerSafe (h : Sections s) (a : Action τ δ ρ π) : OuterSafe cfg s a := by
  cases a with
  | run t =>
    intro slot e hpc g hg
    rw [h.opening t (by rw [hpc]; trivial)] at hg
    cases hg
  | closeGuard t =>
    intro g hg
    have hLen := h.single t
    have hTail := List.length_pos_of_mem hg
    rw [List.length_tail] at hTail
    omega
  | read t r => exact fun _ g hg _ => h.active t g hg
  | _ => trivial

omit [DecidableEq δ] [DecidableEq ρ] in
/-- One thread moves, and the records of the others' guards stay. -/
theorem Sections.move (h : Sections s) {th : Thread δ π}
    (hThreads : s'.threads = Function.update s.threads t th)
    (hOpening : Opening th.pc → th.guards = []) (hSingle : th.guards.length ≤ 1)
    (hActive : ∀ g ∈ th.guards, s'.epoch g.slot ≠ 0)
    (hOthers : ∀ u, u ≠ t → ∀ g ∈ (s.threads u).guards, s'.epoch g.slot = s.epoch g.slot) :
    Sections s' := by
  have hCases := update_cases hThreads
  refine ⟨?_, ?_, ?_⟩ <;> intro u <;> rcases hCases u with ⟨-, hu⟩ | ⟨hut, hu⟩ <;> rw [hu]
  · exact hOpening
  · exact h.opening u
  · exact hSingle
  · exact h.single u
  · exact hActive
  · intro g hg
    rw [hOthers u hut g hg]
    exact h.active u g hg

omit [DecidableEq τ] [DecidableEq ρ] in
/-- A store to a record that the thread owns is no store to another's guard. -/
theorem Inv.others_epoch (h : Inv cfg s) {slot : Slot δ} {e : Nat}
    (hOwn : Owns (s.threads t) slot) : ∀ u, u ≠ t → ∀ g ∈ (s.threads u).guards,
      Function.update s.epoch slot e g.slot = s.epoch g.slot := by
  intro u hut g hg
  have hne : g.slot ≠ slot := fun hSlot => hut (h.same_thread hg hOwn hSlot)
  rw [Function.update_of_ne hne]

/-- A guard is opened only by a thread that has none. -/
theorem sections_step (hInv : Inv cfg s) (h : Sections s) (hok : NonNested s a)
    (hst : step cfg s a = some s') : Sections s' := by
  -- a thread that only moves its program counter, to a point outside constructors
  have hOut : ∀ {t : τ} {pc : Pc δ π}, ¬ Opening pc →
      (Opening pc → (s.threads t).guards = []) := fun hNot hOpen => absurd hOpen hNot
  cases step_effect hst with
  | scanSpin => exact h
  -- the step condition: no guard is open here
  | openFirst hpc hctx =>
    exact h.move rfl (fun _ => hok) (h.single _) (h.active _) fun _ _ _ _ => rfl
  | openAgain hpc hctx =>
    exact h.move rfl (fun _ => hok) (h.single _) (h.active _) fun _ _ _ _ => rfl
  | @registerTaken t slot hpc =>
    have hNil := h.opening t (by rw [hpc]; trivial)
    exact h.move rfl (fun _ => hNil) (h.single _) (h.active _) fun _ _ _ _ => rfl
  | @registerFree t slot hpc =>
    have hNil := h.opening t (by rw [hpc]; trivial)
    exact h.move rfl (fun _ => hNil) (h.single _) (h.active _) fun _ _ _ _ => rfl
  | @lockLoad t slot hpc =>
    have hNil := h.opening t (by rw [hpc]; trivial)
    exact h.move rfl (fun _ => hNil) (h.single _) (h.active _) fun _ _ _ _ => rfl
  | @registerStore t slot hpc =>
    have hNil := h.opening t (by rw [hpc]; trivial)
    refine h.move rfl (fun _ => hNil) (h.single _) ?_ (hInv.others_epoch (Or.inr hpc))
    intro g hg
    rw [show (s.threads t).guards = [] from hNil] at hg
    cases hg
  | @lockPublish t slot e hpc =>
    have hNil := h.opening t (by rw [hpc]; trivial)
    have hOwn : Owns (s.threads t) slot :=
      Or.inl ((hInv.owned t).locking slot (Or.inr ⟨e, hpc⟩))
    refine h.move rfl (fun hOpen => hOpen.elim) (by simp [hNil]) ?_ (hInv.others_epoch hOwn)
    intro g hg
    obtain rfl : g = ⟨slot, []⟩ := by simpa [hNil] using hg
    -- the global epoch starts at 1 and only grows
    have := (hInv.epochs.loaded t slot e hpc).1
    show Function.update s.epoch slot e slot ≠ 0
    rw [Function.update_self]
    omega
  | @closeGuard t g rest hpc hguards =>
    have hOwn : Owns (s.threads t) g.slot := hInv.owns (by rw [hguards]; exact List.mem_cons_self)
    -- the one open guard closes
    obtain rfl : rest = [] := by
      have := h.single t
      rw [hguards, List.length_cons] at this
      exact List.length_eq_zero_iff.mp (by omega)
    refine h.move rfl (fun _ => rfl) (Nat.zero_le _) ?_ (hInv.others_epoch hOwn)
    intro g' hg'
    cases hg'
  | @unregisterStore t slot hpc =>
    obtain ⟨hCtx, hNil⟩ : (s.threads t).context = some slot ∧ (s.threads t).guards = [] := by
      simpa [PhaseAt, hpc] using (hInv.registry.phase t).2
    refine h.move rfl (fun hOpen => hOpen.elim) (h.single _) ?_ (hInv.others_epoch (Or.inl hCtx))
    intro g hg
    rw [show (s.threads t).guards = [] from hNil] at hg
    cases hg
  | @read t r hpc =>
    refine h.move rfl ?_ ?_ ?_ fun _ _ _ _ => rfl
    · intro hOpen
      rw [hpc] at hOpen
      exact hOpen.elim
    · have hLen : ∀ (p : Option π) (gs : List (Guard δ π)),
          (noteRead (cfg.domainOf r) p gs).length = gs.length := by
        intro p gs
        cases p <;> simp [noteRead]
      rw [hLen]
      exact h.single t
    · intro g hg
      obtain ⟨g', hg', hSlot, -⟩ := slot_mem_of_mem_noteRead hg
      rw [← hSlot]
      exact h.active t g' hg'
  | @scanDone t slot old =>
    refine h.move rfl (hOut ?_) (h.single _) (h.active _) fun _ _ _ _ => rfl
    cases old <;> exact fun hOpen => hOpen.elim
  | _ =>
    exact h.move rfl (hOut fun hOpen => hOpen.elim) (h.single _) (h.active _) fun _ _ _ _ => rfl

/-- Runs whose sections do not nest meet the conditions of `Protection`. -/
theorem stepOk_of_sectionOk (h : (system τ cfg).ReachableWhere (SectionOk cfg) s) :
    (system τ cfg).ReachableWhere (StepOk cfg) s := by
  refine (h.strengthen (I := Sections) sections_init ?_).1
  intro s a s' hReach hSec hok hst
  exact ⟨⟨hok.fresh, hok.noWrap, hok.ownSlot, hSec.outerSafe a⟩,
    sections_step (inv_of_stepOk hReach) hSec hok.nonNested hst⟩

end EmbLinux.Rcu
