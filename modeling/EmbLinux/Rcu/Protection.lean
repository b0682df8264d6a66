import EmbLinux.Rcu.Pointers

/-!
# EmbLinux — what a grace period protects

The heart of the RCU argument, stated once for any number of domains and any
nesting of guards. A pointer read under a guard is `Kept`: it is still linked in
an `RcuPtr` of the guard's domain, or the `update` that took it out has its
`synchronize` still before the guard's record, with an epoch above the one
published there. Such an `update` cannot pass the record while the guard is
open, so it cannot come to its `delete`.

`StepOk` collects the step conditions under which this is inductive:

* `FreshPtr` — every `update` brings a fresh pointer;
* `NoWrap` — the global epoch does not wrap around;
* `OwnSlot` — guards are opened on the domain of the thread's context;
* `OuterSafe` — what the constructor or the destructor of an inner guard stores
  to the record releases no pointer held under an outer one.

`protected_of_stepOk` is the result; the single-domain, nested and
multi-domain statements instantiate it.
-/

namespace EmbLinux.Rcu

variable {τ δ ρ π : Type*} [DecidableEq τ] [DecidableEq δ] [DecidableEq ρ]
  {cfg : Config δ ρ π} {s s' : State τ δ ρ π} {a : Action τ δ ρ π} {t : τ}

/-- Thread `t` holds `p`, read under its open guard `g`. -/
def Holds (s : State τ δ ρ π) (t : τ) (g : Guard δ π) (p : π) : Prop :=
  g ∈ (s.threads t).guards ∧ p ∈ g.held

/-- **Protection**: what an open guard holds is neither deleted nor about to be. -/
structure Protected (s : State τ δ ρ π) : Prop where
  notDeleted : ∀ t g p, Holds s t g p → p ∉ s.deleted
  noDelete : ∀ t g p w, Holds s t g p → (s.threads w).pc ≠ .delete p

/-- The step condition on nested guards. A constructor does not publish an epoch
that releases an `update` of a pointer held by the thread; a destructor leaves
no outer guard with a pointer; and no pointer is read under a guard whose record
says "inactive". -/
def OuterSafe (cfg : Config δ ρ π) (s : State τ δ ρ π) : Action τ δ ρ π → Prop
  | .run t => ∀ slot e, (s.threads t).pc = .lockPublish slot e →
      ∀ g ∈ (s.threads t).guards, ∀ p ∈ g.held, ∀ w k newEpoch,
        (s.threads w).pc = .scanInUse k (some p) newEpoch ∨
          (s.threads w).pc = .scanEpoch k (some p) newEpoch → e < newEpoch
  | .closeGuard t => ∀ g ∈ (s.threads t).guards.tail, g.held = []
  | .read t r => s.ptr r ≠ none →
      ∀ g ∈ (s.threads t).guards, g.slot.1 = cfg.domainOf r → s.epoch g.slot ≠ 0
  | _ => True

/-- What is asked of each step: fresh pointers, epochs that do not wrap, guards on the thread's
own slot, and no release of what an outer guard protects. -/
structure StepOk (cfg : Config δ ρ π) (s : State τ δ ρ π) (a : Action τ δ ρ π) : Prop where
  fresh : FreshPtr cfg s a
  noWrap : NoWrap s a
  ownSlot : OwnSlot s a
  outerSafe : OuterSafe cfg s a

-- ---------------------------------------------------------------------------
-- Kept pointers
-- ---------------------------------------------------------------------------

/-- An `update` at `pc` will still test the record `slot`, which publishes `e`,
and stop there, before it deletes `p`. -/
def Blocks (slot : Slot δ) (e : Nat) (p : π) : Pc δ π → Prop
  | .syncAdd domain old => domain = slot.1 ∧ old = some p
  | .scanInUse k old newEpoch | .scanEpoch k old newEpoch =>
    k.1 = slot.1 ∧ k.2 ≤ slot.2 ∧ e < newEpoch ∧ old = some p
  | _ => False

omit [DecidableEq δ] in
/-- What a slot holds back is a pointer that an `update` is waiting to delete. -/
theorem Blocks.pending {slot : Slot δ} {e : Nat} {p : π} {pc : Pc δ π} (h : Blocks slot e p pc) :
    pendingPtr pc = some p := by
  cases pc <;> simp only [Blocks] at h
  · exact h.2
  · exact h.2.2.2
  · exact h.2.2.2

omit [DecidableEq δ] in
/-- An `update` that blocks also blocks at another epoch below its own. -/
theorem Blocks.of_below {slot : Slot δ} {e e' : Nat} {p : π} {pc : Pc δ π} (h : Blocks slot e p pc)
    (hBelow : ∀ k newEpoch, pc = .scanInUse k (some p) newEpoch ∨
      pc = .scanEpoch k (some p) newEpoch → e' < newEpoch) : Blocks slot e' p pc := by
  cases pc <;> simp only [Blocks] at h
  · exact h
  · obtain ⟨hDom, hLe, -, rfl⟩ := h
    exact ⟨hDom, hLe, hBelow _ _ (Or.inl rfl), rfl⟩
  · obtain ⟨hDom, hLe, -, rfl⟩ := h
    exact ⟨hDom, hLe, hBelow _ _ (Or.inr rfl), rfl⟩

/-- The pointer is still linked, or an `update` that has it waits for the slot. -/
def Kept (cfg : Config δ ρ π) (s : State τ δ ρ π) (slot : Slot δ) (p : π) : Prop :=
  (∃ r, cfg.domainOf r = slot.1 ∧ s.ptr r = some p) ∨
    ∃ w, Blocks slot (s.epoch slot) p (s.threads w).pc

/-- Pointers held under a guard are kept, and the guard's record is active. -/
structure Cover (cfg : Config δ ρ π) (s : State τ δ ρ π) : Prop where
  active : ∀ t g p, Holds s t g p → s.epoch g.slot ≠ 0
  kept : ∀ t g p, Holds s t g p → Kept cfg s g.slot p

/-- The invariants together. -/
structure Inv (cfg : Config δ ρ π) (s : State τ δ ρ π) : Prop where
  /-- The records and the contexts of the threads agree. -/
  registry : Registry s
  /-- A guard locks the record of its thread. -/
  owned : ∀ t, Owned (s.threads t)
  /-- What a record says is not newer than the global epoch. -/
  epochs : Epochs s
  /-- Every pointer has one owner. -/
  pointers : Pointers cfg s
  /-- Who has read a pointer holds back the scan of its `update`. -/
  cover : Cover cfg s

section

omit [DecidableEq τ] [DecidableEq δ] [DecidableEq ρ]

/-- No guard is open. -/
theorem inv_init : Inv cfg (init τ cfg) where
  registry := registry_init
  owned := by
    intro t
    refine ⟨by simp [init], ?_⟩
    rintro slot (hk | ⟨e, hk⟩) <;> cases hk
  epochs := epochs_init
  pointers := pointers_init
  cover := ⟨by simp [Holds, init], by simp [Holds, init]⟩

/-- The thread of an open guard owns the guard's record. -/
theorem Inv.owns (h : Inv cfg s) {g : Guard δ π} (hg : g ∈ (s.threads t).guards) :
    Owns (s.threads t) g.slot :=
  Or.inl ((h.owned t).guards g hg)

/-- Two open guards on one record belong to one thread. -/
theorem Inv.same_thread (h : Inv cfg s) {u : τ} {g : Guard δ π} {slot : Slot δ}
    (hg : g ∈ (s.threads u).guards) (hOwn : Owns (s.threads t) slot) (hSlot : g.slot = slot) :
    u = t :=
  h.registry.unique u t slot (hSlot ▸ h.owns hg) hOwn

end

omit [DecidableEq δ] [DecidableEq ρ] in
/-- What a thread holds after its step it held before, if its new guards hold
nothing new. -/
theorem holds_back {th : Thread δ π} (hThreads : s'.threads = Function.update s.threads t th)
    (hHeld : ∀ g ∈ th.guards, ∀ p ∈ g.held, g ∈ (s.threads t).guards) {u : τ} {g : Guard δ π}
    {p : π} (h : Holds s' u g p) : Holds s u g p := by
  obtain ⟨hg, hp⟩ := h
  refine ⟨?_, hp⟩
  rcases update_cases hThreads u with ⟨rfl, hAt⟩ | ⟨-, hAt⟩ <;> rw [hAt] at hg
  · exact hHeld g hg p hp
  · exact hg

omit [DecidableEq δ] [DecidableEq ρ] in
/-- A step of one thread keeps `Cover` when the thread holds nothing new, the
records of held pointers stay as they are, and the thread still blocks the
deletions that it blocked. -/
theorem Cover.move (h : Cover cfg s) {th : Thread δ π}
    (hThreads : s'.threads = Function.update s.threads t th) (hPtr : s'.ptr = s.ptr)
    (hHeld : ∀ g ∈ th.guards, ∀ p ∈ g.held, g ∈ (s.threads t).guards)
    (hEpoch : ∀ u g p, Holds s' u g p → Holds s u g p → s'.epoch g.slot = s.epoch g.slot)
    (hBlocks : ∀ u g p, Holds s u g p → Blocks g.slot (s.epoch g.slot) p (s.threads t).pc →
      Blocks g.slot (s.epoch g.slot) p th.pc) : Cover cfg s' := by
  have hBack : ∀ u g p, Holds s' u g p → Holds s u g p :=
    fun _ _ _ => holds_back hThreads hHeld
  refine ⟨?_, ?_⟩
  · intro u g p hh
    rw [hEpoch u g p hh (hBack u g p hh)]
    exact h.active u g p (hBack u g p hh)
  · intro u g p hh
    have hOld := hBack u g p hh
    unfold Kept
    rw [hPtr, hEpoch u g p hh hOld]
    -- linked as before, or the same update blocks
    rcases h.kept u g p hOld with hLinked | ⟨w, hw⟩
    · exact Or.inl hLinked
    · refine Or.inr ⟨w, ?_⟩
      rcases update_cases hThreads w with ⟨rfl, hAt⟩ | ⟨-, hAt⟩ <;> rw [hAt]
      · exact hBlocks u g p hOld hw
      · exact hw

omit [DecidableEq δ] in
/-- The `exchange` of `update` moves a kept pointer from its `RcuPtr` to the
thread, which has the whole scan before it. -/
theorem Cover.exchange (h : Cover cfg s) {r : ρ} {newPtr : Option π} {pc : Pc δ π}
    (hIdle : (s.threads t).pc = .idle)
    (hThreads : s'.threads = Function.update s.threads t { s.threads t with pc := pc })
    (hPtr : s'.ptr = Function.update s.ptr r newPtr) (hEpoch : s'.epoch = s.epoch)
    (hPc : ∀ p, s.ptr r = some p → pc = .syncAdd (cfg.domainOf r) (some p)) : Cover cfg s' := by
  have hBack : ∀ u g p, Holds s' u g p → Holds s u g p :=
    fun _ _ _ => holds_back hThreads fun _ hg _ _ => hg
  refine ⟨?_, ?_⟩
  · intro u g p hh
    rw [hEpoch]
    exact h.active u g p (hBack u g p hh)
  · intro u g p hh
    unfold Kept
    rw [hEpoch]
    rcases h.kept u g p (hBack u g p hh) with ⟨r', hDom, hr'⟩ | ⟨w, hw⟩
    · rcases update_cases hPtr r' with ⟨rfl, -⟩ | ⟨-, hSame⟩
      · -- this update takes the pointer out
        refine Or.inr ⟨t, ?_⟩
        rw [hThreads, Function.update_self, hPc p hr']
        exact ⟨hDom, rfl⟩
      · exact Or.inl ⟨r', hDom, hSame.trans hr'⟩
    · -- another update blocks, as this one was idle
      refine Or.inr ⟨w, ?_⟩
      have hwt : w ≠ t := by
        rintro rfl
        rw [hIdle] at hw
        exact hw
      rwa [hThreads, Function.update_of_ne hwt]

omit [DecidableEq ρ] in
/-- A pointer just read is linked. -/
theorem Cover.read (h : Cover cfg s) {r : ρ}
    (hThreads : s'.threads = Function.update s.threads t
      { s.threads t with guards := noteRead (cfg.domainOf r) (s.ptr r) (s.threads t).guards })
    (hPtr : s'.ptr = s.ptr) (hEpoch : s'.epoch = s.epoch)
    (hActive : s.ptr r ≠ none →
      ∀ g ∈ (s.threads t).guards, g.slot.1 = cfg.domainOf r → s.epoch g.slot ≠ 0) :
    Cover cfg s' := by
  have hPcs : ∀ w, (s'.threads w).pc = (s.threads w).pc := observe_update Thread.pc hThreads rfl
  -- a held pointer is an old one, or the one read now
  have hBack : ∀ u g p, Holds s' u g p → (∃ g', g'.slot = g.slot ∧ Holds s u g' p) ∨
      (s.ptr r = some p ∧ cfg.domainOf r = g.slot.1 ∧ s.epoch g.slot ≠ 0) := by
    rintro u g p ⟨hg, hp⟩
    rcases update_cases hThreads u with ⟨rfl, hAt⟩ | ⟨-, hAt⟩ <;> rw [hAt] at hg
    · obtain ⟨g', hg', hSlot, hHeld⟩ := slot_mem_of_mem_noteRead hg
      rcases hHeld p hp with hOld | ⟨hRead, hDom⟩
      · exact Or.inl ⟨g', hSlot, hg', hOld⟩
      · have hNe := hActive (by rw [hRead]; exact Option.some_ne_none p) g' hg'
          (by rw [hSlot, hDom])
        rw [hSlot] at hNe
        exact Or.inr ⟨hRead, hDom.symm, hNe⟩
    · exact Or.inl ⟨g, rfl, hg, hp⟩
  refine ⟨?_, ?_⟩
  · intro u g p hh
    rw [hEpoch]
    rcases hBack u g p hh with ⟨g', hSlot, hOld⟩ | ⟨-, -, hNe⟩
    · rw [← hSlot]
      exact h.active u g' p hOld
    · exact hNe
  · intro u g p hh
    unfold Kept
    simp only [hEpoch, hPtr, hPcs]
    rcases hBack u g p hh with ⟨g', hSlot, hOld⟩ | ⟨hRead, hDom, -⟩
    · rw [← hSlot]
      exact h.kept u g' p hOld
    · exact Or.inl ⟨r, hDom, hRead⟩

omit [DecidableEq ρ] in
/-- A published epoch that is below those of the updates that wait for the
record keeps the pointers held under it. -/
theorem Cover.publish (h : Cover cfg s) {slot : Slot δ} {e : Nat}
    (hPc : (s.threads t).pc = .lockPublish slot e)
    (hThreads : s'.threads = Function.update s.threads t
      { s.threads t with guards := ⟨slot, []⟩ :: (s.threads t).guards, pc := .idle })
    (hPtr : s'.ptr = s.ptr) (hEpoch : s'.epoch = Function.update s.epoch slot e) (hPos : 1 ≤ e)
    (hBelow : ∀ u g p, Holds s u g p → g.slot = slot → ∀ w k newEpoch,
      (s.threads w).pc = .scanInUse k (some p) newEpoch ∨
        (s.threads w).pc = .scanEpoch k (some p) newEpoch → e < newEpoch) : Cover cfg s' := by
  have hBack : ∀ u g p, Holds s' u g p → Holds s u g p := by
    intro u g p
    refine holds_back hThreads ?_
    intro g' hg' q hq
    rcases List.mem_cons.mp hg' with rfl | hg'
    · exact absurd hq List.not_mem_nil
    · exact hg'
  refine ⟨?_, ?_⟩
  · intro u g p hh
    rcases update_cases hEpoch g.slot with ⟨-, hAt⟩ | ⟨-, hAt⟩ <;> rw [hAt]
    · omega
    · exact h.active u g p (hBack u g p hh)
  · intro u g p hh
    have hOld := hBack u g p hh
    unfold Kept
    rw [hPtr]
    rcases h.kept u g p hOld with hLinked | ⟨w, hw⟩
    · exact Or.inl hLinked
    refine Or.inr ⟨w, ?_⟩
    have hwt : w ≠ t := by
      rintro rfl
      rw [hPc] at hw
      exact hw
    rw [hThreads, Function.update_of_ne hwt]
    -- an update that blocks at this record still does
    rcases update_cases hEpoch g.slot with ⟨hSlot, hAt⟩ | ⟨-, hAt⟩ <;> rw [hAt]
    · exact hw.of_below (hBelow u g p hOld hSlot w)
    · exact hw

-- ---------------------------------------------------------------------------
-- The scan of `synchronize`
-- ---------------------------------------------------------------------------

section

omit [DecidableEq τ] [DecidableEq δ] [DecidableEq ρ]

/-- `fetch_add` gives an epoch above every published one. -/
theorem blocks_syncAdd (h : Inv cfg s) {domain : δ} {old : Option π} {slot : Slot δ} {p : π}
    (hNoWrap : s.globalEpoch domain + 1 < epochModulus)
    (hb : Blocks slot (s.epoch slot) p (.syncAdd domain old)) :
    Blocks slot (s.epoch slot) p
      (.scanInUse (domain, 0) old ((s.globalEpoch domain + 1) % epochModulus)) := by
  obtain ⟨rfl, hOld⟩ := hb
  have := h.epochs.published slot
  refine ⟨rfl, Nat.zero_le _, ?_, hOld⟩
  rw [Nat.mod_eq_of_lt hNoWrap]
  omega

/-- The scan passes a record that is free, but a guard's record is in use. -/
theorem blocks_scanSkip (h : Inv cfg s) {u : τ} {g : Guard δ π} {p : π} {k : Slot δ}
    {old : Option π} {e : Nat} (hh : Holds s u g p) (hfree : s.inUse k = false)
    (hb : Blocks g.slot (s.epoch g.slot) p (.scanInUse k old e)) :
    Blocks g.slot (s.epoch g.slot) p (.scanInUse (k.1, k.2 + 1) old e) := by
  obtain ⟨hDom, hLe, hLt, hOld⟩ := hb
  refine ⟨hDom, ?_, hLt, hOld⟩
  have hne : k.2 ≠ g.slot.2 := by
    intro hEq
    have hUse := h.registry.inUse u g.slot (h.owns hh.1)
    rw [← show k = g.slot from Prod.ext hDom hEq, hfree] at hUse
    cases hUse
  show k.2 + 1 ≤ g.slot.2
  omega

/-- The scan does not pass the record of a guard that holds a pointer. -/
theorem blocks_scanPass (h : Inv cfg s) {u : τ} {g : Guard δ π} {p : π} {k : Slot δ}
    {old : Option π} {e : Nat} (hh : Holds s u g p) (hepoch : s.epoch k = 0 ∨ e ≤ s.epoch k)
    (hb : Blocks g.slot (s.epoch g.slot) p (.scanEpoch k old e)) :
    Blocks g.slot (s.epoch g.slot) p (.scanInUse (k.1, k.2 + 1) old e) := by
  obtain ⟨hDom, hLe, hLt, hOld⟩ := hb
  refine ⟨hDom, ?_, hLt, hOld⟩
  have hne : k.2 ≠ g.slot.2 := by
    intro hEq
    -- its epoch is not 0, and below that of the update
    have hActive := h.cover.active u g p hh
    rw [show k = g.slot from Prod.ext hDom hEq] at hepoch
    omega
  show k.2 + 1 ≤ g.slot.2
  omega

/-- The scan ends behind every record. -/
theorem not_blocks_scanDone (h : Inv cfg s) {u : τ} {g : Guard δ π} {p : π} {k : Slot δ}
    {old : Option π} {e : Nat} (hh : Holds s u g p) (hge : kMaxRcuThreads ≤ k.2) :
    ¬ Blocks g.slot (s.epoch g.slot) p (.scanInUse k old e) := by
  rintro ⟨-, hLe, -, -⟩
  have := h.registry.bound u g.slot (h.owns hh.1)
  omega

end

omit [DecidableEq τ] [DecidableEq ρ] in
/-- Records stored by a thread that holds nothing under them. -/
theorem Inv.epoch_of_store (h : Inv cfg s) {slot : Slot δ} {e : Nat}
    (hOwn : Owns (s.threads t) slot)
    (hHere : ∀ g p, Holds s' t g p → Holds s t g p → g.slot = slot → e = s.epoch slot) :
    ∀ u g p, Holds s' u g p → Holds s u g p →
      Function.update s.epoch slot e g.slot = s.epoch g.slot := by
  intro u g p hNew hOld
  rcases update_at s.epoch slot e g.slot with ⟨hSlot, hAt⟩ | ⟨-, hAt⟩ <;> rw [hAt]
  obtain rfl := h.same_thread hOld.1 hOwn hSlot
  rw [hSlot]
  exact hHere g p hNew hOld hSlot

/-- A case for each effect. A reader that publishes its epoch is seen by every scan that begins
later, and one that reads a pointer after the exchange reads the new one. -/
theorem cover_step (h : Inv cfg s) (hok : StepOk cfg s a) (hst : step cfg s a = some s') :
    Cover cfg s' := by
  have hAt := fun t => (h.registry.phase t).2
  cases step_effect hst with
  | scanSpin => exact h.cover
  | @closeGuard t g rest hpc hguards =>
    -- the record says 0 now, and no guard on it holds a pointer
    refine h.cover.move rfl rfl ?_ ?_ fun _ _ _ _ hb => hb
    · intro g' hg' _ _
      rw [hguards]
      exact List.mem_cons_of_mem g hg'
    · refine h.epoch_of_store (h.owns (by rw [hguards]; exact List.mem_cons_self)) ?_
      rintro g' p ⟨hg', hp⟩ - -
      have hRest : g' ∈ rest := by simpa using hg'
      have hNil := hok.outerSafe g' (by simpa [hguards] using hRest)
      simp [hNil] at hp
  | @read t r hpc => exact h.cover.read rfl rfl rfl hok.outerSafe
  | @swapNull t r newPtr hpc hold =>
    refine h.cover.exchange hpc rfl rfl rfl ?_
    intro p hp
    rw [hold] at hp
    cases hp
  | @swap t r newPtr old hpc hold =>
    refine h.cover.exchange hpc rfl rfl rfl ?_
    intro p hp
    rw [hold] at hp
    rw [Option.some.inj hp]
  | @registerStore t slot hpc =>
    -- no guard is open while its thread registers
    have hNone : (s.threads t).context = none := by
      simpa [PhaseAt, hpc] using hAt t
    refine h.cover.move rfl rfl (fun g hg _ _ => hg) ?_ (by simp [hpc, Blocks])
    refine h.epoch_of_store (Or.inr hpc) ?_
    rintro g p - ⟨hg, -⟩ -
    simp [(h.registry.phase t).1 hNone] at hg
  | @unregisterStore t slot hpc =>
    -- nor while it unregisters
    obtain ⟨hCtx, hGuards⟩ : (s.threads t).context = some slot ∧ (s.threads t).guards = [] := by
      simpa [PhaseAt, hpc] using hAt t
    refine h.cover.move rfl rfl (fun g hg _ _ => hg) ?_ (by simp [hpc, Blocks])
    refine h.epoch_of_store (Or.inl hCtx) ?_
    rintro g p - ⟨hg, -⟩ -
    simp [hGuards] at hg
  | @lockPublish t slot e hpc =>
    refine h.cover.publish hpc rfl rfl rfl (h.epochs.loaded t slot e hpc).1 ?_
    rintro u g p ⟨hg, hp⟩ hSlot
    have hOwn : Owns (s.threads t) slot :=
      Or.inl ((h.owned t).locking slot (Or.inr ⟨e, hpc⟩))
    obtain rfl := h.same_thread hg hOwn hSlot
    exact hok.outerSafe slot e hpc g hg p hp
  | @syncAdd t domain old hpc =>
    refine h.cover.move rfl rfl (fun g hg _ _ => hg) (fun _ _ _ _ _ => rfl) ?_
    intro u g p _ hb
    rw [hpc] at hb
    exact blocks_syncAdd h (hok.noWrap domain old hpc) hb
  | scanCheck hpc =>
    refine h.cover.move rfl rfl (fun g hg _ _ => hg) (fun _ _ _ _ _ => rfl) ?_
    intro u g p _ hb
    rw [hpc] at hb
    exact hb
  | scanSkip hpc hlt hfree =>
    refine h.cover.move rfl rfl (fun g hg _ _ => hg) (fun _ _ _ _ _ => rfl) ?_
    intro u g p hh hb
    rw [hpc] at hb
    exact blocks_scanSkip h hh hfree hb
  | scanPass hpc hepoch =>
    refine h.cover.move rfl rfl (fun g hg _ _ => hg) (fun _ _ _ _ _ => rfl) ?_
    intro u g p hh hb
    rw [hpc] at hb
    exact blocks_scanPass h hh hepoch hb
  | scanDone hpc hge =>
    refine h.cover.move rfl rfl (fun g hg _ _ => hg) (fun _ _ _ _ _ => rfl) ?_
    intro u g p hh hb
    rw [hpc] at hb
    exact absurd hb (not_blocks_scanDone h hh hge)
  | _ =>
    -- neither a guard, a record nor a blocking update changes
    exact h.cover.move rfl rfl (fun g hg _ _ => hg) (fun _ _ _ _ _ => rfl) (by simp [Blocks, *])

-- ---------------------------------------------------------------------------
-- Every run
-- ---------------------------------------------------------------------------

/-- The five parts of the invariant, one after the other. -/
theorem inv_step (h : Inv cfg s) (hok : StepOk cfg s a) (hst : step cfg s a = some s') :
    Inv cfg s' where
  registry := registry_step h.registry hst
  owned := owned_step h.registry h.owned hok.ownSlot hst
  epochs := epochs_step h.epochs hok.noWrap hst
  pointers := pointers_step h.pointers hok.fresh hst
  cover := cover_step h hok hst

/-- In every run whose steps are as asked. -/
theorem inv_of_stepOk (h : (system τ cfg).ReachableWhere (StepOk cfg) s) : Inv cfg s :=
  h.invariant (I := Inv cfg) inv_init fun _ _ _ _ hI hok hst => inv_step hI hok hst

omit [DecidableEq τ] [DecidableEq ρ] [DecidableEq δ] in
/-- A kept pointer is linked or pending in an `update` that blocks, so it is not
the one that some `update` is about to delete. -/
theorem Inv.protected (h : Inv cfg s) : Protected s := by
  -- linked, pending and deleted pointers are different ones
  refine ⟨?_, ?_⟩
  · intro t g p hh
    rcases h.cover.kept t g p hh with ⟨r, -, hr⟩ | ⟨w, hw⟩
    · exact h.pointers.linked_deleted r p hr
    · exact h.pointers.pending_deleted w p hw.pending
  · intro t g p w hh hpc
    have hHere : pendingPtr (s.threads w).pc = some p := by rw [hpc]; rfl
    rcases h.cover.kept t g p hh with ⟨r, -, hr⟩ | ⟨w', hw'⟩
    · exact h.pointers.linked_pending r w p hr hHere
    · rw [h.pointers.pending_inj w' w p hw'.pending hHere, hpc] at hw'
      exact hw'

/-- **Grace periods protect** in every run whose steps meet `StepOk`. -/
theorem protected_of_stepOk (h : (system τ cfg).ReachableWhere (StepOk cfg) s) : Protected s :=
  (inv_of_stepOk h).protected

end EmbLinux.Rcu
