import EmbLinux.Lib.Update
import EmbLinux.Rcu.Steps

/-!
# EmbLinux — registered slots and published epochs

Three invariants of the bookkeeping that a grace period rests on, each proved
by cases on the step:

* `Registry` — a slot in use has exactly one owner, from the `compare_exchange`
  of `register_thread` to the last store of `unregister_thread`. It holds in
  every run.
* `Owned` — a thread locks and unlocks its own record only. This needs the
  step condition `OwnSlot`: guards are opened on the domain that the thread's
  context was created for.
* `Epochs` — a published epoch is not above the global one. This needs
  `NoWrap`: the global epoch does not wrap around.
-/

namespace EmbLinux.Rcu

variable {τ δ ρ π : Type*} [DecidableEq τ] [DecidableEq δ] [DecidableEq ρ]
  {cfg : Config δ ρ π} {s s' : State τ δ ρ π} {a : Action τ δ ρ π} {t : τ}

-- ---------------------------------------------------------------------------
-- Slots have one owner
-- ---------------------------------------------------------------------------

/-- A thread owns a slot once its `compare_exchange` took it. -/
def Owns (th : Thread δ π) (slot : Slot δ) : Prop :=
  th.context = some slot ∨ th.pc = .registerStore slot

/-- What a thread knows about its own registration at a program point. -/
def PhaseAt (context : Option (Slot δ)) (guards : List (Guard δ π)) : Pc δ π → Prop
  | .register _ | .registerStore _ => context = none
  | .lockLoad _ | .lockPublish _ _ => context ≠ none
  | .unregisterStore slot | .unregisterClear slot => context = some slot ∧ guards = []
  | _ => True

/-- Only registered threads have guards, and the program point is in phase. -/
def Phase (th : Thread δ π) : Prop :=
  (th.context = none → th.guards = []) ∧ PhaseAt th.context th.guards th.pc

/-- A slot belongs to one thread, and each thread is in a phase that fits its program point. -/
structure Registry (s : State τ δ ρ π) : Prop where
  bound : ∀ t slot, Owns (s.threads t) slot → slot.2 < kMaxRcuThreads
  /-- A record that a thread owns is marked, -/
  inUse : ∀ t slot, Owns (s.threads t) slot → s.inUse slot = true
  /-- and owned by one thread. -/
  unique : ∀ t t' slot, Owns (s.threads t) slot → Owns (s.threads t') slot → t = t'
  /-- Where a thread is with the registration. -/
  phase : ∀ t, Phase (s.threads t)

omit [DecidableEq δ] [DecidableEq ρ] in
/-- A thread that takes no new slot leaves the owners as they are. -/
theorem Registry.move (h : Registry s) {th : Thread δ π}
    (hThreads : s'.threads = Function.update s.threads t th) (hUse : s'.inUse = s.inUse)
    (hPhase : Phase th) (hOwns : ∀ slot, Owns th slot → Owns (s.threads t) slot) :
    Registry s' := by
  have hBack : ∀ u slot, Owns (s'.threads u) slot → Owns (s.threads u) slot := by
    intro u slot hu
    rcases update_cases hThreads u with ⟨rfl, hAt⟩ | ⟨-, hAt⟩ <;> rw [hAt] at hu
    · exact hOwns slot hu
    · exact hu
  refine ⟨?_, ?_, ?_, ?_⟩
  · intro u slot hu
    exact h.bound u slot (hBack u slot hu)
  · intro u slot hu
    rw [hUse]
    exact h.inUse u slot (hBack u slot hu)
  · intro u u' slot hu hu'
    exact h.unique u u' slot (hBack u slot hu) (hBack u' slot hu')
  · exact forall_of_update hThreads h.phase hPhase

omit [DecidableEq ρ] in
/-- `compare_exchange_strong` succeeded: the free slot has one owner now. -/
theorem Registry.take (h : Registry s) {slot : Slot δ} (hpc : (s.threads t).pc = .register slot)
    (hlt : slot.2 < kMaxRcuThreads) (hfree : s.inUse slot = false)
    (hThreads : s'.threads =
      Function.update s.threads t { s.threads t with pc := .registerStore slot })
    (hUse : s'.inUse = Function.update s.inUse slot true) : Registry s' := by
  have hPhase := h.phase t
  have hNone : (s.threads t).context = none := by
    simpa [PhaseAt, hpc] using hPhase.2
  -- who owned a slot before owns the same one after, and it is not the one taken
  have hCases : ∀ u k, Owns (s'.threads u) k →
      (u = t ∧ k = slot) ∨ (u ≠ t ∧ Owns (s.threads u) k ∧ k ≠ slot) := by
    intro u k hu
    rcases update_cases hThreads u with ⟨hut, hAt⟩ | ⟨hut, hAt⟩ <;> rw [hAt] at hu
    · simp only [Owns, hNone, reduceCtorEq, false_or, Pc.registerStore.injEq] at hu
      exact Or.inl ⟨hut, hu.symm⟩
    · refine Or.inr ⟨hut, hu, ?_⟩
      rintro rfl
      simp [h.inUse u k hu] at hfree
  refine ⟨?_, ?_, ?_, ?_⟩
  · -- the slot taken is below `kMaxRcuThreads`
    intro u k hu
    rcases hCases u k hu with ⟨-, rfl⟩ | ⟨-, hu', -⟩
    · exact hlt
    · exact h.bound u k hu'
  · -- its record is in use now
    intro u k hu
    rw [hUse]
    rcases hCases u k hu with ⟨-, rfl⟩ | ⟨-, hu', hne⟩
    · exact Function.update_self ..
    · rw [Function.update_of_ne hne]
      exact h.inUse u k hu'
  · -- it was free, so nobody else owns it
    intro u u' k hu hu'
    rcases hCases u k hu with ⟨hut, hk⟩ | ⟨-, hOwn, hne⟩ <;>
      rcases hCases u' k hu' with ⟨hut', hk'⟩ | ⟨-, hOwn', hne'⟩
    · rw [hut, hut']
    · exact absurd hk hne'
    · exact absurd hk' hne
    · exact h.unique u u' k hOwn hOwn'
  · exact forall_of_update hThreads h.phase ⟨hPhase.1, hNone⟩

omit [DecidableEq ρ] in
/-- The last store of `unregister_thread` gives the slot up. -/
theorem Registry.release (h : Registry s) {slot : Slot δ}
    (hpc : (s.threads t).pc = .unregisterClear slot)
    (hThreads : s'.threads =
      Function.update s.threads t { s.threads t with context := none, pc := .idle })
    (hUse : s'.inUse = Function.update s.inUse slot false) : Registry s' := by
  obtain ⟨hCtx, hGuards⟩ : (s.threads t).context = some slot ∧ (s.threads t).guards = [] := by
    simpa [PhaseAt, hpc] using (h.phase t).2
  -- the thread owns nothing any more
  have hBack : ∀ u k, Owns (s'.threads u) k → u ≠ t ∧ Owns (s.threads u) k := by
    intro u k hu
    rcases update_cases hThreads u with ⟨-, hAt⟩ | ⟨hut, hAt⟩ <;> rw [hAt] at hu
    · simp [Owns] at hu
    · exact ⟨hut, hu⟩
  refine ⟨?_, ?_, ?_, ?_⟩
  · intro u k hu
    exact h.bound u k (hBack u k hu).2
  · -- the records of the other owners are other records
    intro u k hu
    obtain ⟨hut, hOwn⟩ := hBack u k hu
    have hne : k ≠ slot := by
      rintro rfl
      exact hut (h.unique u t k hOwn (Or.inl hCtx))
    rw [hUse, Function.update_of_ne hne]
    exact h.inUse u k hOwn
  · intro u u' k hu hu'
    exact h.unique u u' k (hBack u k hu).2 (hBack u' k hu').2
  · exact forall_of_update hThreads h.phase ⟨fun _ => hGuards, trivial⟩

omit [DecidableEq τ] [DecidableEq δ] [DecidableEq ρ] in
/-- No slot is taken. -/
theorem registry_init : Registry (init τ cfg) where
  bound := by simp [init, Owns]
  inUse := by simp [init, Owns]
  unique := by simp [init, Owns]
  phase := fun _ => ⟨fun _ => rfl, trivial⟩

/-- A pointer that is read without a guard is noted nowhere. -/
theorem noteRead_eq_nil {domain : δ} {p : Option π} {guards : List (Guard δ π)}
    (h : guards = []) : noteRead domain p guards = [] := by
  subst h
  cases p <;> rfl

omit [DecidableEq δ] [DecidableEq ρ] in
/-- A step that only moves the program counter, to a point that registers
nothing, keeps the owners. -/
theorem Registry.setPc (h : Registry s) {pc : Pc δ π}
    (hThreads : s'.threads = Function.update s.threads t { s.threads t with pc := pc })
    (hUse : s'.inUse = s.inUse) (hNotReg : ∀ slot, pc ≠ .registerStore slot)
    (hAt : PhaseAt (s.threads t).context (s.threads t).guards pc) : Registry s' := by
  refine h.move hThreads hUse ⟨(h.phase t).1, hAt⟩ ?_
  rintro slot (hCtx | hpc)
  · exact Or.inl hCtx
  · exact absurd hpc (hNotReg slot)

/-- A case for each effect. -/
theorem registry_step (h : Registry s) (hst : step cfg s a = some s') : Registry s' := by
  have hAt := fun t => (h.phase t).2
  cases step_effect hst with
  | registerFree hpc hlt hfree => exact h.take hpc hlt hfree rfl rfl
  | unregisterClear hpc => exact h.release hpc rfl rfl
  | scanSpin => exact h
  | @registerStore t slot hpc =>
    refine h.move rfl rfl ⟨?_, ?_⟩ ?_
    · intro hNone
      cases hNone
    · exact Option.some_ne_none slot
    · rintro k (hk | hk)
      · exact Or.inr (by rw [hpc, Option.some.inj hk])
      · cases hk
  | @closeGuard t g rest hpc hguards =>
    -- a thread with a guard is registered
    refine h.move rfl rfl ⟨?_, ?_⟩ fun _ hk => hk
    · intro hNone
      simp [(h.phase t).1 hNone] at hguards
    · simp [PhaseAt, hpc]
  | @read t r hpc =>
    refine h.move rfl rfl ⟨?_, ?_⟩ fun _ hk => hk
    · intro hNone
      exact noteRead_eq_nil ((h.phase t).1 hNone)
    · simp [PhaseAt, hpc]
  | @lockPublish t slot e hpc =>
    refine h.move rfl rfl ⟨?_, trivial⟩ ?_
    · intro hNone
      exact absurd hNone (by simpa [PhaseAt, hpc] using hAt t)
    · rintro k (hk | hk)
      · exact Or.inl hk
      · cases hk
  | openFirst hpc hctx => exact h.setPc rfl rfl (by simp) hctx
  | openAgain hpc hctx => exact h.setPc rfl rfl (by simp) (by simp [PhaseAt, hctx])
  | exit hpc hguards hctx => exact h.setPc rfl rfl (by simp) ⟨hctx, hguards⟩
  | @registerTaken t slot hpc =>
    exact h.setPc rfl rfl (by simp) (by simpa [PhaseAt, hpc] using hAt t)
  | @lockLoad t slot hpc =>
    exact h.setPc rfl rfl (by simp) (by simpa [PhaseAt, hpc] using hAt t)
  | @unregisterStore t slot hpc =>
    exact h.setPc rfl rfl (by simp) (by simpa [PhaseAt, hpc] using hAt t)
  | @scanDone t slot old =>
    exact h.setPc rfl rfl (by cases old <;> simp [afterSync]) (by cases old <;> trivial)
  | _ => exact h.setPc rfl rfl (by simp) trivial

-- ---------------------------------------------------------------------------
-- Threads lock their own record
-- ---------------------------------------------------------------------------

/-- The step condition: a guard is opened on the domain of the thread's context,
if the thread has one already. -/
def OwnSlot (s : State τ δ ρ π) : Action τ δ ρ π → Prop
  | .openGuard t domain => ∀ slot, (s.threads t).context = some slot → slot.1 = domain
  | _ => True

/-- The records that a thread locks and unlocks are its own. -/
structure Owned (th : Thread δ π) : Prop where
  guards : ∀ g ∈ th.guards, th.context = some g.slot
  locking : ∀ slot, th.pc = .lockLoad slot ∨ (∃ e, th.pc = .lockPublish slot e) →
    th.context = some slot

omit [DecidableEq δ] in
/-- A thread that moves on without opening a guard. -/
theorem Owned.setPc {th : Thread δ π} (h : Owned th) {pc : Pc δ π}
    (hLock : ∀ slot, pc = .lockLoad slot ∨ (∃ e, pc = .lockPublish slot e) →
      th.context = some slot) : Owned { th with pc := pc } :=
  ⟨h.guards, hLock⟩

/-- `noteRead` changes what guards hold, not which record they locked. -/
theorem slot_mem_of_mem_noteRead {domain : δ} {p : Option π} {guards : List (Guard δ π)}
    {g : Guard δ π} (h : g ∈ noteRead domain p guards) :
    ∃ g' ∈ guards, g'.slot = g.slot ∧
      ∀ q ∈ g.held, q ∈ g'.held ∨ (p = some q ∧ g.slot.1 = domain) := by
  cases p with
  | none => exact ⟨g, h, rfl, fun q hq => Or.inl hq⟩
  | some p =>
    obtain ⟨g', hg', hEq⟩ := List.mem_map.mp h
    refine ⟨g', hg', ?_⟩
    split at hEq
    · next hDom =>
      subst hEq
      refine ⟨rfl, ?_⟩
      intro q hq
      rcases List.mem_cons.mp hq with rfl | hq
      · exact Or.inr ⟨rfl, hDom⟩
      · exact Or.inl hq
    · subst hEq
      exact ⟨rfl, fun q hq => Or.inl hq⟩

/-- Guards are opened on the thread's own slot, by the condition. -/
theorem owned_step (hReg : Registry s) (h : ∀ t, Owned (s.threads t)) (hok : OwnSlot s a)
    (hst : step cfg s a = some s') : ∀ t, Owned (s'.threads t) := by
  cases step_effect hst with
  | scanSpin => exact h
  | @registerStore t slot hpc =>
    -- a thread that registers has no guard yet
    refine forall_of_update (p := Owned) rfl h ⟨?_, ?_⟩
    · intro g hg
      have hNone : (s.threads t).context = none := by
        simpa [PhaseAt, hpc] using (hReg.phase t).2
      simp [(hReg.phase t).1 hNone] at hg
    · rintro k (hk | ⟨e, hk⟩)
      · simpa using hk
      · cases hk
  | @closeGuard t g rest hpc hguards =>
    refine forall_of_update (p := Owned) rfl h ⟨?_, ?_⟩
    · intro g' hg'
      exact (h t).guards g' (by simp [hguards, hg'])
    · intro k hk
      simp [hpc] at hk
  | @read t r hpc =>
    refine forall_of_update (p := Owned) rfl h ⟨?_, ?_⟩
    · intro g hg
      obtain ⟨g', hg', hSlot, -⟩ := slot_mem_of_mem_noteRead hg
      rw [← hSlot]
      exact (h t).guards g' hg'
    · intro k hk
      simp [hpc] at hk
  | @lockPublish t slot e hpc =>
    refine forall_of_update (p := Owned) rfl h ⟨?_, ?_⟩
    · intro g hg
      rcases List.mem_cons.mp hg with rfl | hg
      · exact (h t).locking slot (Or.inr ⟨e, hpc⟩)
      · exact (h t).guards g hg
    · rintro k (hk | ⟨e, hk⟩) <;> cases hk
  | @unregisterClear t slot hpc =>
    -- a thread that unregisters has no guard any more
    obtain ⟨-, hGuards⟩ : (s.threads t).context = some slot ∧ (s.threads t).guards = [] := by
      simpa [PhaseAt, hpc] using (hReg.phase t).2
    refine forall_of_update (p := Owned) rfl h ⟨?_, ?_⟩
    · intro g hg
      simp [hGuards] at hg
    · rintro k (hk | ⟨e, hk⟩) <;> cases hk
  | @openAgain t domain slot hpc hctx =>
    refine forall_of_update (p := Owned) rfl h ((h t).setPc ?_)
    rintro k (hk | ⟨e, hk⟩)
    · -- the context's slot is one of this domain
      obtain rfl : slot.1 = domain := hok slot hctx
      rw [hctx, ← Pc.lockLoad.inj hk]
    · cases hk
  | @lockLoad t slot hpc =>
    refine forall_of_update (p := Owned) rfl h ((h t).setPc ?_)
    rintro k (hk | ⟨e, hk⟩)
    · cases hk
    · rw [← (Pc.lockPublish.inj hk).1]
      exact (h t).locking slot (Or.inl hpc)
  | @scanDone t slot old e hpc =>
    refine forall_of_update (p := Owned) rfl h ((h t).setPc ?_)
    rintro k (hk | ⟨e', hk⟩) <;> cases old <;> cases hk
  | _ =>
    refine forall_of_update (p := Owned) rfl h ((h _).setPc ?_)
    rintro k (hk | ⟨e', hk⟩) <;> cases hk

-- ---------------------------------------------------------------------------
-- Published epochs
-- ---------------------------------------------------------------------------

/-- The step condition: `fetch_add` does not wrap the global epoch around. -/
def NoWrap (s : State τ δ ρ π) : Action τ δ ρ π → Prop
  | .run t => ∀ domain old, (s.threads t).pc = .syncAdd domain old →
      s.globalEpoch domain + 1 < epochModulus
  | _ => True

/-- No slot has an epoch that the domain has not reached. -/
structure Epochs (s : State τ δ ρ π) : Prop where
  pos : ∀ domain, 1 ≤ s.globalEpoch domain
  published : ∀ slot, s.epoch slot ≤ s.globalEpoch slot.1
  loaded : ∀ t slot e, (s.threads t).pc = .lockPublish slot e → 1 ≤ e ∧ e ≤ s.globalEpoch slot.1

omit [DecidableEq τ] [DecidableEq δ] [DecidableEq ρ] in
/-- All slots are outside. -/
theorem epochs_init : Epochs (init τ cfg) where
  pos := fun _ => Nat.le_refl 1
  published := fun _ => Nat.zero_le _
  loaded := by simp [init]

omit [DecidableEq τ] [DecidableEq ρ] in
/-- One record stored to an epoch that is not above the global one. -/
theorem Epochs.store (h : Epochs s) {slot : Slot δ} {e : Nat}
    (hEpoch : s'.epoch = Function.update s.epoch slot e) (hGlobal : s'.globalEpoch = s.globalEpoch)
    (he : e ≤ s.globalEpoch slot.1)
    (hLoaded : ∀ t slot e, (s'.threads t).pc = .lockPublish slot e →
      (s.threads t).pc = .lockPublish slot e) : Epochs s' := by
  refine ⟨?_, ?_, ?_⟩
  · rw [hGlobal]
    exact h.pos
  · intro k
    rw [hGlobal]
    rcases update_cases hEpoch k with ⟨rfl, hAt⟩ | ⟨-, hAt⟩ <;> rw [hAt]
    · exact he
    · exact h.published k
  · intro t k e' hpc
    rw [hGlobal]
    exact h.loaded t k e' (hLoaded t k e' hpc)

omit [DecidableEq δ] [DecidableEq ρ] in
/-- A thread that moves elsewhere than to the publication of an epoch. -/
theorem publish_of_update {th : Thread δ π} (hth : ∀ slot e, th.pc ≠ .lockPublish slot e) :
    ∀ u slot e, (Function.update s.threads t th u).pc = .lockPublish slot e →
      (s.threads u).pc = .lockPublish slot e := by
  intro u slot e hu
  rcases update_at s.threads t th u with ⟨-, hAt⟩ | ⟨-, hAt⟩ <;> rw [hAt] at hu
  · exact absurd hu (hth slot e)
  · exact hu

/-- The global epoch only grows, as it does not wrap. -/
theorem epochs_step (h : Epochs s) (hok : NoWrap s a) (hst : step cfg s a = some s') :
    Epochs s' := by
  cases step_effect hst with
  | scanSpin => exact h
  | closeGuard hpc hguards =>
    exact h.store rfl rfl (Nat.zero_le _) (publish_of_update (by simp [hpc]))
  | registerStore hpc =>
    exact h.store rfl rfl (Nat.zero_le _) (publish_of_update (by simp))
  | lockPublish hpc =>
    exact h.store rfl rfl (h.loaded _ _ _ hpc).2 (publish_of_update (by simp))
  | unregisterStore hpc =>
    exact h.store rfl rfl (Nat.zero_le _) (publish_of_update (by simp))
  | @lockLoad t slot hpc =>
    refine ⟨h.pos, h.published, ?_⟩
    intro u k e hu
    have hCases := update_at s.threads t
      { s.threads t with pc := .lockPublish slot (s.globalEpoch slot.1) } u
    rcases hCases with ⟨-, hAt⟩ | ⟨-, hAt⟩
    · obtain ⟨rfl, rfl⟩ := Pc.lockPublish.inj ((congrArg Thread.pc hAt).symm.trans hu)
      exact ⟨h.pos _, Nat.le_refl _⟩
    · exact h.loaded u k e ((congrArg Thread.pc hAt).symm.trans hu)
  | @syncAdd t domain old hpc =>
    have hlt := hok domain old hpc
    have hMod : (s.globalEpoch domain + 1) % epochModulus = s.globalEpoch domain + 1 :=
      Nat.mod_eq_of_lt hlt
    -- the global epoch only grows
    have hLe : ∀ d, s.globalEpoch d ≤
        Function.update s.globalEpoch domain (s.globalEpoch domain + 1) d := by
      intro d
      rcases update_at s.globalEpoch domain (s.globalEpoch domain + 1) d with
        ⟨rfl, hAt⟩ | ⟨-, hAt⟩ <;> omega
    refine ⟨?_, ?_, ?_⟩
    · intro d
      simp only [hMod]
      exact Nat.le_trans (h.pos d) (hLe d)
    · intro k
      simp only [hMod]
      exact Nat.le_trans (h.published k) (hLe k.1)
    · intro u k e hu
      have hOld := h.loaded u k e (publish_of_update (by simp) u k e hu)
      simp only [hMod]
      exact ⟨hOld.1, Nat.le_trans hOld.2 (hLe k.1)⟩
  | @scanDone t slot old =>
    exact ⟨h.pos, h.published, fun u k e hu =>
      h.loaded u k e (publish_of_update (by cases old <;> simp [afterSync]) u k e hu)⟩
  | read hpc =>
    exact ⟨h.pos, h.published, fun u k e hu =>
      h.loaded u k e (publish_of_update (by simp [hpc]) u k e hu)⟩
  | _ =>
    exact ⟨h.pos, h.published, fun u k e hu =>
      h.loaded u k e (publish_of_update (by simp) u k e hu)⟩

end EmbLinux.Rcu
