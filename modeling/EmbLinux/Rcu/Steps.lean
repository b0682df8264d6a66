import EmbLinux.Rcu.Model

/-!
# EmbLinux — what one RCU step does

`Effect` lists the accesses of the model one by one, each with what held before
it and the state after it; `step_effect` says that every step is one of them,
and `step_of_effect` that each of them is a step.
The invariants of the following modules are proved by cases on `Effect`, so that
`step` is unfolded here and nowhere else.
-/

namespace EmbLinux.Rcu

variable {τ δ ρ π : Type*} [DecidableEq τ] [DecidableEq δ] [DecidableEq ρ]
  {cfg : Config δ ρ π} {s s' : State τ δ ρ π} {a : Action τ δ ρ π}

omit [DecidableEq δ] in
/-- The test is the program point. -/
theorem Pc.isIdle_iff {pc : Pc δ π} : pc.isIdle = true ↔ pc = .idle := by
  cases pc <;> simp [Pc.isIdle]

/-- What one step does, a case for each program point and call. -/
inductive Effect (cfg : Config δ ρ π) (s : State τ δ ρ π) :
    Action τ δ ρ π → State τ δ ρ π → Prop
  | openFirst {t : τ} {domain : δ} (hpc : (s.threads t).pc = .idle)
      (hctx : (s.threads t).context = none) :
      Effect cfg s (.openGuard t domain) (s.setPc t (.register (domain, 0)))
  | openAgain {t : τ} {domain : δ} {slot : Slot δ} (hpc : (s.threads t).pc = .idle)
      (hctx : (s.threads t).context = some slot) :
      Effect cfg s (.openGuard t domain) (s.setPc t (.lockLoad (domain, slot.2)))
  | closeGuard {t : τ} {g : Guard δ π} {rest : List (Guard δ π)}
      (hpc : (s.threads t).pc = .idle) (hguards : (s.threads t).guards = g :: rest) :
      Effect cfg s (.closeGuard t) { s with
        epoch := Function.update s.epoch g.slot 0
        threads := Function.update s.threads t { s.threads t with guards := rest } }
  | read {t : τ} {r : ρ} (hpc : (s.threads t).pc = .idle) :
      Effect cfg s (.read t r) { s with
        threads := Function.update s.threads t
          { s.threads t with
            guards := noteRead (cfg.domainOf r) (s.ptr r) (s.threads t).guards } }
  | swapNull {t : τ} {r : ρ} {newPtr : Option π} (hpc : (s.threads t).pc = .idle)
      (hold : s.ptr r = none) :
      Effect cfg s (.update t r newPtr) { s.setPc t .idle with
        ptr := Function.update s.ptr r newPtr
        installed := newPtr.toList ++ s.installed }
  | swap {t : τ} {r : ρ} {newPtr : Option π} {old : π} (hpc : (s.threads t).pc = .idle)
      (hold : s.ptr r = some old) :
      Effect cfg s (.update t r newPtr) { s.setPc t (.syncAdd (cfg.domainOf r) (some old)) with
        ptr := Function.update s.ptr r newPtr
        installed := newPtr.toList ++ s.installed }
  | synchronize {t : τ} {domain : δ} (hpc : (s.threads t).pc = .idle) :
      Effect cfg s (.synchronize t domain) (s.setPc t (.syncAdd domain none))
  | exit {t : τ} {slot : Slot δ} (hpc : (s.threads t).pc = .idle)
      (hguards : (s.threads t).guards = []) (hctx : (s.threads t).context = some slot) :
      Effect cfg s (.exit t) (s.setPc t (.unregisterStore slot))
  | registerTaken {t : τ} {slot : Slot δ} (hpc : (s.threads t).pc = .register slot)
      (hlt : slot.2 < kMaxRcuThreads) (hused : s.inUse slot = true) :
      Effect cfg s (.run t) (s.setPc t (.register (slot.1, slot.2 + 1)))
  | registerFree {t : τ} {slot : Slot δ} (hpc : (s.threads t).pc = .register slot)
      (hlt : slot.2 < kMaxRcuThreads) (hfree : s.inUse slot = false) :
      Effect cfg s (.run t) { s.setPc t (.registerStore slot) with
        inUse := Function.update s.inUse slot true }
  | registerFull {t : τ} {slot : Slot δ} (hpc : (s.threads t).pc = .register slot)
      (hge : kMaxRcuThreads ≤ slot.2) :
      Effect cfg s (.run t) (s.setPc t .idle)
  | registerStore {t : τ} {slot : Slot δ} (hpc : (s.threads t).pc = .registerStore slot) :
      Effect cfg s (.run t) { s with
        epoch := Function.update s.epoch slot 0
        threads := Function.update s.threads t
          { s.threads t with context := some slot, pc := .lockLoad slot } }
  | lockLoad {t : τ} {slot : Slot δ} (hpc : (s.threads t).pc = .lockLoad slot) :
      Effect cfg s (.run t) (s.setPc t (.lockPublish slot (s.globalEpoch slot.1)))
  | lockPublish {t : τ} {slot : Slot δ} {e : Nat} (hpc : (s.threads t).pc = .lockPublish slot e) :
      Effect cfg s (.run t) { s with
        epoch := Function.update s.epoch slot e
        threads := Function.update s.threads t
          { s.threads t with guards := ⟨slot, []⟩ :: (s.threads t).guards, pc := .idle } }
  | unregisterStore {t : τ} {slot : Slot δ} (hpc : (s.threads t).pc = .unregisterStore slot) :
      Effect cfg s (.run t) { s.setPc t (.unregisterClear slot) with
        epoch := Function.update s.epoch slot 0 }
  | unregisterClear {t : τ} {slot : Slot δ} (hpc : (s.threads t).pc = .unregisterClear slot) :
      Effect cfg s (.run t) { s with
        inUse := Function.update s.inUse slot false
        threads := Function.update s.threads t { s.threads t with context := none, pc := .idle } }
  | syncAdd {t : τ} {domain : δ} {old : Option π} (hpc : (s.threads t).pc = .syncAdd domain old) :
      Effect cfg s (.run t)
        { s.setPc t (.scanInUse (domain, 0) old ((s.globalEpoch domain + 1) % epochModulus)) with
          globalEpoch := Function.update s.globalEpoch domain
            ((s.globalEpoch domain + 1) % epochModulus)
          syncs := Function.update s.syncs domain (s.syncs domain + 1) }
  | scanCheck {t : τ} {slot : Slot δ} {old : Option π} {e : Nat}
      (hpc : (s.threads t).pc = .scanInUse slot old e) (hlt : slot.2 < kMaxRcuThreads)
      (hused : s.inUse slot = true) :
      Effect cfg s (.run t) (s.setPc t (.scanEpoch slot old e))
  | scanSkip {t : τ} {slot : Slot δ} {old : Option π} {e : Nat}
      (hpc : (s.threads t).pc = .scanInUse slot old e) (hlt : slot.2 < kMaxRcuThreads)
      (hfree : s.inUse slot = false) :
      Effect cfg s (.run t) (s.setPc t (.scanInUse (slot.1, slot.2 + 1) old e))
  | scanDone {t : τ} {slot : Slot δ} {old : Option π} {e : Nat}
      (hpc : (s.threads t).pc = .scanInUse slot old e) (hge : kMaxRcuThreads ≤ slot.2) :
      Effect cfg s (.run t) (s.setPc t (afterSync old))
  | scanPass {t : τ} {slot : Slot δ} {old : Option π} {e : Nat}
      (hpc : (s.threads t).pc = .scanEpoch slot old e)
      (hepoch : s.epoch slot = 0 ∨ e ≤ s.epoch slot) :
      Effect cfg s (.run t) (s.setPc t (.scanInUse (slot.1, slot.2 + 1) old e))
  | scanSpin {t : τ} {slot : Slot δ} {old : Option π} {e : Nat}
      (hpc : (s.threads t).pc = .scanEpoch slot old e)
      (hepoch : s.epoch slot ≠ 0 ∧ s.epoch slot < e) :
      Effect cfg s (.run t) s
  | delete {t : τ} {p : π} (hpc : (s.threads t).pc = .delete p) :
      Effect cfg s (.run t) { s.setPc t .idle with deleted := p :: s.deleted }

/-- Every access of an operation in progress is one of the listed effects. -/
theorem run_effect {t : τ} (hst : run s t = some s') : Effect cfg s (.run t) s' := by
  unfold run at hst
  split at hst
  · cases hst
  · next slot hpc =>
    split at hst
    · next hlt =>
      split at hst
      · next hused =>
        cases hst
        exact .registerTaken hpc hlt hused
      · next hfree =>
        cases hst
        exact .registerFree hpc hlt (by simpa using hfree)
    · next hge =>
      cases hst
      exact .registerFull hpc (Nat.le_of_not_lt hge)
  · next hpc =>
    cases hst
    exact .registerStore hpc
  · next hpc =>
    cases hst
    exact .lockLoad hpc
  · next hpc =>
    cases hst
    exact .lockPublish hpc
  · next hpc =>
    cases hst
    exact .unregisterStore hpc
  · next hpc =>
    cases hst
    exact .unregisterClear hpc
  · next hpc =>
    cases hst
    exact .syncAdd hpc
  · next slot old e hpc =>
    split at hst
    · next hlt =>
      split at hst
      · next hused =>
        cases hst
        exact .scanCheck hpc hlt hused
      · next hfree =>
        cases hst
        exact .scanSkip hpc hlt (by simpa using hfree)
    · next hge =>
      cases hst
      exact .scanDone hpc (Nat.le_of_not_lt hge)
  · next hpc =>
    split at hst
    · next hepoch =>
      cases hst
      exact .scanPass hpc hepoch
    · next hepoch =>
      cases hst
      exact .scanSpin hpc (by omega)
  · next hpc =>
    cases hst
    exact .delete hpc

/-- Every step is one of the listed effects. -/
theorem step_effect (hst : step cfg s a = some s') : Effect cfg s a s' := by
  cases a with
  | run t => exact run_effect hst
  | openGuard t domain =>
    simp only [step] at hst
    split at hst
    · next hpc =>
      split at hst
      · next hctx =>
        cases hst
        exact .openFirst (Pc.isIdle_iff.mp hpc) hctx
      · next hctx =>
        cases hst
        exact .openAgain (Pc.isIdle_iff.mp hpc) hctx
    · cases hst
  | closeGuard t =>
    simp only [step] at hst
    split at hst
    · next hpc =>
      split at hst
      · cases hst
      · next hguards =>
        cases hst
        exact .closeGuard (Pc.isIdle_iff.mp hpc) hguards
    · cases hst
  | read t r =>
    simp only [step] at hst
    split at hst
    · next hpc =>
      cases hst
      exact .read (Pc.isIdle_iff.mp hpc)
    · cases hst
  | update t r newPtr =>
    simp only [step] at hst
    split at hst
    · next hpc =>
      cases hold : s.ptr r with
      | none =>
        simp only [hold, Option.isSome_none, Bool.false_eq_true, if_false] at hst
        cases hst
        exact .swapNull (Pc.isIdle_iff.mp hpc) hold
      | some old =>
        simp only [hold, Option.isSome_some, if_true] at hst
        cases hst
        exact .swap (Pc.isIdle_iff.mp hpc) hold
    · cases hst
  | synchronize t domain =>
    simp only [step] at hst
    split at hst
    · next hpc =>
      cases hst
      exact .synchronize (Pc.isIdle_iff.mp hpc)
    · cases hst
  | exit t =>
    simp only [step] at hst
    split at hst
    · next hpc =>
      split at hst
      · next hguards hctx =>
        cases hst
        exact .exit (Pc.isIdle_iff.mp hpc) hguards hctx
      · cases hst
    · cases hst

/-- The listed effects are steps: `Effect` is exact. -/
theorem step_of_effect (h : Effect cfg s a s') : step cfg s a = some s' := by
  cases h with
  | scanPass hpc hepoch => simp only [step, run, hpc, if_pos hepoch]
  | scanSpin hpc hepoch =>
    simp only [step, run, hpc]
    rw [if_neg (by omega)]
  | registerFull hpc hge => simp only [step, run, hpc, if_neg (Nat.not_lt.mpr hge)]
  | scanDone hpc hge => simp only [step, run, hpc, if_neg (Nat.not_lt.mpr hge)]
  | _ => simp [step, run, Pc.isIdle, *]

/-- A run goes on with an effect. -/
theorem effect_reachable {ok : State τ δ ρ π → Action τ δ ρ π → Prop}
    (h : (system τ cfg).ReachableWhere ok s) (he : Effect cfg s a s') (hok : ok s a) :
    (system τ cfg).ReachableWhere ok s' :=
  h.act a hok (step_of_effect he)

/-- Where nobody is registered from slot `i` on, the scan runs to its end. -/
theorem scan_free {ok : State τ δ ρ π → Action τ δ ρ π → Prop} {t : τ} {domain : δ}
    {old : Option π} {i e n : Nat} (hRun : ∀ s, ok s (.run t))
    (h : (system τ cfg).ReachableWhere ok s)
    (hpc : (s.threads t).pc = .scanInUse (domain, i) old e) (hEnd : i + n = kMaxRcuThreads)
    (hFree : ∀ j, i ≤ j → s.inUse (domain, j) = false) :
    (system τ cfg).ReachableWhere ok (s.setPc t (afterSync old)) := by
  induction n generalizing s i with
  | zero =>
    have hEq : i = kMaxRcuThreads := hEnd
    exact effect_reachable h (.scanDone hpc (Nat.le_of_eq hEq.symm)) (hRun _)
  | succ n ih =>
    have hLt : i < kMaxRcuThreads := by omega
    have hNext := effect_reachable h (.scanSkip hpc hLt (hFree i (Nat.le_refl i))) (hRun _)
    have hEndOfScan := ih hNext (by simp [State.setPc]) (by omega)
      fun j hj => hFree j (Nat.le_of_succ_le hj)
    simpa [State.setPc] using hEndOfScan

end EmbLinux.Rcu
