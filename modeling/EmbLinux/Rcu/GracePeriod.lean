import EmbLinux.Rcu.Sections

/-!
# EmbLinux — the grace period of one domain

`grace_period`: with one domain and read sections that do not nest, an `update`
about to delete its old pointer finds no reader that holds it, no pointer is
deleted twice, and no slot has two owners. The epochs have to last:

* every call of `synchronize` draws one epoch, so the global epoch is the number
  of calls plus one (`sectionOk_of_syncs`);
* the call number `2 ^ 64 - 1` draws the epoch 0, which every record passes, and
  waits for nobody (`grace_period_at_wrap`).

A section is a guard of `scoped_rcu_reader`; its thread may take any number of steps and open any
number of sections one after the other. An `update` brings a pointer that nobody has.
-/

namespace EmbLinux.Rcu

/-- What a grace period promises. -/
structure GracePeriod {τ δ ρ π : Type*} (s : State τ δ ρ π) : Prop where
  noReader : ∀ w p, (s.threads w).pc = .delete p → ∀ t, ∀ g ∈ (s.threads t).guards, p ∉ g.held
  deletedOnce : s.deleted.Nodup
  ownSlots : ∀ t t' slot, (s.threads t).context = some slot → (s.threads t').context = some slot →
    t = t'

/-- The step conditions of the callers: `update` brings a fresh pointer, and
sections do not nest. -/
def Callers {τ δ ρ π : Type*} (cfg : Config δ ρ π) (s : State τ δ ρ π) (a : Action τ δ ρ π) :
    Prop :=
  FreshPtr cfg s a ∧ NonNested s a

section

variable {τ ρ π : Type*} [DecidableEq τ] [DecidableEq ρ]
  {cfg : Config Unit ρ π} {s s' : State τ Unit ρ π} {a : Action τ Unit ρ π}

/-- A step draws one epoch and counts it, or leaves the epoch and the count. -/
theorem syncs_step (hst : step cfg s a = some s') :
    (s'.syncs () = s.syncs () ∧ s'.globalEpoch () = s.globalEpoch ()) ∨
      (s'.syncs () = s.syncs () + 1 ∧
        s'.globalEpoch () = (s.globalEpoch () + 1) % epochModulus) := by
  cases step_effect hst with
  | syncAdd hpc => exact Or.inr (by simp)
  | _ => exact Or.inl ⟨rfl, rfl⟩

omit [DecidableEq ρ] in
/-- A `synchronize` is counted when it draws its epoch. -/
theorem syncs_of_syncAdd {t : τ} {domain : Unit} {old : Option π}
    (hpc : (s.threads t).pc = .syncAdd domain old) (hst : run s t = some s') :
    s'.syncs () = s.syncs () + 1 := by
  simp only [run, hpc, Option.some.injEq] at hst
  rw [← hst]
  simp

/-- While fewer than `2 ^ 64 - 1` calls of `synchronize` drew an epoch, none of
them wrapped around. -/
theorem sectionOk_of_syncs (h : (system τ cfg).ReachableWhere (Callers cfg) s)
    (hSyncs : s.syncs () + 1 < epochModulus) :
    (system τ cfg).ReachableWhere (SectionOk cfg) s := by
  have hRun : s.syncs () + 1 < epochModulus →
      (system τ cfg).ReachableWhere (SectionOk cfg) s ∧ s.globalEpoch () = s.syncs () + 1 := by
    refine h.invariant (I := fun s => s.syncs () + 1 < epochModulus →
      (system τ cfg).ReachableWhere (SectionOk cfg) s ∧ s.globalEpoch () = s.syncs () + 1)
      (fun _ => ⟨.init, rfl⟩) ?_
    intro s a s' _ ih hok hst hLt
    have hStep := syncs_step hst
    have hLe : s.syncs () ≤ s'.syncs () := by omega
    -- the calls before this step were fewer still
    obtain ⟨hReach, hEpoch⟩ := ih (by omega)
    refine ⟨hReach.act a ⟨hok.1, hok.2, ?_, ?_⟩ hst, ?_⟩
    · -- a call that draws an epoch is counted, so the bound leaves room for it
      cases a with
      | run t =>
        intro domain old hpc
        have hCount := syncs_of_syncAdd hpc hst
        show s.globalEpoch () + 1 < epochModulus
        omega
      | _ => trivial
    · -- there is one domain only
      cases a with
      | openGuard t domain => exact fun _ _ => rfl
      | _ => trivial
    · rcases hStep with ⟨hCount, hSame⟩ | ⟨hCount, hNext⟩
      · rw [hSame, hCount, hEpoch]
      · rw [hNext, hCount, hEpoch]
        exact Nat.mod_eq_of_lt (by omega)
  exact (hRun hSyncs).1

/-- **The grace period**, for any number of readers, writers and `RcuPtr`s of one domain and
every interleaving of them, as long as `synchronize` is called fewer than `2 ^ 64 - 1` times. At
that number the epoch is 0, the word of a thread outside, and a reader is passed over
(`grace_period_at_wrap`). Nested sections are excluded by `Callers`, and are the subject of the
next module. -/
theorem grace_period (h : (system τ cfg).ReachableWhere (Callers cfg) s)
    (hSyncs : s.syncs () < 2 ^ 64 - 1) : GracePeriod s := by
  have hOk := stepOk_of_sectionOk (sectionOk_of_syncs h (by unfold epochModulus; omega))
  have hInv := inv_of_stepOk hOk
  refine ⟨?_, ?_, ?_⟩
  · intro w p hw t g hg hp
    exact hInv.protected.noDelete t g p w ⟨hg, hp⟩ hw
  · exact hInv.pointers.deleted_nodup
  · intro t t' slot ht ht'
    exact hInv.registry.unique t t' slot (Or.inl ht) (Or.inl ht')

end

-- ---------------------------------------------------------------------------
-- One `RcuPtr`, a reader and a writer
-- ---------------------------------------------------------------------------

/-- A writer at the reader's record, which it waits for, and a reader that holds
the pointer. -/
theorem grace_period_waiting :
    ∃ s : State Bool Unit Unit Nat,
      (system Bool (onePtr ())).ReachableWhere (Callers (onePtr ())) s ∧
      (s.threads false).guards = [⟨((), 0), [0]⟩] ∧
      (s.threads true).pc = .scanEpoch ((), 0) (some 0) 2 ∧ GracePeriod s := by
  have h0 : (system Bool (onePtr ())).ReachableWhere (Callers (onePtr ()))
      (init Bool (onePtr ())) := .init
  have h1 := h0.act (.openGuard false ()) ⟨trivial, rfl⟩ rfl
  have h2 := h1.act (.run false) ⟨trivial, trivial⟩ rfl
  have h3 := h2.act (.run false) ⟨trivial, trivial⟩ rfl
  have h4 := h3.act (.run false) ⟨trivial, trivial⟩ rfl
  have h5 := h4.act (.run false) ⟨trivial, trivial⟩ rfl
  have h6 := h5.act (.read false ()) ⟨trivial, trivial⟩ rfl
  have h7 := h6.act (.update true () (some 1)) ⟨onePtr_fresh (by decide) (by decide), trivial⟩ rfl
  have h8 := h7.act (.run true) ⟨trivial, trivial⟩ rfl
  have h9 := h8.act (.run true) ⟨trivial, trivial⟩ rfl
  exact ⟨_, h9, rfl, rfl, grace_period h9 (by decide)⟩

-- ---------------------------------------------------------------------------
-- The last epoch
-- ---------------------------------------------------------------------------

/-- The runs of a reader and a writer. -/
abbrev Reached (s : State Bool Unit Unit Nat) : Prop :=
  (system Bool (onePtr ())).ReachableWhere (Callers (onePtr ())) s

/-- Between two updates, after `k` of them: nobody is registered, and the `k`-th
pointer is linked. -/
structure Quiet (k : Nat) (s : State Bool Unit Unit Nat) : Prop where
  threads : ∀ t, s.threads t = ⟨none, [], .idle⟩
  inUse : ∀ slot, s.inUse slot = false
  globalEpoch : s.globalEpoch () = k + 1
  ptr : s.ptr () = some k
  installed : ∀ p ∈ s.installed, p ≤ k
  syncs : s.syncs () = k

/-- The `update` of the writer up to the first test of its scan. -/
theorem update_scans {k : Nat} {s : State Bool Unit Unit Nat} (h : Reached s)
    (hIdle : (s.threads true).pc = .idle) (hPtr : s.ptr () = some k)
    (hInst : ∀ p ∈ s.installed, p ≤ k) :
    ∃ s', Reached s' ∧
      s'.threads = Function.update s.threads true { s.threads true with
        pc := .scanInUse ((), 0) (some k) ((s.globalEpoch () + 1) % epochModulus) } ∧
      s'.inUse = s.inUse ∧ s'.epoch = s.epoch ∧
      s'.globalEpoch () = (s.globalEpoch () + 1) % epochModulus ∧ s'.ptr () = some (k + 1) ∧
      (∀ p ∈ s'.installed, p ≤ k + 1) ∧ s'.syncs () = s.syncs () + 1 := by
  have hFresh : k + 1 ∉ s.installed := fun hMem => by
    have := hInst _ hMem
    omega
  have h1 := effect_reachable h (a := .update true () (some (k + 1))) (.swap hIdle hPtr)
    ⟨onePtr_fresh (Nat.succ_pos k) hFresh, trivial⟩
  have h2 := effect_reachable h1
    (.syncAdd (t := true) (show _ = Pc.syncAdd () (some k) by simp [State.setPc, onePtr]))
    ⟨trivial, trivial⟩
  refine ⟨_, h2, ?_, rfl, rfl, ?_, ?_, ?_, ?_⟩
  · simp [State.setPc]
  · simp [State.setPc]
  · simp [State.setPc]
  · intro p hp
    rcases List.mem_append.mp hp with hNew | hOld
    · exact Nat.le_of_eq (by simpa using hNew)
    · exact Nat.le_succ_of_le (hInst p hOld)
  · simp [State.setPc]

/-- One `update` with nobody registered. -/
theorem quiet_round {k : Nat} {s : State Bool Unit Unit Nat} (h : Reached s) (hq : Quiet k s)
    (hk : k + 2 < epochModulus) :
    ∃ s', Reached s' ∧ Quiet (k + 1) s' := by
  obtain ⟨s₁, h1, hThreads, hUse, -, hGlobal, hPtr, hInst, hSyncs⟩ :=
    update_scans h (by rw [hq.threads]) hq.ptr hq.installed
  have h2 := scan_free (fun _ => ⟨trivial, trivial⟩) h1 (i := 0)
    (by rw [hThreads, Function.update_self]) (Nat.zero_add _)
    fun j _ => by rw [hUse, hq.inUse]
  have h3 := effect_reachable h2 (.delete (t := true) (p := k) (by simp [State.setPc, afterSync]))
    ⟨trivial, trivial⟩
  refine ⟨_, h3, ?_, ?_, ?_, hPtr, hInst, ?_⟩
  · intro t
    cases t <;> simp [State.setPc, hThreads, hq.threads]
  · intro slot
    rw [← hq.inUse slot, ← hUse]
    rfl
  · have hMod := Nat.mod_eq_of_lt hk
    rw [hq.globalEpoch] at hGlobal
    exact hGlobal.trans hMod
  · rw [← hq.syncs]
    exact hSyncs

/-- `k` updates in a row. -/
theorem quiet_rounds (k : Nat) (hk : k + 1 < epochModulus) :
    ∃ s, Reached s ∧ Quiet k s := by
  induction k with
  | zero => exact ⟨_, .init, fun _ => rfl, fun _ => rfl, rfl, rfl, by simp [init, system], rfl⟩
  | succ k ih =>
    obtain ⟨s, hs, hq⟩ := ih (by omega)
    exact quiet_round hs hq hk

/-- A reader registers, opens a section and reads. -/
theorem quiet_read {k : Nat} {s : State Bool Unit Unit Nat} (h : Reached s) (hq : Quiet k s) :
    ∃ s', Reached s' ∧
      (s'.threads false).guards = [⟨((), 0), [k]⟩] ∧ s'.threads true = ⟨none, [], .idle⟩ ∧
      (∀ i, s'.inUse ((), i) = decide (i = 0)) ∧ s'.globalEpoch () = k + 1 ∧
      s'.ptr () = some k ∧ (∀ p ∈ s'.installed, p ≤ k) ∧ s'.syncs () = k := by
  have hReader := hq.threads false
  have h1 := effect_reachable h (a := .openGuard false ())
    (.openFirst (by rw [hReader]) (by rw [hReader])) ⟨trivial, by rw [NonNested, hReader]⟩
  have h2 := effect_reachable h1
    (.registerFree (t := false) (show _ = Pc.register ((), 0) by simp [State.setPc]) (by decide)
      (hq.inUse _))
    ⟨trivial, trivial⟩
  have h3 := effect_reachable h2
    (.registerStore (t := false) (show _ = Pc.registerStore ((), 0) by simp [State.setPc]))
    ⟨trivial, trivial⟩
  have h4 := effect_reachable h3
    (.lockLoad (t := false) (show _ = Pc.lockLoad ((), 0) by simp)) ⟨trivial, trivial⟩
  have h5 := effect_reachable h4
    (.lockPublish (t := false)
      (show _ = Pc.lockPublish ((), 0) (s.globalEpoch ()) by simp [State.setPc]))
    ⟨trivial, trivial⟩
  have h6 := effect_reachable h5 (.read (t := false) (r := ()) (by simp)) ⟨trivial, trivial⟩
  refine ⟨_, h6, ?_, ?_, ?_, hq.globalEpoch, hq.ptr, hq.installed, hq.syncs⟩
  · simp [State.setPc, hReader, noteRead, hq.ptr, onePtr]
  · simp [State.setPc, hq.threads true]
  · intro i
    simp [State.setPc, Function.update, hq.inUse]

/-- The `update` that draws the epoch 0 passes the record of a reader that holds
its old pointer, and deletes the pointer. It is the call number `2 ^ 64 - 1`. -/
theorem grace_period_at_wrap :
    ∃ s : State Bool Unit Unit Nat,
      (system Bool (onePtr ())).ReachableWhere (Callers (onePtr ())) s ∧
      s.syncs () < 2 ^ 64 ∧ ¬ GracePeriod s := by
  -- after `2 ^ 64 - 2` updates a reader comes, and then the next update
  obtain ⟨k, hk⟩ : ∃ k, k + 2 = epochModulus := ⟨2 ^ 64 - 2, by decide⟩
  obtain ⟨s, h, hq⟩ := quiet_rounds k (by omega)
  obtain ⟨s₁, h1, hGuards, hWriter, hUse, hGlobal, hPtr, hInst, hSyncs⟩ := quiet_read h hq
  obtain ⟨s₂, h2, hThreads, hUse₂, -, -, -, -, hSyncs₂⟩ :=
    update_scans h1 (by rw [hWriter]) hPtr hInst
  -- the new epoch wraps around to 0
  have hEpoch : (s₁.globalEpoch () + 1) % epochModulus = 0 := by
    rw [hGlobal, show k + 1 + 1 = epochModulus from hk, Nat.mod_self]
  rw [hEpoch] at hThreads
  have h3 := effect_reachable h2
    (.scanCheck (t := true)
      (show _ = Pc.scanInUse ((), 0) (some k) 0 by rw [hThreads, Function.update_self])
      (by decide) (by rw [hUse₂, hUse]; rfl))
    ⟨trivial, trivial⟩
  have h4 := effect_reachable h3
    (.scanPass (t := true) (show _ = Pc.scanEpoch ((), 0) (some k) 0 by simp [State.setPc])
      (Or.inr (Nat.zero_le _)))
    ⟨trivial, trivial⟩
  -- the other 63 records are not in use
  have h5 := scan_free (fun _ => ⟨trivial, trivial⟩) h4 (i := 1) (t := true) (n := 63)
    (show _ = Pc.scanInUse ((), 1) (some k) 0 by simp [State.setPc]) (by decide) ?_
  · refine ⟨_, h5, ?_, ?_⟩
    · show s₂.syncs () < _
      have : k + 2 = 2 ^ 64 := hk
      omega
    · intro hGrace
      refine hGrace.noReader true k (by simp [State.setPc, afterSync]) false ⟨((), 0), [k]⟩ ?_
        List.mem_cons_self
      simp [State.setPc, hThreads, hGuards]
  · intro j hj
    show s₂.inUse _ = false
    rw [hUse₂, hUse]
    exact decide_eq_false (by omega)

end EmbLinux.Rcu
