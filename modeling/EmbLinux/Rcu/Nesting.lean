import EmbLinux.Rcu.Protection

/-!
# EmbLinux — nested read sections

All guards of a thread share the one epoch word of its record. The destructor of
an inner guard stores 0 there, "not in a read-side critical section", and the
constructor of an inner guard stores a newer epoch; either lets a `synchronize`
pass that the outer guard should hold back.

* `nested_protection` — what is read under a guard is protected until that guard
  closes, in every run that keeps to `NestingOk`;
* `inner_close_releases`, `inner_open_releases` — two runs that do not, in which
  an `update` comes to delete what the outer guard holds.

`OuterSafe` is about the steps that store to the record of a thread with a guard that holds a
pointer; the rest of `NestingOk` is asked for by the sections that do not nest, too.
-/

namespace EmbLinux.Rcu

/-- The step conditions of nested sections. -/
structure NestingOk {τ δ ρ π : Type*} (cfg : Config δ ρ π) (s : State τ δ ρ π)
    (a : Action τ δ ρ π) : Prop where
  fresh : FreshPtr cfg s a
  noWrap : NoWrap s a
  outerSafe : OuterSafe cfg s a

variable {τ ρ π : Type*} [DecidableEq τ] [DecidableEq ρ] {cfg : Config Unit ρ π}
  {s : State τ Unit ρ π}

/-- **Nested protection.** On one domain, and at any depth, a pointer is neither deleted nor
about to be while a guard is open under which it was read, if no inner guard stores what
releases it. The destructor of an inner guard stores 0 in the one epoch word of its thread, and
what is excluded is that an `update` comes between this and the end of the outer guard. -/
theorem nested_protection (h : (system τ cfg).ReachableWhere (NestingOk cfg) s) : Protected s := by
  refine protected_of_stepOk (h.mono ?_)
  intro s a hok
  refine ⟨hok.fresh, hok.noWrap, ?_, hok.outerSafe⟩
  cases a with
  | openGuard t domain => exact fun _ _ => rfl
  | _ => trivial

/-- Two guards, a pointer read under both, and a writer that waits for them. -/
theorem nested_protection_waiting :
    ∃ s : State Bool Unit Unit Nat,
      (system Bool (onePtr ())).ReachableWhere (NestingOk (onePtr ())) s ∧
      (s.threads false).guards = [⟨((), 0), [0]⟩, ⟨((), 0), [0]⟩] ∧
      (s.threads true).pc = .scanEpoch ((), 0) (some 0) 2 ∧ Protected s := by
  have h0 : (system Bool (onePtr ())).ReachableWhere (NestingOk (onePtr ()))
      (init Bool (onePtr ())) := .init
  have h1 := h0.act (.openGuard false ()) ⟨trivial, trivial, trivial⟩ rfl
  have h2 := h1.act (.run false) ⟨trivial, (by intro _ _ h; cases h), (by intro _ _ h; cases h)⟩ rfl
  have h3 := h2.act (.run false) ⟨trivial, (by intro _ _ h; cases h), (by intro _ _ h; cases h)⟩ rfl
  have h4 := h3.act (.run false) ⟨trivial, (by intro _ _ h; cases h), (by intro _ _ h; cases h)⟩ rfl
  have h5 := h4.act (.run false)
    ⟨trivial, (by intro _ _ h; cases h), (by intro _ _ _ g hg; cases hg)⟩ rfl
  have h6 := h5.act (.openGuard false ()) ⟨trivial, trivial, trivial⟩ rfl
  have h7 := h6.act (.run false) ⟨trivial, (by intro _ _ h; cases h), (by intro _ _ h; cases h)⟩ rfl
  have h8 := h7.act (.run false)
    ⟨trivial, (by intro _ _ h; cases h),
      (by intro _ _ _ g hg p hp; cases List.mem_singleton.mp hg; cases hp)⟩ rfl
  have h9 := h8.act (.read false ()) ⟨trivial, trivial, by unfold OuterSafe; decide⟩ rfl
  have h10 := h9.act (.update true () (some 1))
    ⟨onePtr_fresh (by decide) (by decide), trivial, trivial⟩ rfl
  have h11 := h10.act (.run true)
    ⟨trivial, (by intro _ _ h; cases h; decide), (by intro _ _ h; cases h)⟩ rfl
  have h12 := h11.act (.run true)
    ⟨trivial, (by intro _ _ h; cases h), (by intro _ _ h; cases h)⟩ rfl
  exact ⟨_, h12, rfl, rfl, nested_protection h12⟩

-- ---------------------------------------------------------------------------
-- Inner guards release outer ones
-- ---------------------------------------------------------------------------

/-- A reader opens a guard, reads the pointer 0, and opens and closes an inner
guard. The record says "inactive" then, and an `update` comes to its `delete`
under the outer guard. -/
theorem inner_close_releases :
    ∃ s : State Bool Unit Unit Nat,
      (system Bool (onePtr ())).ReachableWhere (FreshPtr (onePtr ())) s ∧
      (s.threads false).guards = [⟨((), 0), [0]⟩] ∧ (s.threads true).pc = .delete 0 ∧
      ¬ Protected s := by
  have h0 : (system Bool (onePtr ())).ReachableWhere (FreshPtr (onePtr ()))
      (init Bool (onePtr ())) := .init
  have h1 := h0.act (.openGuard false ()) trivial rfl
  have h2 := h1.act (.run false) trivial rfl
  have h3 := h2.act (.run false) trivial rfl
  have h4 := h3.act (.run false) trivial rfl
  have h5 := h4.act (.run false) trivial rfl
  have h6 := h5.act (.read false ()) trivial rfl
  have h7 := h6.act (.openGuard false ()) trivial rfl
  have h8 := h7.act (.run false) trivial rfl
  have h9 := h8.act (.run false) trivial rfl
  have h10 := h9.act (.closeGuard false) trivial rfl
  -- the record says 0 from here on
  have h11 := h10.act (.update true () (some 1)) (onePtr_fresh (by decide) (by decide)) rfl
  have h12 := h11.act (.run true) trivial rfl
  have h13 := h12.act (.run true) trivial rfl
  have h14 := h13.act (.run true) trivial rfl
  have h15 := scan_free (fun _ => trivial) h14 (t := true) (n := 63)
    (show _ = Pc.scanInUse ((), 1) (some 0) 2 from rfl) (by decide) ?_
  · refine ⟨_, h15, rfl, rfl, ?_⟩
    intro hProt
    exact hProt.noDelete false ⟨((), 0), [0]⟩ 0 true ⟨List.mem_cons_self, List.mem_cons_self⟩ rfl
  · intro j hj
    simp [State.setPc, init, show j ≠ 0 by omega]

/-- A writer waits for the record of a reader that holds its old pointer. The
reader opens an inner guard, which publishes the writer's own epoch, and the
`update` comes to its `delete`. -/
theorem inner_open_releases :
    ∃ s : State Bool Unit Unit Nat,
      (system Bool (onePtr ())).ReachableWhere (FreshPtr (onePtr ())) s ∧
      (s.threads false).guards = [⟨((), 0), []⟩, ⟨((), 0), [0]⟩] ∧
      (s.threads true).pc = .delete 0 ∧ ¬ Protected s := by
  have h0 : (system Bool (onePtr ())).ReachableWhere (FreshPtr (onePtr ()))
      (init Bool (onePtr ())) := .init
  have h1 := h0.act (.openGuard false ()) trivial rfl
  have h2 := h1.act (.run false) trivial rfl
  have h3 := h2.act (.run false) trivial rfl
  have h4 := h3.act (.run false) trivial rfl
  have h5 := h4.act (.run false) trivial rfl
  have h6 := h5.act (.read false ()) trivial rfl
  have h7 := h6.act (.update true () (some 1)) (onePtr_fresh (by decide) (by decide)) rfl
  have h8 := h7.act (.run true) trivial rfl
  have h9 := h8.act (.run true) trivial rfl
  have h10 := h9.act (.openGuard false ()) trivial rfl
  have h11 := h10.act (.run false) trivial rfl
  have h12 := h11.act (.run false) trivial rfl
  -- the reader published 2, the epoch that the writer waits for
  have h13 := h12.act (.run true) trivial rfl
  have h14 := scan_free (fun _ => trivial) h13 (t := true) (n := 63)
    (show _ = Pc.scanInUse ((), 1) (some 0) 2 from rfl) (by decide) ?_
  · refine ⟨_, h14, rfl, rfl, ?_⟩
    intro hProt
    exact hProt.noDelete false ⟨((), 0), [0]⟩ 0 true
      ⟨List.mem_cons_of_mem _ List.mem_cons_self, List.mem_cons_self⟩ rfl
  · intro j hj
    simp [State.setPc, init, show j ≠ 0 by omega]

end EmbLinux.Rcu
