import EmbLinux.Rcu.Sections

/-!
# EmbLinux — several domains

`get_rcu_thread_context` keeps one `thread_local` context, created for the
domain that the thread uses first. A guard on any other domain takes the slot
number of that context and locks a record of the other domain that the thread
never registered.

* `domains_protection` — what is read in a section is protected until it ends,
  in every run whose sections are opened on the domain of the thread's context;
* `other_domain_unprotected` — a run with a section on a second domain, whose
  record no scan looks at.

The domains are objects that exist all the time. A `RcuPtr` belongs to one domain, and nothing is
said of a guard of one domain and a pointer of another.
-/

namespace EmbLinux.Rcu

variable {τ δ ρ π : Type*} [DecidableEq τ] [DecidableEq δ] [DecidableEq ρ]
  {cfg : Config δ ρ π} {s : State τ δ ρ π}

/-- **Protection per domain.** For any number of domains, a pointer read from an `RcuPtr` of the
section's domain is neither deleted nor about to be before the section ends, if every section is
opened on its thread's own domain. The other conditions on the steps are those of one domain:
fresh pointers, sections that do not nest, and epochs that do not wrap. What is excluded is a
section on a second domain, which the thread's context registers nowhere. -/
theorem domains_protection (h : (system τ cfg).ReachableWhere (SectionOk cfg) s) : Protected s :=
  protected_of_stepOk (stepOk_of_sectionOk h)

/-- A reader of the second domain, whose context was created for that domain. -/
theorem domains_protection_waiting :
    ∃ s : State Bool Bool Unit Nat,
      (system Bool (onePtr true)).ReachableWhere (SectionOk (onePtr true)) s ∧
      (s.threads false).guards = [⟨(true, 0), [0]⟩] ∧
      (s.threads true).pc = .scanEpoch (true, 0) (some 0) 2 ∧ Protected s := by
  have h0 : (system Bool (onePtr true)).ReachableWhere (SectionOk (onePtr true))
      (init Bool (onePtr true)) := .init
  have h1 := h0.act (.openGuard false true) ⟨trivial, rfl, trivial, (by intro _ h; cases h)⟩ rfl
  have h2 := h1.act (.run false) ⟨trivial, trivial, (by intro _ _ h; cases h), trivial⟩ rfl
  have h3 := h2.act (.run false) ⟨trivial, trivial, (by intro _ _ h; cases h), trivial⟩ rfl
  have h4 := h3.act (.run false) ⟨trivial, trivial, (by intro _ _ h; cases h), trivial⟩ rfl
  have h5 := h4.act (.run false) ⟨trivial, trivial, (by intro _ _ h; cases h), trivial⟩ rfl
  have h6 := h5.act (.read false ()) ⟨trivial, trivial, trivial, trivial⟩ rfl
  have h7 := h6.act (.update true () (some 1))
    ⟨onePtr_fresh (by decide) (by decide), trivial, trivial, trivial⟩ rfl
  have h8 := h7.act (.run true) ⟨trivial, trivial, (by intro _ _ h; cases h; decide), trivial⟩ rfl
  have h9 := h8.act (.run true) ⟨trivial, trivial, (by intro _ _ h; cases h), trivial⟩ rfl
  exact ⟨_, h9, rfl, rfl, domains_protection h9⟩

/-- A reader opens and closes a section on the first domain, which registers it
there, and then opens one on the second and reads. Its record on the second
domain is not in use, the scan skips it, and the `update` comes to its `delete`. -/
theorem other_domain_unprotected :
    ∃ s : State Bool Bool Unit Nat,
      (system Bool (onePtr true)).ReachableWhere
        (fun s a => FreshPtr (onePtr true) s a ∧ NonNested s a) s ∧
      (s.threads false).guards = [⟨(true, 0), [0]⟩] ∧ (s.threads true).pc = .delete 0 ∧
      ¬ Protected s := by
  have h0 : (system Bool (onePtr true)).ReachableWhere
      (fun s a => FreshPtr (onePtr true) s a ∧ NonNested s a) (init Bool (onePtr true)) := .init
  have h1 := h0.act (.openGuard false false) ⟨trivial, rfl⟩ rfl
  have h2 := h1.act (.run false) ⟨trivial, trivial⟩ rfl
  have h3 := h2.act (.run false) ⟨trivial, trivial⟩ rfl
  have h4 := h3.act (.run false) ⟨trivial, trivial⟩ rfl
  have h5 := h4.act (.run false) ⟨trivial, trivial⟩ rfl
  have h6 := h5.act (.closeGuard false) ⟨trivial, trivial⟩ rfl
  have h7 := h6.act (.openGuard false true) ⟨trivial, rfl⟩ rfl
  have h8 := h7.act (.run false) ⟨trivial, trivial⟩ rfl
  have h9 := h8.act (.run false) ⟨trivial, trivial⟩ rfl
  have h10 := h9.act (.read false ()) ⟨trivial, trivial⟩ rfl
  have h11 := h10.act (.update true () (some 1)) ⟨onePtr_fresh (by decide) (by decide), trivial⟩ rfl
  have h12 := h11.act (.run true) ⟨trivial, trivial⟩ rfl
  have h13 := scan_free (fun _ => ⟨trivial, trivial⟩) h12 (t := true) (n := 64)
    (show _ = Pc.scanInUse (true, 0) (some 0) 2 from rfl) (by decide) ?_
  · refine ⟨_, h13, rfl, rfl, ?_⟩
    intro hProt
    exact hProt.noDelete false ⟨(true, 0), [0]⟩ 0 true ⟨List.mem_cons_self, List.mem_cons_self⟩ rfl
  · intro j _
    simp [State.setPc, init]

end EmbLinux.Rcu
