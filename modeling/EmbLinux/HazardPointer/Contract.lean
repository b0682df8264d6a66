import EmbLinux.HazardPointer.Reclaim

/-!
# EmbLinux — the contract of hazard-pointer reclamation

`reclaim_contract` gathers the invariants: every retired object is in exactly one
place and is deleted at most once, no object is deleted while a slot has held it
since before it was retired, and no slot has two owners.

What the callers owe is that an object is retired once. Since when a slot has held an object is
history of the model.
-/

namespace EmbLinux.HazardPointer

variable {τ ο π : Type*} [DecidableEq τ] [DecidableEq ο] [DecidableEq π] {addr : ο → π}
  {s s' : State τ ο π} {a : Action τ ο π} {t : τ} {o : ο} {place : Nat → Option (Option τ)}

/-- Where a retired object can be: in the list from `g_nodes_to_reclaim`, with a
thread that reclaims or adds it, or deleted. -/
inductive Place (τ : Type*)
  | shared
  | withThread (t : τ)
  | deleted

/-- The places of a retired object: in the shared list, with a thread that reclaims, or deleted.
-/
def At (s : State τ ο π) (o : ο) : Place τ → Prop
  | .shared => ∃ n l, s.object n = some o ∧ Linked s.next 0 s.nodesToReclaim l ∧ n ∈ l
  | .withThread t =>
    ∃ n, s.object n = some o ∧
      ((s.pc t).hand = some n ∨ ∃ l, Linked s.next 0 (s.pc t).rest l ∧ n ∈ l)
  | .deleted => o ∈ s.deleted

-- ---------------------------------------------------------------------------
-- One place for each object
-- ---------------------------------------------------------------------------

omit [DecidableEq τ] [DecidableEq ο] [DecidableEq π] in
/-- What `At` says of the node of an object. -/
theorem at_iff (hP : Placed s place) (hR : Recorded addr s) {n : Nat}
    (hn : s.object n = some o) (p : Place τ) :
    At s o p ↔ (p = .shared ∧ place n = some none) ∨
      ∃ t, p = .withThread t ∧ ((s.pc t).hand = some n ∨ place n = some (some t)) := by
  have hChain : ∀ k l, Linked s.next 0 (starts s k) l → (n ∈ l ↔ place n = some k) :=
    fun k l hl => hP.chains.mem_iff hl
  have hHas : ∀ k, place n = some k → ∃ l, Linked s.next 0 (starts s k) l ∧ n ∈ l := by
    intro k hk
    obtain ⟨l, hl, hMem⟩ := hP.chains k
    exact ⟨l, hl, (hMem n).mpr hk⟩
  cases p with
  | shared =>
    constructor
    · rintro ⟨m, l, hm, hl, hMem⟩
      rw [hR.node m n o hm hn] at hMem
      exact Or.inl ⟨rfl, (hChain none l hl).mp hMem⟩
    · rintro (⟨-, hk⟩ | ⟨t, hEq, -⟩)
      · obtain ⟨l, hl, hMem⟩ := hHas none hk
        exact ⟨n, l, hn, hl, hMem⟩
      · cases hEq
  | withThread t =>
    constructor
    · rintro ⟨m, hm, hWhere⟩
      rw [hR.node m n o hm hn] at hWhere
      refine Or.inr ⟨t, rfl, hWhere.imp_right ?_⟩
      rintro ⟨l, hl, hMem⟩
      exact (hChain (some t) l hl).mp hMem
    · rintro (⟨hEq, -⟩ | ⟨u, hEq, hWhere⟩)
      · cases hEq
      · cases hEq
        exact ⟨n, hn, hWhere.imp_right (hHas (some t))⟩
  | deleted =>
    constructor
    · exact fun hMem => absurd hMem (hR.present n o hn).2
    · rintro (⟨hEq, -⟩ | ⟨t, hEq, -⟩) <;> cases hEq

omit [DecidableEq τ] [DecidableEq ο] [DecidableEq π] in
/-- It is in exactly one of them. -/
theorem one_place (hP : Placed s place) (hR : Recorded addr s) (ho : o ∈ s.retired) :
    ∃! p, At s o p := by
  rcases hR.gone o ho with ⟨n, hn⟩ | hDeleted
  · have hLive : s.object n ≠ none := by rw [hn]; exact nofun
    by_cases hPlace : place n = none
    · -- in the hands of a thread
      obtain ⟨t, ht⟩ := (hP.cover n hLive).resolve_left (fun hNe => hNe hPlace)
      refine ⟨.withThread t, (at_iff hP hR hn _).mpr (Or.inr ⟨t, rfl, Or.inl ht⟩), ?_⟩
      intro p hp
      rcases (at_iff hP hR hn p).mp hp with ⟨-, hk⟩ | ⟨u, rfl, hHand | hk⟩
      · rw [hPlace] at hk
        cases hk
      · rw [hP.handUnique u t n hHand ht]
      · rw [hPlace] at hk
        cases hk
    · obtain ⟨k, hk⟩ := Option.ne_none_iff_exists'.mp hPlace
      have hNoHand : ∀ u, (s.pc u).hand ≠ some n :=
        fun u hu => hPlace (hP.hand u n hu).2.1
      cases k with
      | none =>
        refine ⟨.shared, (at_iff hP hR hn _).mpr (Or.inl ⟨rfl, hk⟩), ?_⟩
        intro p hp
        rcases (at_iff hP hR hn p).mp hp with ⟨rfl, -⟩ | ⟨u, rfl, hHand | hk'⟩
        · rfl
        · exact absurd hHand (hNoHand u)
        · rw [hk] at hk'
          cases hk'
      | some t =>
        refine ⟨.withThread t, (at_iff hP hR hn _).mpr (Or.inr ⟨t, rfl, Or.inr hk⟩), ?_⟩
        intro p hp
        rcases (at_iff hP hR hn p).mp hp with ⟨-, hk'⟩ | ⟨u, rfl, hHand | hk'⟩
        · rw [hk] at hk'
          cases hk'
        · exact absurd hHand (hNoHand u)
        · rw [hk] at hk'
          cases hk'
          rfl
  · refine ⟨.deleted, hDeleted, ?_⟩
    -- a deleted object has no node
    have hNone : ∀ n, s.object n ≠ some o := fun n hn => (hR.present n o hn).2 hDeleted
    intro p hp
    cases p with
    | shared =>
      obtain ⟨n, -, hn, -⟩ := hp
      exact absurd hn (hNone n)
    | withThread t =>
      obtain ⟨n, hn, -⟩ := hp
      exact absurd hn (hNone n)
    | deleted => rfl

-- ---------------------------------------------------------------------------
-- The contract
-- ---------------------------------------------------------------------------

/-- What the reclamation promises in every state. -/
structure ReclaimContract (addr : ο → π) (s : State τ ο π) : Prop where
  /-- Every retired object is in exactly one place, in one node. -/
  place : ∀ o ∈ s.retired, ∃! p, At s o p
  node : ∀ n m o, s.object n = some o → s.object m = some o → n = m
  /-- It is deleted at most once. -/
  once : s.deleted.Nodup
  /-- What is deleted next is a retired object that was not deleted yet, and that
  no slot has held since before it was retired. -/
  safe : ∀ t current next, s.pc t = .delete current next →
    ∃ o, s.object current = some o ∧ s.data current = some (addr o) ∧ o ∈ s.retired ∧
      o ∉ s.deleted ∧ ∀ i, i < kMaxHazardPointers → s.held o i = false
  /-- The threads own different slots, each once. -/
  slots : ∀ t u i, i ∈ s.slots t → i ∈ s.slots u → t = u
  slotsOnce : ∀ t, (s.slots t).Nodup

/-- **Hazard-pointer reclamation is safe and loses nothing**, in every interleaving in which
each object is retired once. Slots are acquired and given back at any time and by any thread,
and an address may be used again after its object is deleted; an object that is retired twice
would be deleted twice, which no user of the class may ask for. -/
theorem reclaim_contract (h : (system τ addr).ReachableWhere RetiredOnce s) :
    ReclaimContract addr s := by
  have hInv : (∃ place, Placed s place) ∧ Recorded addr s ∧ Slots s ∧ Guarded addr s := by
    refine h.invariant
      (I := fun s => (∃ place, Placed s place) ∧ Recorded addr s ∧ Slots s ∧ Guarded addr s)
      ⟨⟨_, placed_init⟩, recorded_init, slots_init, guarded_init⟩ ?_
    rintro s a s' - ⟨⟨place, hP⟩, hR, hS, hG⟩ hOnce hst
    exact ⟨placed_step hP hst, recorded_step hP hR hOnce hst, slots_step hS hst,
      guarded_step hP hR hG hst⟩
  obtain ⟨⟨place, hP⟩, hR, hS, hG⟩ := hInv
  refine ⟨fun o ho => one_place hP hR ho, hR.node, hR.once, ?_, ?_, hS.nodup⟩
  · intro t current next hpc
    obtain ⟨-, -, hLive⟩ := hP.hand t current (by rw [hpc]; rfl)
    obtain ⟨o, ho⟩ := Option.ne_none_iff_exists'.mp hLive
    obtain ⟨hIn, hOut⟩ := hR.present current o ho
    exact ⟨o, ho, hR.data current o ho, hIn, hOut,
      hG.scanned t current kMaxHazardPointers (by rw [hpc]; rfl) o ho⟩
  · intro t u i ht hu
    rw [hS.owner] at ht hu
    exact Option.some.inj (ht.symm.trans hu)

/-- A slot holds object 1 from before it is retired, so a reclaimer deletes object
2 and adds object 1 again. -/
theorem reclaim_contract_held :
    ∃ s : State Bool Nat Nat, (system Bool fun o : Nat => o).ReachableWhere RetiredOnce s ∧
      s.deleted = [2] ∧ s.held 1 0 = true ∧ s.nodesToReclaim = 8 ∧
      ReclaimContract (fun o : Nat => o) s := by
  obtain ⟨s, hs, hp⟩ := System.exists_reachableWhere_of_exec
    (S := system Bool fun o : Nat => o)
    (c := fun s a => decide (RetiredOnce s a)) (fun _ _ => of_decide_eq_true)
    (p := fun s => s.deleted = [2] ∧ s.held 1 0 = true ∧ s.nodesToReclaim = 8)
    ([Action.acquire true, Action.run true false, Action.store true 0 (some 1),
      Action.retire false 1 8, Action.run false false, Action.run false true,
      Action.run false false, Action.retire false 2 9, Action.run false false,
      Action.run false false, Action.reclaim false, Action.run false false,
      Action.run false false] ++ List.replicate 101 (Action.run false false) ++
      List.replicate 4 (Action.run false false))
    (by decide +kernel)
  exact ⟨s, hs, hp.1, hp.2.1, hp.2.2, reclaim_contract hs⟩

end EmbLinux.HazardPointer
