import EmbLinux.Lib.Chain
import EmbLinux.Lib.Update

/-!
# EmbLinux — chains that share their nodes

Several singly linked lists over one memory, each with its own start, such as a
list that threads share and the parts of it that they took off. `place` says for
each node on which chain it is, if on any. So a node is on one chain at most, and
a store to a node that is on none touches none.

* `store` — a store to a node that is on no chain.
* `push`, `pop` — a node enters a chain at its start or leaves it there.
* `moveAll` — a whole chain is taken to another start.
-/

namespace EmbLinux

variable {ι κ : Type*}

/-- The chain from `start k` runs through exactly the nodes that are placed on
`k`. -/
def ChainFamily (next : ι → ι) (stop : ι) (start : κ → ι) (place : ι → Option κ) : Prop :=
  ∀ k, ∃ l, Linked next stop (start k) l ∧ ∀ i, i ∈ l ↔ place i = some k

namespace ChainFamily

variable {next next' : ι → ι} {stop : ι} {start : κ → ι} {place : ι → Option κ} {i : ι}
  {k k' : κ}

/-- The members of a chain are the nodes placed on it. -/
theorem mem_iff (h : ChainFamily next stop start place) {l : List ι}
    (hl : Linked next stop (start k) l) : i ∈ l ↔ place i = some k := by
  obtain ⟨l', hl', hMem⟩ := h k
  rw [hl.unique hl']
  exact hMem i

/-- The node at the start of a chain is placed on it. -/
theorem place_start (h : ChainFamily next stop start place) (hne : start k ≠ stop) :
    place (start k) = some k := by
  obtain ⟨l, hl, hMem⟩ := h k
  obtain ⟨rest, rfl, -⟩ := hl.eq_cons hne
  exact (hMem _).mp List.mem_cons_self

variable [DecidableEq ι]

/-- A store to a node that is on no chain. -/
theorem store (h : ChainFamily next stop start place) (hi : place i = none) (j : ι) :
    ChainFamily (Function.update next i j) stop start place := by
  intro k
  obtain ⟨l, hl, hMem⟩ := h k
  refine ⟨l, hl.update ?_ j, hMem⟩
  rw [hMem, hi]
  exact nofun

variable [DecidableEq κ]

/-- Taking the node at the start off a chain. -/
theorem pop (h : ChainFamily next stop start place) (hne : start k ≠ stop) :
    ChainFamily next stop (Function.update start k (next (start k)))
      (Function.update place (start k) none) := by
  intro k'
  obtain ⟨l, hl, hMem⟩ := h k'
  by_cases hk : k' = k
  · subst hk
    obtain ⟨rest, rfl, hRest⟩ := hl.eq_cons hne
    have hFront := (List.nodup_cons.mp hl.nodup).1
    rw [Function.update_self]
    refine ⟨rest, hRest, ?_⟩
    intro i
    rcases update_at place (start k') none i with ⟨rfl, hAt⟩ | ⟨hi, hAt⟩ <;> rw [hAt]
    · exact ⟨fun hMem' => absurd hMem' hFront, nofun⟩
    · rw [← hMem i, List.mem_cons]
      exact ⟨Or.inr, fun hCons => hCons.resolve_left hi⟩
  · rw [Function.update_of_ne hk]
    refine ⟨l, hl, ?_⟩
    intro i
    rcases update_at place (start k) none i with ⟨rfl, hAt⟩ | ⟨-, hAt⟩ <;> rw [hAt]
    · rw [hMem, h.place_start hne]
      exact ⟨fun hEq => absurd (Option.some.inj hEq).symm hk, nofun⟩
    · exact hMem i

/-- Putting a node in front of a chain. -/
theorem push (h : ChainFamily next stop start place) (hStop : i ≠ stop) (hi : place i = none)
    (hNext : next i = start k) :
    ChainFamily next stop (Function.update start k i) (Function.update place i (some k)) := by
  intro k'
  obtain ⟨l, hl, hMem⟩ := h k'
  have hOut : i ∉ l := by
    rw [hMem, hi]
    exact nofun
  by_cases hk : k' = k
  · subst hk
    rw [Function.update_self]
    refine ⟨i :: l, Linked.cons hStop (hNext ▸ hl), ?_⟩
    intro j
    rw [List.mem_cons]
    rcases update_at place i (some k') j with ⟨rfl, hAt⟩ | ⟨hj, hAt⟩ <;> rw [hAt]
    · exact ⟨fun _ => rfl, fun _ => Or.inl rfl⟩
    · rw [← hMem j]
      exact ⟨fun hOr => hOr.resolve_left hj, Or.inr⟩
  · rw [Function.update_of_ne hk]
    refine ⟨l, hl, ?_⟩
    intro j
    rcases update_at place i (some k) j with ⟨rfl, hAt⟩ | ⟨-, hAt⟩ <;> rw [hAt]
    · exact ⟨fun hMem' => absurd hMem' hOut, fun hEq => absurd (Option.some.inj hEq).symm hk⟩
    · exact hMem j

omit [DecidableEq ι] in
/-- Moving a whole chain to an empty one. -/
theorem moveAll (h : ChainFamily next stop start place) (hEmpty : start k' = stop) (hne : k ≠ k') :
    ChainFamily next stop (Function.update (Function.update start k stop) k' (start k))
      (fun i => if place i = some k then some k' else place i) := by
  have hNone : ∀ i, place i ≠ some k' := by
    intro i hi
    obtain ⟨l, hl, hMem⟩ := h k'
    rw [hEmpty] at hl
    obtain rfl := hl.eq_nil
    exact List.not_mem_nil ((hMem i).mpr hi)
  intro k''
  by_cases hk' : k'' = k'
  · subst hk'
    obtain ⟨l, hl, hMem⟩ := h k
    rw [Function.update_self]
    refine ⟨l, hl, ?_⟩
    intro i
    rw [hMem]
    by_cases hi : place i = some k
    · simp [hi]
    · simp [hi, hNone i]
  rw [Function.update_of_ne hk']
  by_cases hk : k'' = k
  · subst hk
    rw [Function.update_self]
    refine ⟨[], rfl, ?_⟩
    intro i
    by_cases hi : place i = some k''
    · simp [hi, Ne.symm hne]
    · simp [hi]
  · rw [Function.update_of_ne hk]
    obtain ⟨l, hl, hMem⟩ := h k''
    refine ⟨l, hl, ?_⟩
    intro i
    rw [hMem]
    by_cases hi : place i = some k
    · simp [hi, Ne.symm hk, Ne.symm hk']
    · simp [hi]

end ChainFamily

end EmbLinux
