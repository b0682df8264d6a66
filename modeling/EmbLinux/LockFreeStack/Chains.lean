import EmbLinux.Lib.Chain
import EmbLinux.Lib.Update
import EmbLinux.LockFreeStack.Steps

/-!
# EmbLinux — where the nodes of the stack are

`Chains Capacity s l` — the two heads start chains `l .head` and `l .freeHead`
that end at `kNullIndex`; every node below `Capacity` is on one of them or owned
by one running call; and what a call read of a chain still holds, unless the
head was exchanged since. The last part, `ReadOk`, is what keeps a stale pair of
a head and a next index from being installed.
-/

namespace EmbLinux.LockFreeStack

variable {τ α : Type*} [DecidableEq τ] {s s' : State τ α} {a : Action τ α} {t : τ}
  {Capacity : Nat} {l : Head → List Nat}

/-- The node that a call owns between its two loops. -/
def owned : Pc α → Option Nat
  | .data _ node | .clear node _ | .putLoad _ node _ | .putStore _ node _ _ _
  | .putCas _ node _ _ _ => some node
  | _ => none

/-- A call in its first loop owns no node, -/
theorem owned_of_readsTake {call : Call α} {pc : Pc α} (h : ReadsTake call pc) :
    owned pc = none := by
  cases pc <;> first | rfl | exact h.elim

/-- and in its second one it owns the node that it has taken. -/
theorem owned_of_readsPut {call : Call α} {node : Nat} {result : Option α} {pc : Pc α}
    (h : ReadsPut call node result pc) : owned pc = some node := by
  cases pc <;> first | exact h.elim | exact congrArg some h.2.1

/-- What a call knows about the head and the next index that it read. -/
def ReadOk (Capacity : Nat) (s : State τ α) : Pc (Numbered α) → Prop
  | .takeNext call old version =>
    old.index < Capacity ∧ version ≤ s.version call.takes ∧
      (version = s.version call.takes → s.heads call.takes = old)
  | .takeCas call old version next =>
    old.index < Capacity ∧ version ≤ s.version call.takes ∧
      (version = s.version call.takes → s.heads call.takes = old ∧ s.next old.index = next)
  | .putCas _ node _ old _ => s.next node = old.index
  | _ => True

/-- The two chains and the calls share the nodes out among them: each node is in one chain or
with one call. -/
structure Chains (Capacity : Nat) (s : State τ α) (l : Head → List Nat) : Prop where
  cap : Capacity ≤ kNullIndex
  /-- From each head the nodes of its chain lead to the null index. -/
  linked : ∀ h, Linked s.next kNullIndex (s.heads h).index (l h)
  bound : ∀ h, ∀ i ∈ l h, i < Capacity
  /-- No node is on both chains, -/
  disjoint : ∀ i ∈ l .head, i ∉ l .freeHead
  owned_bound : ∀ t i, owned (s.pc t) = some i → i < Capacity
  /-- one that a call owns is on none, -/
  owned_free : ∀ t i h, owned (s.pc t) = some i → i ∉ l h
  /-- and owned by this call only. -/
  owned_unique : ∀ t t' i, owned (s.pc t) = some i → owned (s.pc t') = some i → t = t'
  /-- Every node is at one of these places. -/
  cover : ∀ i, i < Capacity → (∃ h, i ∈ l h) ∨ ∃ t, owned (s.pc t) = some i
  /-- What a call has read is still so while the tag is the same. -/
  read : ∀ t, ReadOk Capacity s (s.pc t)

-- ---------------------------------------------------------------------------
-- The start
-- ---------------------------------------------------------------------------

omit [DecidableEq τ] in
/-- The chain that the constructor builds, from node `i` on. -/
theorem linked_init {i n : Nat} (hCap : Capacity ≤ kNullIndex) (hEnd : i + n + 1 = Capacity) :
    Linked (init τ α Capacity).next kNullIndex i (List.range' i (n + 1)) := by
  -- on the number of nodes behind `i`
  induction n generalizing i with
  | zero =>
    refine ⟨rfl, by omega, ?_⟩
    show (if i + 1 < Capacity then i + 1 else kNullIndex) = kNullIndex
    rw [if_neg (by omega)]
  | succ n ih =>
    refine ⟨rfl, by omega, ?_⟩
    show Linked _ _ (if i + 1 < Capacity then i + 1 else kNullIndex) _
    rw [if_pos (by omega)]
    exact ih (by omega)

omit [DecidableEq τ] in
/-- All nodes are in the free chain. -/
theorem chains_init (hPos : 0 < Capacity) (hCap : Capacity ≤ kNullIndex) :
    Chains Capacity (init τ α Capacity)
      (fun h => match h with | .head => [] | .freeHead => List.range' 0 Capacity) where
  cap := hCap
  linked := by
    intro h
    cases h with
    | head => rfl
    | freeHead =>
      have hLinked := linked_init (τ := τ) (α := α) (i := 0) (n := Capacity - 1) hCap (by omega)
      rwa [Nat.sub_add_cancel hPos] at hLinked
  bound := by
    intro h i hi
    cases h with
    | head => cases hi
    | freeHead => simpa using hi
  disjoint := by
    intro i hi
    cases hi
  owned_bound := by simp [init, owned]
  owned_free := by simp [init, owned]
  owned_unique := by simp [init, owned]
  cover := by
    intro i hi
    exact Or.inl ⟨.freeHead, by simpa using hi⟩
  read := fun _ => trivial

-- ---------------------------------------------------------------------------
-- Steps that leave the chains
-- ---------------------------------------------------------------------------

omit [DecidableEq τ] in
/-- Only the heads, the next indices and the versions decide what was read. -/
theorem ReadOk.congr {pc : Pc (Numbered α)} (h : ReadOk Capacity s pc) (hHeads : s'.heads = s.heads)
    (hNext : s'.next = s.next) (hVersion : s'.version = s.version) : ReadOk Capacity s' pc := by
  cases pc <;> simp only [ReadOk, hHeads, hNext, hVersion] at h ⊢ <;> exact h

/-- One thread moves; neither a head nor a next index changes, and the thread
owns what it owned. -/
theorem Chains.move (h : Chains Capacity s l) {pc : Pc (Numbered α)}
    (hPc : s'.pc = Function.update s.pc t pc) (hHeads : s'.heads = s.heads)
    (hNext : s'.next = s.next) (hVersion : s'.version = s.version)
    (hOwned : owned pc = owned (s.pc t)) (hRead : ReadOk Capacity s pc) : Chains Capacity s' l := by
  have hSame : ∀ u, owned (s'.pc u) = owned (s.pc u) := observe_update owned hPc hOwned
  refine ⟨h.cap, ?_, h.bound, h.disjoint, ?_, ?_, ?_, ?_, ?_⟩
  · rw [hHeads, hNext]
    exact h.linked
  · simpa only [hSame] using h.owned_bound
  · simpa only [hSame] using h.owned_free
  · simpa only [hSame] using h.owned_unique
  · simpa only [hSame] using h.cover
  · intro u
    exact (forall_of_update hPc h.read hRead u).congr hHeads hNext hVersion

section

omit [DecidableEq τ]

/-- A head that is not null names the front node of its chain. -/
theorem Chains.front (h : Chains Capacity s l) {hd : Head}
    (hNode : (s.heads hd).index ≠ kNullIndex) :
    ∃ rest, l hd = (s.heads hd).index :: rest ∧
      Linked s.next kNullIndex (s.next (s.heads hd).index) rest :=
  (h.linked hd).eq_cons hNode

/-- The free nodes are on no chain but one. -/
theorem Chains.not_mem_other (h : Chains Capacity s l) {hd hd' : Head} (hne : hd' ≠ hd) {i : Nat}
    (hi : i ∈ l hd) : i ∉ l hd' := by
  intro hi'
  cases hd <;> cases hd'
  · exact hne rfl
  · exact h.disjoint i hi hi'
  · exact h.disjoint i hi' hi
  · exact hne rfl

/-- The first node of a chain is one of the nodes. -/
theorem Chains.head_lt (h : Chains Capacity s l) {hd : Head}
    (hNode : (s.heads hd).index ≠ kNullIndex) : (s.heads hd).index < Capacity := by
  obtain ⟨rest, hl, -⟩ := h.front hNode
  exact h.bound hd _ (by rw [hl]; exact List.mem_cons_self)

end

-- ---------------------------------------------------------------------------
-- Steps that move a node
-- ---------------------------------------------------------------------------

omit [DecidableEq τ] in
/-- After an exchange, what was read of that head is out of date and says
nothing, and what was read of the other head stays. -/
theorem ReadOk.exchange {pc : Pc (Numbered α)} (h : ReadOk Capacity s pc) {hd : Head}
    {new : TaggedIndex} (hHeads : s'.heads = Function.update s.heads hd new)
    (hNext : s'.next = s.next)
    (hVersion : s'.version = Function.update s.version hd (s.version hd + 1)) :
    ReadOk Capacity s' pc := by
  have hLe : ∀ hd', s.version hd' ≤ s'.version hd' := by
    intro hd'
    rcases update_cases hVersion hd' with ⟨rfl, hNow⟩ | ⟨-, hNow⟩ <;> omega
  -- a version that is still current is that of the other head
  have hOther : ∀ hd' v, v ≤ s.version hd' → v = s'.version hd' →
      v = s.version hd' ∧ s'.heads hd' = s.heads hd' := by
    intro hd' v hv hv'
    rcases update_cases hVersion hd' with ⟨rfl, hNow⟩ | ⟨hne, hNow⟩
    · omega
    · exact ⟨hv'.trans hNow, by rw [hHeads, Function.update_of_ne hne]⟩
  cases pc with
  | takeNext call old version =>
    obtain ⟨hLt, hVer, hEq⟩ := h
    refine ⟨hLt, Nat.le_trans hVer (hLe _), ?_⟩
    intro hNow
    obtain ⟨hSame, hHead⟩ := hOther _ _ hVer hNow
    rw [hHead]
    exact hEq hSame
  | takeCas call old version next =>
    obtain ⟨hLt, hVer, hEq⟩ := h
    refine ⟨hLt, Nat.le_trans hVer (hLe _), ?_⟩
    intro hNow
    obtain ⟨hSame, hHead⟩ := hOther _ _ hVer hNow
    rw [hHead, hNext]
    exact hEq hSame
  | putCas call node result old version =>
    show s'.next node = old.index
    rw [hNext]
    exact h
  | _ => trivial

omit [DecidableEq τ] in
/-- A head that the exchange finds as expected was not exchanged since it was
loaded, so the next index that was read is still that of the front node. -/
theorem Chains.front_of_cas (h : Chains Capacity s l) {call : Call (Numbered α)}
    {old : TaggedIndex} {version next : Nat} (hpc : s.pc t = .takeCas call old version next)
    (hFresh : TagFresh s t) (hHead : s.heads call.takes = old) :
    ∃ rest, l call.takes = old.index :: rest ∧ Linked s.next kNullIndex next rest := by
  have hRead := h.read t
  rw [hpc] at hRead
  obtain ⟨hLt, -, hStill⟩ := hRead
  -- an exchange in between would have changed the tag
  have hVer : version = s.version call.takes := by
    by_contra hne
    exact hFresh call old version next hpc (Ne.symm hne) (by rw [hHead])
  have hNode : (s.heads call.takes).index ≠ kNullIndex := by
    have := h.cap
    rw [hHead]
    omega
  obtain ⟨rest, hl, hRest⟩ := h.front hNode
  rw [hHead] at hl hRest
  rw [(hStill hVer).2] at hRest
  exact ⟨rest, hl, hRest⟩

/-- The exchange that takes a node: the front node of the chain becomes the
thread's, and the head names the node behind it. -/
theorem Chains.take (h : Chains Capacity s l) {call : Call (Numbered α)} {old : TaggedIndex}
    {version next tag : Nat} {rest : List Nat} (hpc : s.pc t = .takeCas call old version next)
    (hl : l call.takes = old.index :: rest) (hRest : Linked s.next kNullIndex next rest)
    (hPc : s'.pc = Function.update s.pc t (.data call old.index))
    (hHeads : s'.heads = Function.update s.heads call.takes ⟨next, tag⟩)
    (hNext : s'.next = s.next)
    (hVersion : s'.version =
      Function.update s.version call.takes (s.version call.takes + 1)) :
    Chains Capacity s' (Function.update l call.takes rest) := by
  have hFront : old.index ∈ l call.takes := by rw [hl]; exact List.mem_cons_self
  have hNodup : old.index ∉ rest := by
    have := (h.linked call.takes).nodup
    rw [hl] at this
    exact (List.nodup_cons.mp this).1
  -- nodes of the new chains are nodes of the old ones, and not the one taken
  have hMem : ∀ hd i, i ∈ Function.update l call.takes rest hd → i ∈ l hd ∧ i ≠ old.index := by
    intro hd i hi
    rcases update_at l call.takes rest hd with ⟨rfl, hChain⟩ | ⟨hne, hChain⟩ <;> rw [hChain] at hi
    · exact ⟨by rw [hl]; exact List.mem_cons_of_mem _ hi, ne_of_mem_of_not_mem hi hNodup⟩
    · exact ⟨hi, ne_of_mem_of_not_mem hi (h.not_mem_other hne hFront)⟩
  -- a node that a thread owns now is the one taken, or was owned before
  have hOwned : ∀ u i, owned (s'.pc u) = some i →
      (u = t ∧ i = old.index) ∨ (u ≠ t ∧ owned (s.pc u) = some i) := by
    intro u i hu
    rcases update_cases hPc u with ⟨hut, hAt⟩ | ⟨hut, hAt⟩ <;> rw [hAt] at hu
    · exact Or.inl ⟨hut, (Option.some.inj hu).symm⟩
    · exact Or.inr ⟨hut, hu⟩
  refine ⟨h.cap, ?_, ?_, ?_, ?_, ?_, ?_, ?_, ?_⟩
  · -- the head names the node behind the one taken
    intro hd
    rw [hNext, hHeads]
    by_cases hEq : hd = call.takes
    · subst hEq
      rw [Function.update_self, Function.update_self]
      exact hRest
    · rw [Function.update_of_ne hEq, Function.update_of_ne hEq]
      exact h.linked hd
  · intro hd i hi
    exact h.bound hd i (hMem hd i hi).1
  · intro i hi hi'
    exact h.disjoint i (hMem _ i hi).1 (hMem _ i hi').1
  · -- the taken node is one of the pool
    intro u i hu
    rcases hOwned u i hu with ⟨-, rfl⟩ | ⟨-, hu⟩
    · exact h.bound _ _ hFront
    · exact h.owned_bound u i hu
  · -- and on no chain any more
    intro u i hd hu hi
    rcases hOwned u i hu with ⟨-, rfl⟩ | ⟨-, hu⟩
    · exact (hMem hd _ hi).2 rfl
    · exact h.owned_free u i hd hu (hMem hd i hi).1
  · -- nobody owned a node of a chain
    intro u u' i hu hu'
    rcases hOwned u i hu with ⟨hut, hi⟩ | ⟨-, hu⟩ <;>
      rcases hOwned u' i hu' with ⟨hut', hi'⟩ | ⟨-, hu'⟩
    · rw [hut, hut']
    · subst hi
      exact absurd hFront (h.owned_free u' _ _ hu')
    · subst hi'
      exact absurd hFront (h.owned_free u _ _ hu)
    · exact h.owned_unique u u' i hu hu'
  · -- every other node is where it was
    intro i hi
    by_cases hEq : i = old.index
    · refine Or.inr ⟨t, ?_⟩
      rw [hPc, Function.update_self, hEq]
      rfl
    rcases h.cover i hi with ⟨hd, hMemHd⟩ | ⟨u, hu⟩
    · refine Or.inl ⟨hd, ?_⟩
      by_cases hHd : hd = call.takes
      · subst hHd
        rw [hl] at hMemHd
        rw [Function.update_self]
        exact (List.mem_cons.mp hMemHd).resolve_left hEq
      · rwa [Function.update_of_ne hHd]
    · refine Or.inr ⟨u, ?_⟩
      have hut : u ≠ t := by
        rintro rfl
        rw [hpc] at hu
        cases hu
      rwa [hPc, Function.update_of_ne hut]
  · -- what was read of the head is out of date
    intro u
    rcases update_cases hPc u with ⟨-, hAt⟩ | ⟨-, hAt⟩ <;> rw [hAt]
    · trivial
    · exact (h.read u).exchange hHeads hNext hVersion

/-- The store to the next index of the own node, which is on no chain. -/
theorem Chains.store (h : Chains Capacity s l) {call : Call (Numbered α)} {node : Nat}
    {result : Option (Numbered α)} {old : TaggedIndex} {version : Nat}
    (hpc : s.pc t = .putStore call node result old version)
    (hPc : s'.pc = Function.update s.pc t (.putCas call node result old version))
    (hHeads : s'.heads = s.heads) (hNext : s'.next = Function.update s.next node old.index)
    (hVersion : s'.version = s.version) : Chains Capacity s' l := by
  have hHere : owned (s.pc t) = some node := by rw [hpc]; rfl
  have hSame : ∀ u, owned (s'.pc u) = owned (s.pc u) := observe_update owned hPc hHere.symm
  refine ⟨h.cap, ?_, h.bound, h.disjoint, ?_, ?_, ?_, ?_, ?_⟩
  · -- a store to a node outside of them leaves the chains
    intro hd
    rw [hHeads, hNext]
    exact (h.linked hd).update (h.owned_free t node hd hHere) _
  · simpa only [hSame] using h.owned_bound
  · simpa only [hSame] using h.owned_free
  · simpa only [hSame] using h.owned_unique
  · simpa only [hSame] using h.cover
  · -- what the others read is not about the own node
    intro u
    rcases update_cases hPc u with ⟨-, hAt⟩ | ⟨hut, hAt⟩ <;> rw [hAt]
    · show s'.next node = old.index
      rw [hNext, Function.update_self]
    have hRead := h.read u
    cases hu : s.pc u with
    | takeNext call' old' version' =>
      rw [hu] at hRead
      simpa only [ReadOk, hHeads, hVersion] using hRead
    | takeCas call' old' version' next' =>
      rw [hu] at hRead
      obtain ⟨hLt, hVer, hStill⟩ := hRead
      refine ⟨hLt, by rwa [hVersion], ?_⟩
      intro hNow
      rw [hVersion] at hNow
      obtain ⟨hHead, hNextOld⟩ := hStill hNow
      refine ⟨by rwa [hHeads], ?_⟩
      -- the front node of a chain is not the thread's own
      have hne : old'.index ≠ node := by
        rintro rfl
        have hNode : (s.heads call'.takes).index ≠ kNullIndex := by
          have := h.cap
          rw [hHead]
          omega
        obtain ⟨rest, hl, -⟩ := h.front hNode
        rw [hHead] at hl
        exact h.owned_free t _ call'.takes hHere (by rw [hl]; exact List.mem_cons_self)
      rw [hNext, Function.update_of_ne hne]
      exact hNextOld
    | putCas call' node' result' old' version' =>
      rw [hu] at hRead
      have hne : node' ≠ node := by
        rintro rfl
        exact hut (h.owned_unique u t node' (by rw [hu]; rfl) hHere)
      show s'.next node' = old'.index
      rw [hNext, Function.update_of_ne hne]
      exact hRead
    | _ => trivial

/-- The exchange that puts a node: it stands in front of the chain that its next
index names. -/
theorem Chains.put (h : Chains Capacity s l) {call : Call (Numbered α)} {node : Nat}
    {result : Option (Numbered α)} {old : TaggedIndex} {version tag : Nat}
    {last : Option (Ret (Numbered α))}
    (hpc : s.pc t = .putCas call node result old version) (hHead : s.heads call.puts = old)
    (hPc : s'.pc = Function.update s.pc t (.idle last))
    (hHeads : s'.heads = Function.update s.heads call.puts ⟨node, tag⟩)
    (hNext : s'.next = s.next)
    (hVersion : s'.version = Function.update s.version call.puts (s.version call.puts + 1)) :
    Chains Capacity s' (Function.update l call.puts (node :: l call.puts)) := by
  have hHere : owned (s.pc t) = some node := by rw [hpc]; rfl
  have hRead := h.read t
  rw [hpc] at hRead
  have hLt := h.owned_bound t node hHere
  -- a node of the new chains is the one put, or a node of the old ones
  have hMem : ∀ hd i, i ∈ Function.update l call.puts (node :: l call.puts) hd →
      i = node ∧ hd = call.puts ∨ i ∈ l hd := by
    intro hd i hi
    rcases update_at l call.puts (node :: l call.puts) hd with ⟨rfl, hChain⟩ | ⟨-, hChain⟩ <;>
      rw [hChain] at hi
    · rcases List.mem_cons.mp hi with hi | hi
      · exact Or.inl ⟨hi, rfl⟩
      · exact Or.inr hi
    · exact Or.inr hi
  have hOwned : ∀ u i, owned (s'.pc u) = some i → u ≠ t ∧ owned (s.pc u) = some i := by
    intro u i hu
    rcases update_cases hPc u with ⟨-, hAt⟩ | ⟨hut, hAt⟩ <;> rw [hAt] at hu
    · exact absurd hu.symm (Option.some_ne_none i)
    · exact ⟨hut, hu⟩
  refine ⟨h.cap, ?_, ?_, ?_, ?_, ?_, ?_, ?_, ?_⟩
  · -- the node stands in front of the chain that the head named
    intro hd
    rw [hNext, hHeads]
    by_cases hEq : hd = call.puts
    · subst hEq
      have hFront : Linked s.next kNullIndex (s.next node) (l call.puts) := by
        rw [show s.next node = old.index from hRead, ← hHead]
        exact h.linked call.puts
      have hNode : node ≠ kNullIndex := by
        have := h.cap
        omega
      rw [Function.update_self, Function.update_self]
      exact hFront.cons hNode
    · rw [Function.update_of_ne hEq, Function.update_of_ne hEq]
      exact h.linked hd
  · intro hd i hi
    rcases hMem hd i hi with ⟨rfl, -⟩ | hi
    · exact hLt
    · exact h.bound hd i hi
  · -- it was on no chain before
    intro i hi hi'
    rcases hMem _ i hi with ⟨hNode, hHd⟩ | hi <;> rcases hMem _ i hi' with ⟨hNode', hHd'⟩ | hi'
    · rw [← hHd'] at hHd
      cases hHd
    · exact h.owned_free t node _ hHere (hNode ▸ hi')
    · exact h.owned_free t node _ hHere (hNode' ▸ hi)
    · exact h.disjoint i hi hi'
  · intro u i hu
    exact h.owned_bound u i (hOwned u i hu).2
  · -- and the thread gave it up
    intro u i hd hu hi
    obtain ⟨hut, hu⟩ := hOwned u i hu
    rcases hMem hd i hi with ⟨rfl, -⟩ | hi
    · exact hut (h.owned_unique u t i hu hHere)
    · exact h.owned_free u i hd hu hi
  · intro u u' i hu hu'
    exact h.owned_unique u u' i (hOwned u i hu).2 (hOwned u' i hu').2
  · -- every other node is where it was
    intro i hi
    by_cases hEq : i = node
    · refine Or.inl ⟨call.puts, ?_⟩
      rw [Function.update_self, hEq]
      exact List.mem_cons_self
    rcases h.cover i hi with ⟨hd, hMemHd⟩ | ⟨u, hu⟩
    · refine Or.inl ⟨hd, ?_⟩
      by_cases hHd : hd = call.puts
      · subst hHd
        rw [Function.update_self]
        exact List.mem_cons_of_mem _ hMemHd
      · rwa [Function.update_of_ne hHd]
    · refine Or.inr ⟨u, ?_⟩
      have hut : u ≠ t := by
        rintro rfl
        rw [hHere] at hu
        exact hEq (Option.some.inj hu).symm
      rwa [hPc, Function.update_of_ne hut]
  · -- what was read of the head is out of date
    intro u
    rcases update_cases hPc u with ⟨-, hAt⟩ | ⟨-, hAt⟩ <;> rw [hAt]
    · trivial
    · exact (h.read u).exchange hHeads hNext hVersion

end EmbLinux.LockFreeStack
