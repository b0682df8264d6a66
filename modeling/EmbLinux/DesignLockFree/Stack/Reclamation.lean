import EmbLinux.DesignLockFree.Stack.Counts

/-!
# EmbLinux — reclamation in `lock_free_stack`

`Serials` follows the nodes through the reuse of their addresses: which of them were
taken off the stack and which were deleted. `Inv s l` puts the nodes, the counts and the
numbers together, `inv_effect` is the step lemma, and `ReclamationContract` what follows
for every state that is reached.
-/

namespace EmbLinux.DesignLockFree.Stack

variable {τ α : Type*} [DecidableEq τ] {s s' : State τ α} {a : Action τ α} {t : τ} {l : List Nat}

-- ---------------------------------------------------------------------------
-- Nodes by number
-- ---------------------------------------------------------------------------

/-- Each `new` has a serial number of its own, so that a node is told from a later one at its
address. -/
structure Serials (s : State τ α) (l : List Nat) : Prop where
  lt : ∀ p, s.allocated p = true → s.serial p < s.news
  /-- Two nodes that exist have two numbers. -/
  inj : ∀ p q, s.allocated p = true → s.allocated q = true → s.serial p = s.serial q → p = q
  removedLt : ∀ n ∈ s.removed, n < s.news
  /-- A number was taken off if its node is neither on the stack nor new. -/
  removed : ∀ p, s.allocated p = true →
    (s.serial p ∈ s.removed ↔ p ∉ l ∧ ∀ t, s.owned t ≠ some p)
  removedNodup : s.removed.Nodup
  /-- What was deleted was taken off, and its node is gone, -/
  deleted : ∀ n ∈ s.deleted, n ∈ s.removed ∧ ∀ p, s.allocated p = true → s.serial p ≠ n
  deletedNodup : s.deleted.Nodup
  /-- and what was taken off is deleted or still there. -/
  pending : ∀ n ∈ s.removed, n ∈ s.deleted ∨ ∃ p, s.allocated p = true ∧ s.serial p = n
  /-- The number that a thread noted is the one of the node it holds or deletes, -/
  taken : ∀ t p, s.held t = some p ∨ s.deleting t = some p → s.serial p = s.taken t
  /-- and of the node it made. -/
  made : ∀ t p, s.owned t = some p → s.serial p = s.made t

/-- No node is made, removed or deleted. -/
structure SameSerials (s s' : State τ α) : Prop where
  allocated : s'.allocated = s.allocated
  serial : s'.serial = s.serial
  news : s'.news = s.news
  removed : s'.removed = s.removed
  deleted : s'.deleted = s.deleted
  made : s'.made = s.made

namespace Serials

section

omit [DecidableEq τ]

/-- It depends on the serial numbers and on who holds which node only. -/
theorem keep (h : Serials s l) (hSame : SameSerials s s') (hOwned : s'.owned = s.owned)
    (hTaken : ∀ t p, s'.held t = some p ∨ s'.deleting t = some p → s.serial p = s'.taken t) :
    Serials s' l := by
  refine ⟨?_, ?_, ?_, ?_, ?_, ?_, ?_, ?_, ?_, ?_⟩
  · rw [hSame.allocated, hSame.serial, hSame.news]
    exact h.lt
  · rw [hSame.allocated, hSame.serial]
    exact h.inj
  · rw [hSame.removed, hSame.news]
    exact h.removedLt
  · rw [hSame.allocated, hSame.serial, hSame.removed, hOwned]
    exact h.removed
  · rw [hSame.removed]
    exact h.removedNodup
  · rw [hSame.deleted, hSame.removed, hSame.allocated, hSame.serial]
    exact h.deleted
  · rw [hSame.deleted]
    exact h.deletedNodup
  · rw [hSame.removed, hSame.deleted, hSame.allocated, hSame.serial]
    exact h.pending
  · rw [hSame.serial]
    exact hTaken
  · rw [hOwned, hSame.serial, hSame.made]
    exact h.made

/-- A `pop` takes the top node off. -/
theorem popCas {p : Nat} {rest : List Nat} (h : Serials s (p :: rest)) (hOut : p ∉ rest)
    (hAlloc : s.allocated p = true) (hNotOwned : ∀ u, s.owned u ≠ some p)
    (hAllocated : s'.allocated = s.allocated) (hSerial : s'.serial = s.serial)
    (hNews : s'.news = s.news) (hRemoved : s'.removed = s.removed ++ [s.serial p])
    (hDeleted : s'.deleted = s.deleted) (hMade : s'.made = s.made) (hOwned : s'.owned = s.owned)
    (hTaken : s'.taken = s.taken) (hHeld : s'.held = s.held)
    (hDeleting : s'.deleting = s.deleting) :
    Serials s' rest := by
  have hNew : s.serial p ∉ s.removed :=
    fun hMem => ((h.removed p hAlloc).mp hMem).1 List.mem_cons_self
  refine ⟨?_, ?_, ?_, ?_, ?_, ?_, ?_, ?_, ?_, ?_⟩
  · rw [hAllocated, hSerial, hNews]
    exact h.lt
  · rw [hAllocated, hSerial]
    exact h.inj
  · rw [hRemoved, hNews]
    intro n hn
    rcases List.mem_append.mp hn with hn | hn
    · exact h.removedLt n hn
    · rw [List.mem_singleton.mp hn]
      exact h.lt p hAlloc
  · rw [hAllocated, hSerial, hRemoved, hOwned]
    intro q hq
    rw [List.mem_append, List.mem_singleton, h.removed q hq, List.mem_cons, not_or]
    by_cases hqp : q = p
    · rw [hqp]
      exact ⟨fun _ => ⟨hOut, hNotOwned⟩, fun _ => Or.inr rfl⟩
    · have hne : s.serial q ≠ s.serial p := fun hEq => hqp (h.inj q p hq hAlloc hEq)
      simp [hqp, hne]
  · rw [hRemoved]
    refine List.nodup_append'.mpr ⟨h.removedNodup, List.nodup_singleton _, ?_⟩
    intro n hn hn'
    exact hNew (List.mem_singleton.mp hn' ▸ hn)
  · rw [hDeleted, hRemoved, hAllocated, hSerial]
    intro n hn
    exact ⟨List.mem_append_left _ (h.deleted n hn).1, (h.deleted n hn).2⟩
  · rw [hDeleted]
    exact h.deletedNodup
  · rw [hRemoved, hDeleted, hAllocated, hSerial]
    intro n hn
    rcases List.mem_append.mp hn with hn | hn
    · exact h.pending n hn
    · exact Or.inr ⟨p, hAlloc, (List.mem_singleton.mp hn).symm⟩
  · rw [hHeld, hDeleting, hSerial, hTaken]
    exact h.taken
  · rw [hOwned, hSerial, hMade]
    exact h.made

/-- A node is deleted. -/
theorem remove (h : Serials s l) {p : Nat} (hAlloc : s.allocated p = true) (hOff : p ∉ l)
    (hNotOwned : ∀ u, s.owned u ≠ some p)
    (hAllocated : s'.allocated = Function.update s.allocated p false)
    (hSerial : s'.serial = s.serial) (hNews : s'.news = s.news) (hRemoved : s'.removed = s.removed)
    (hDeleted : s'.deleted = s.deleted ++ [s.serial p]) (hMade : s'.made = s.made)
    (hOwned : s'.owned = s.owned) (hTaken : s'.taken = s.taken) (hHeld : s'.held = s.held)
    (hDeleting : ∀ u q, s'.deleting u = some q → s.deleting u = some q) : Serials s' l := by
  have hOld : ∀ q, s'.allocated q = true → s.allocated q = true ∧ q ≠ p := by
    intro q hq
    rw [hAllocated] at hq
    rcases update_at s.allocated p false q with ⟨-, hAt⟩ | ⟨hne, hAt⟩ <;> rw [hAt] at hq
    · cases hq
    · exact ⟨hq, hne⟩
  have hGone : s.serial p ∈ s.removed := (h.removed p hAlloc).mpr ⟨hOff, hNotOwned⟩
  have hNew : s.serial p ∉ s.deleted := fun hMem => (h.deleted _ hMem).2 p hAlloc rfl
  refine ⟨?_, ?_, ?_, ?_, ?_, ?_, ?_, ?_, ?_, ?_⟩
  · rw [hSerial, hNews]
    exact fun q hq => h.lt q (hOld q hq).1
  · rw [hSerial]
    exact fun q r hq hr => h.inj q r (hOld q hq).1 (hOld r hr).1
  · rw [hRemoved, hNews]
    exact h.removedLt
  · rw [hSerial, hRemoved, hOwned]
    exact fun q hq => h.removed q (hOld q hq).1
  · rw [hRemoved]
    exact h.removedNodup
  · rw [hDeleted, hRemoved, hSerial]
    intro n hn
    rcases List.mem_append.mp hn with hn | hn
    · exact ⟨(h.deleted n hn).1, fun q hq => (h.deleted n hn).2 q (hOld q hq).1⟩
    · rw [List.mem_singleton.mp hn]
      refine ⟨hGone, ?_⟩
      intro q hq hEq
      exact (hOld q hq).2 (h.inj q p (hOld q hq).1 hAlloc hEq)
  · rw [hDeleted]
    refine List.nodup_append'.mpr ⟨h.deletedNodup, List.nodup_singleton _, ?_⟩
    intro n hn hn'
    exact hNew (List.mem_singleton.mp hn' ▸ hn)
  · rw [hRemoved, hDeleted, hAllocated, hSerial]
    intro n hn
    rcases h.pending n hn with hn | ⟨q, hq, rfl⟩
    · exact Or.inl (List.mem_append_left _ hn)
    · by_cases hqp : q = p
      · rw [hqp]
        exact Or.inl (List.mem_append_right _ List.mem_cons_self)
      · exact Or.inr ⟨q, (Function.update_of_ne hqp ..).trans hq, rfl⟩
  · rw [hHeld, hSerial, hTaken]
    intro u q hu
    exact h.taken u q (hu.imp_right (hDeleting u q))
  · rw [hOwned, hSerial, hMade]
    exact h.made

end

/-- A `push` makes its node. -/
theorem create (h : Serials s l) {p : Nat} (hFree : s.allocated p = false)
    (hOwnedAlloc : ∀ u q, s.owned u = some q → s.allocated q = true)
    (hRefs : ∀ u q, s.held u = some q ∨ s.deleting u = some q → s.allocated q = true)
    (hNotOwning : s.owned t = none)
    (hAllocated : s'.allocated = Function.update s.allocated p true)
    (hSerial : s'.serial = Function.update s.serial p s.news) (hNews : s'.news = s.news + 1)
    (hRemoved : s'.removed = s.removed) (hDeleted : s'.deleted = s.deleted)
    (hMade : s'.made = Function.update s.made t s.news)
    (hOwned : s'.owned = Function.update s.owned t (some p)) (hTaken : s'.taken = s.taken)
    (hHeld : s'.held = s.held) (hDeleting : s'.deleting = s.deleting) : Serials s' l := by
  have hNe : ∀ q, s.allocated q = true → q ≠ p := by
    rintro q hq rfl
    rw [hFree] at hq
    cases hq
  -- the nodes that are allocated now
  have hNow : ∀ q, s'.allocated q = true → (q = p ∧ s'.serial q = s.news) ∨
      (q ≠ p ∧ s.allocated q = true ∧ s'.serial q = s.serial q) := by
    intro q hq
    rw [hAllocated] at hq
    rw [hSerial]
    rcases update_at s.allocated p true q with ⟨rfl, -⟩ | ⟨hne, hAt⟩
    · exact Or.inl ⟨rfl, Function.update_self ..⟩
    · exact Or.inr ⟨hne, hAt ▸ hq, Function.update_of_ne hne ..⟩
  have hFreshRemoved : s.news ∉ s.removed := fun hMem => Nat.lt_irrefl _ (h.removedLt _ hMem)
  refine ⟨?_, ?_, ?_, ?_, ?_, ?_, ?_, ?_, ?_, ?_⟩
  · rw [hNews]
    intro q hq
    rcases hNow q hq with ⟨-, hEq⟩ | ⟨-, hOld, hEq⟩ <;> rw [hEq]
    · exact Nat.lt_succ_self _
    · exact Nat.lt_succ_of_lt (h.lt q hOld)
  · intro q r hq hr
    rcases hNow q hq with ⟨hqp, hEq⟩ | ⟨-, hOld, hEq⟩ <;>
      rcases hNow r hr with ⟨hrp, hEq'⟩ | ⟨-, hOld', hEq'⟩ <;> rw [hEq, hEq']
    · exact fun _ => hqp.trans hrp.symm
    · exact fun hSame => absurd (hSame ▸ h.lt r hOld') (Nat.lt_irrefl _)
    · exact fun hSame => absurd (hSame.symm ▸ h.lt q hOld) (Nat.lt_irrefl _)
    · exact h.inj q r hOld hOld'
  · rw [hRemoved, hNews]
    exact fun n hn => Nat.lt_succ_of_lt (h.removedLt n hn)
  · rw [hRemoved, hOwned]
    intro q hq
    rcases hNow q hq with ⟨rfl, hEq⟩ | ⟨hne, hOld, hEq⟩ <;> rw [hEq]
    · refine ⟨fun hMem => absurd hMem hFreshRemoved, ?_⟩
      rintro ⟨-, hNot⟩
      exact absurd (Function.update_self ..) (hNot t)
    · rw [h.removed q hOld]
      refine and_congr_right fun _ => ?_
      constructor
      · intro hNot u hu
        rcases update_at s.owned t (some p) u with ⟨-, hAt⟩ | ⟨-, hAt⟩ <;> rw [hAt] at hu
        · cases hu
          exact hne rfl
        · exact hNot u hu
      · intro hNot u hu
        have hut : u ≠ t := by
          rintro rfl
          rw [hNotOwning] at hu
          cases hu
        exact hNot u ((Function.update_of_ne hut ..).trans hu)
  · rw [hRemoved]
    exact h.removedNodup
  · rw [hDeleted, hRemoved]
    intro n hn
    refine ⟨(h.deleted n hn).1, ?_⟩
    intro q hq
    rcases hNow q hq with ⟨-, hEq⟩ | ⟨-, hOld, hEq⟩ <;> rw [hEq]
    · rintro rfl
      exact hFreshRemoved (h.deleted _ hn).1
    · exact (h.deleted n hn).2 q hOld
  · rw [hDeleted]
    exact h.deletedNodup
  · rw [hRemoved, hDeleted, hAllocated, hSerial]
    intro n hn
    refine (h.pending n hn).imp_right ?_
    rintro ⟨q, hq, hEq⟩
    exact ⟨q, (Function.update_of_ne (hNe q hq) ..).trans hq,
      (Function.update_of_ne (hNe q hq) ..).trans hEq⟩
  · rw [hHeld, hDeleting, hSerial, hTaken]
    intro u q hu
    rw [Function.update_of_ne (hNe q (hRefs u q hu))]
    exact h.taken u q hu
  · rw [hOwned, hSerial, hMade]
    intro u q hu
    rcases update_at s.owned t (some p) u with ⟨rfl, hAt⟩ | ⟨hut, hAt⟩ <;> rw [hAt] at hu
    · cases hu
      rw [Function.update_self, Function.update_self]
    · rw [Function.update_of_ne (hNe q (hOwnedAlloc u q hu)), Function.update_of_ne hut]
      exact h.made u q hu

/-- A `push` puts its node on the stack. -/
theorem pushCas (h : Serials s l) {p : Nat} (hOwn : s.owned t = some p)
    (hAlloc : s.allocated p = true) (hAllocated : s'.allocated = s.allocated)
    (hSerial : s'.serial = s.serial) (hNews : s'.news = s.news) (hRemoved : s'.removed = s.removed)
    (hDeleted : s'.deleted = s.deleted) (hMade : s'.made = s.made)
    (hOwned : s'.owned = Function.update s.owned t none) (hTaken : s'.taken = s.taken)
    (hHeld : s'.held = s.held) (hDeleting : s'.deleting = s.deleting) : Serials s' (p :: l) := by
  have hNotRemoved : s.serial p ∉ s.removed :=
    fun hMem => ((h.removed p hAlloc).mp hMem).2 t hOwn
  refine ⟨?_, ?_, ?_, ?_, ?_, ?_, ?_, ?_, ?_, ?_⟩
  · rw [hAllocated, hSerial, hNews]
    exact h.lt
  · rw [hAllocated, hSerial]
    exact h.inj
  · rw [hRemoved, hNews]
    exact h.removedLt
  · rw [hAllocated, hSerial, hRemoved, hOwned]
    intro q hq
    by_cases hqp : q = p
    · rw [hqp]
      exact ⟨fun hMem => absurd hMem hNotRemoved, fun hOut => absurd List.mem_cons_self hOut.1⟩
    · rw [h.removed q hq, List.mem_cons, not_or]
      refine ⟨?_, ?_⟩
      · rintro ⟨hOff, hNot⟩
        refine ⟨⟨hqp, hOff⟩, ?_⟩
        intro u hu
        rcases update_at s.owned t none u with ⟨-, hAt⟩ | ⟨-, hAt⟩ <;> rw [hAt] at hu
        · cases hu
        · exact hNot u hu
      · rintro ⟨⟨-, hOff⟩, hNot⟩
        refine ⟨hOff, ?_⟩
        intro u hu
        have hut : u ≠ t := by
          rintro rfl
          cases hu.symm.trans hOwn
          exact hqp rfl
        exact hNot u ((Function.update_of_ne hut ..).trans hu)
  · rw [hRemoved]
    exact h.removedNodup
  · rw [hDeleted, hRemoved, hAllocated, hSerial]
    exact h.deleted
  · rw [hDeleted]
    exact h.deletedNodup
  · rw [hRemoved, hDeleted, hAllocated, hSerial]
    exact h.pending
  · rw [hHeld, hDeleting, hSerial, hTaken]
    exact h.taken
  · rw [hOwned, hSerial, hMade]
    intro u q hu
    rcases update_at s.owned t none u with ⟨-, hAt⟩ | ⟨-, hAt⟩ <;> rw [hAt] at hu
    · cases hu
    · exact h.made u q hu

end Serials

-- ---------------------------------------------------------------------------
-- The invariant
-- ---------------------------------------------------------------------------

/-- The successor that a `pop` read is still the one of its node. -/
def Knows (s : State τ α) (pc : Pc (Numbered α)) : Prop :=
  ∀ old next, pc = .popCas old next → next = s.next old.ptr

/-- The chain, the counts, the deletions, the serial numbers and what the threads know, all in
one. -/
structure Inv (s : State τ α) (l : List Nat) : Prop where
  nodes : Nodes s l
  counts : Counts s l
  deletes : Deletes s
  serials : Serials s l
  knows : ∀ t, Knows s (s.pc t)

/-- The nodes of the stack after a step, by where its thread stands before and after it. -/
def shift (l : List Nat) : Pc (Numbered α) → Pc (Numbered α) → List Nat
  | .popCas _ _, .popSwap _ => l.tail
  | .pushCas _ p, .idle _ => p :: l
  | _, _ => l

/-- A step changes the role of one thread. -/
theorem role_update {pc : Pc (Numbered α)} (hPc : s'.pc = Function.update s.pc t pc) :
    s'.held = Function.update s.held t pc.role.held ∧
      s'.closing = Function.update s.closing t pc.role.closing ∧
      s'.owned = Function.update s.owned t pc.role.owned ∧
      s'.deleting = Function.update s.deleting t pc.role.deleting := by
  have hPart : ∀ {β : Type _} (m : Pc (Numbered α) → β),
      (fun u => m (s'.pc u)) = Function.update (fun u => m (s.pc u)) t (m pc) := by
    intro β m
    rw [hPc]
    exact part_update m s.pc t pc
  exact ⟨hPart fun pc => pc.role.held, hPart fun pc => pc.role.closing,
    hPart fun pc => pc.role.owned, hPart fun pc => pc.role.deleting⟩

omit [DecidableEq τ] in
/-- The role of a thread, from where it stands. -/
theorem role_at {pc : Pc (Numbered α)} (hpc : s.pc t = pc) :
    s.held t = pc.role.held ∧ s.closing t = pc.role.closing ∧ s.owned t = pc.role.owned ∧
      s.deleting t = pc.role.deleting := by
  subst hpc
  exact ⟨rfl, rfl, rfl, rfl⟩

/-- An update by the old value. -/
theorem update_same {β γ : Type*} [DecidableEq β] {f f' : β → γ} {i : β} {x : γ}
    (h : f' = Function.update f i x) (hx : f i = x) : f' = f :=
  h.trans (Function.update_eq_self_iff.mpr hx.symm)

/-- A step that leaves the role of its thread leaves those of all. -/
theorem role_same {pc : Pc (Numbered α)} (hPc : s'.pc = Function.update s.pc t pc)
    (hRole : pc.role = (s.pc t).role) : s'.held = s.held ∧ s'.closing = s.closing ∧
      s'.owned = s.owned ∧ s'.deleting = s.deleting := by
  have hSame : ∀ u, (s'.pc u).role = (s.pc u).role := observe_update Pc.role hPc hRole
  refine ⟨?_, ?_, ?_, ?_⟩ <;> funext u
  · exact congrArg Role.held (hSame u)
  · exact congrArg Role.closing (hSame u)
  · exact congrArg Role.owned (hSame u)
  · exact congrArg Role.deleting (hSame u)

omit [DecidableEq τ] in
/-- The pc is not at the exchange of a `pop`. -/
theorem knows_of_ne {pc : Pc (Numbered α)} (h : ∀ old next, pc ≠ .popCas old next) : Knows s pc :=
  fun old next hpc => absurd hpc (h old next)

namespace Inv

/-- What the other threads know stays true as long as the nodes they hold are not written. -/
theorem knows_step (h : Inv s l) {pc : Pc (Numbered α)} (hPc : s'.pc = Function.update s.pc t pc)
    (hNext : ∀ p u, s.held u = some p → s'.next p = s.next p) (hKnows : Knows s' pc) (u : τ) :
    Knows s' (s'.pc u) := by
  rcases update_cases hPc u with ⟨-, hAt⟩ | ⟨-, hAt⟩ <;> rw [hAt]
  · exact hKnows
  · intro old next hpc
    have hHeld : s.held u = some old.ptr := by
      rw [State.held, hpc]
      rfl
    rw [hNext _ u hHeld]
    exact h.knows u old next hpc

/-- A step that changes neither the nodes nor what its thread has to do with them. -/
theorem quiet (h : Inv s l) {pc : Pc (Numbered α)} (hPc : s'.pc = Function.update s.pc t pc)
    (hRole : pc.role = (s.pc t).role) (hKnows : Knows s pc) (hNext : s'.next = s.next)
    (hHead : s'.head = s.head) (hExternal : s'.external = s.external)
    (hInternal : s'.internalCount = s.internalCount) (hSame : SameSerials s s')
    (hTaken : s'.taken = s.taken) : Inv s' l := by
  obtain ⟨hHeld, hClosing, hOwned, hDeleting⟩ := role_same hPc hRole
  refine ⟨h.nodes.keep hNext hHead hExternal hSame.allocated hOwned hHeld,
    h.counts.keep hInternal hExternal hSame.allocated hHeld hClosing hOwned,
    h.deletes.keep hSame.allocated (fun p => by rw [hExternal]) hInternal hDeleting,
    h.serials.keep hSame hOwned ?_, h.knows_step hPc (fun p _ _ => congrFun hNext p) ?_⟩
  · rw [hHeld, hDeleting, hTaken]
    exact h.serials.taken
  · intro old next hpc
    rw [hNext]
    exact hKnows old next hpc

/-- The count of a null `head` grows. -/
theorem empty (h : Inv s l) (hNull : s.head.ptr = 0) {pc : Pc (Numbered α)}
    (hPc : s'.pc = Function.update s.pc t pc) (hRole : pc.role = (s.pc t).role)
    (hNe : ∀ old next, pc ≠ .popCas old next) (hNext : s'.next = s.next)
    (hHead : s'.head.ptr = s.head.ptr) (hExternal : s'.external = s.external)
    (hInternal : s'.internalCount = s.internalCount) (hSame : SameSerials s s')
    (hTaken : s'.taken = s.taken) : Inv s' l := by
  obtain ⟨hHeld, hClosing, hOwned, hDeleting⟩ := role_same hPc hRole
  refine ⟨h.nodes.empty hNull hHead hExternal hSame.allocated hOwned hHeld,
    h.counts.keep hInternal hExternal hSame.allocated hHeld hClosing hOwned,
    h.deletes.keep hSame.allocated (fun p => by rw [hExternal]) hInternal hDeleting,
    h.serials.keep hSame hOwned ?_,
    h.knows_step hPc (fun p _ _ => congrFun hNext p) (knows_of_ne hNe)⟩
  rw [hHeld, hDeleting, hTaken]
  exact h.serials.taken

/-- A thread takes a reference through `head`. -/
theorem increase (h : Inv s l) (hpc : s.pc t = .popIncrease s.head) (hPtr : s.head.ptr ≠ 0)
    {old : CountedNodePtr} (hOld : old = ⟨s.head.externalCount + 1, s.head.ptr⟩)
    (hPc : s'.pc = Function.update s.pc t (.popNext old)) (hNext : s'.next = s.next)
    (hHead : s'.head = old)
    (hExternal : s'.external = Function.update s.external s.head.ptr (some old.externalCount))
    (hInternal : s'.internalCount = s.internalCount) (hSame : SameSerials s s')
    (hTaken : s'.taken = Function.update s.taken t (s.serial s.head.ptr)) : Inv s' l := by
  subst hOld
  obtain ⟨rest, hl, hCount, -, -, -⟩ := h.nodes.head_cons hPtr
  have hTop : s.head.ptr ∈ l := hl ▸ List.mem_cons_self
  obtain ⟨hNone, hNotClosing, hNotOwning, hNotDeleting⟩ := role_at hpc
  obtain ⟨hHeld, hClosing, hOwned, hDeleting⟩ := role_update hPc
  replace hClosing := update_same hClosing hNotClosing
  replace hOwned := update_same hOwned hNotOwning
  replace hDeleting := update_same hDeleting hNotDeleting
  refine ⟨h.nodes.increase hPtr hNext hHead hExternal hSame.allocated hOwned hHeld,
    h.counts.increase hTop hCount hNone hInternal hExternal hSame.allocated hHeld hClosing hOwned,
    h.deletes.keep hSame.allocated ?_ hInternal hDeleting, h.serials.keep hSame hOwned ?_,
    h.knows_step hPc (fun p _ _ => congrFun hNext p)
      (knows_of_ne fun _ _ hEq => by cases hEq)⟩
  · intro p
    rw [hExternal]
    rcases update_at s.external s.head.ptr (some (s.head.externalCount + 1)) p with
      ⟨rfl, hAt⟩ | ⟨-, hAt⟩ <;> rw [hAt]
    rw [hCount]
    exact iff_of_false (Option.some_ne_none _) (Option.some_ne_none _)
  · rw [hHeld, hDeleting, hTaken]
    intro u p hu
    by_cases hut : u = t
    · rw [hut, Function.update_self, hNotDeleting] at hu
      rcases hu with hu | hu
      · cases hu
        rw [hut, Function.update_self]
      · cases hu
    · rw [Function.update_of_ne hut] at hu ⊢
      exact h.serials.taken u p hu

/-- A `pop` takes the top node off. -/
theorem popCas (h : Inv s l) {next : CountedNodePtr} (hpc : s.pc t = .popCas s.head next)
    (hPc : s'.pc = Function.update s.pc t (.popSwap s.head)) (hNext : s'.next = s.next)
    (hHead : s'.head = next) (hExternal : s'.external = s.external)
    (hInternal : s'.internalCount = s.internalCount) (hAllocated : s'.allocated = s.allocated)
    (hSerial : s'.serial = s.serial) (hNews : s'.news = s.news)
    (hRemoved : s'.removed = s.removed ++ [s.serial s.head.ptr]) (hDeleted : s'.deleted = s.deleted)
    (hMade : s'.made = s.made) (hTaken : s'.taken = s.taken) : Inv s' l.tail := by
  obtain ⟨hRef, hNotClosing, hNotOwning, hNotDeleting⟩ := role_at hpc
  obtain ⟨hPtr, hAlloc, hNotOwned⟩ := h.nodes.held t _ hRef
  obtain rfl := h.knows t s.head next hpc
  obtain ⟨rest, rfl, hCount, -, -, hOut⟩ := h.nodes.head_cons hPtr
  obtain ⟨hHeld, hClosing, hOwned, hDeleting⟩ := role_update hPc
  replace hHeld := update_same hHeld hRef
  replace hOwned := update_same hOwned hNotOwning
  replace hDeleting := update_same hDeleting hNotDeleting
  exact ⟨h.nodes.popCas hPtr hNext hHead hExternal hAllocated hOwned hHeld,
    h.counts.popCas hOut hCount hRef hNotClosing hInternal hExternal hAllocated hHeld hClosing
      hOwned,
    h.deletes.keep hAllocated (fun p => by rw [hExternal]) hInternal hDeleting,
    h.serials.popCas hOut hAlloc hNotOwned hAllocated hSerial hNews hRemoved hDeleted hMade hOwned
      hTaken hHeld hDeleting,
    h.knows_step hPc (fun p _ _ => congrFun hNext p) (knows_of_ne fun _ _ hEq => by cases hEq)⟩

/-- A thread drops its reference to `p`; the last one goes on to delete it. -/
theorem dropped (h : Inv s l) {pc : Pc (Numbered α)} {p : Nat} (hRef : s.held t = some p)
    (hNotOwning : s.owned t = none) (hNotDeleting : s.deleting t = none)
    (hPc : s'.pc = Function.update s.pc t pc) (hRole : pc.role.held = none ∧ pc.role.owned = none)
    (hKnows : Knows s' pc) (hCounts : Counts s' l) (hNext : s'.next = s.next)
    (hHead : s'.head = s.head) (hExternal : ∀ q, q ≠ p → s'.external q = s.external q)
    (hOff : p ∉ l ∨ s'.external = s.external)
    (hInternal : ∀ q, q ≠ p → s'.internalCount q = s.internalCount q) (hSame : SameSerials s s')
    (hTaken : s'.taken = s.taken)
    (hr : (pc.role.deleting = none ∧ ¬ (s'.external p = none ∧ s'.internalCount p = 0)) ∨
      (pc.role.deleting = some p ∧ s'.external p = none ∧ s'.internalCount p = 0)) :
    Inv s' l := by
  obtain ⟨-, hAlloc, hNotOwned⟩ := h.nodes.held t p hRef
  obtain ⟨hHeld, -, hOwned, hDeleting⟩ := role_update hPc
  rw [hRole.1] at hHeld
  rw [hRole.2] at hOwned
  replace hOwned := update_same hOwned hNotOwning
  have hOldHeld : ∀ u q, s'.held u = some q → s.held u = some q := by
    intro u q hu
    rw [hHeld] at hu
    rcases update_at s.held t none u with ⟨-, hAt⟩ | ⟨-, hAt⟩ <;> rw [hAt] at hu
    · cases hu
    · exact hu
  refine ⟨h.nodes.drop hNext hHead ?_ (fun q _ => congrFun hSame.allocated q) hOwned ?_, hCounts,
    h.deletes.drop hAlloc ?_ hNotDeleting hSame.allocated hExternal hInternal hDeleting hr,
    h.serials.keep hSame hOwned ?_, h.knows_step hPc (fun q _ _ => congrFun hNext q) hKnows⟩
  · intro q hq
    rcases hOff with hOff | hEq
    · refine hExternal q ?_
      rintro rfl
      rcases hq with hq | ⟨u, hu⟩
      · exact hOff hq
      · exact hNotOwned u hu
    · rw [hEq]
  · intro u q hu
    exact ⟨hOldHeld u q hu, congrFun hSame.allocated q⟩
  · rintro ⟨hNone, hZero⟩
    exact h.counts.no_ref hNone hZero t hRef
  · rw [hTaken]
    rintro u q (hu | hu)
    · exact h.serials.taken u q (Or.inl (hOldHeld u q hu))
    · rw [hDeleting] at hu
      rcases update_at s.deleting t pc.role.deleting u with ⟨rfl, hAt⟩ | ⟨-, hAt⟩ <;> rw [hAt] at hu
      · rcases hr with ⟨hNone, -⟩ | ⟨hSome, -⟩
        · rw [hNone] at hu
          cases hu
        · rw [hSome] at hu
          cases hu
          exact h.serials.taken u p (Or.inl hRef)
      · exact h.serials.taken u q (Or.inr hu)

/-- The thread that took a node off the stack adds its external count. -/
theorem close (h : Inv s l) {old : CountedNodePtr} {res : Option (Numbered α)}
    (hpc : s.pc t = .popAdd old res) {pc : Pc (Numbered α)}
    (hPc : s'.pc = Function.update s.pc t pc)
    (hRole : pc.role.held = none ∧ pc.role.closing = none ∧ pc.role.owned = none)
    (hKnows : Knows s' pc) (hNext : s'.next = s.next) (hHead : s'.head = s.head)
    (hInternal : s'.internalCount = Function.update s.internalCount old.ptr
      (s.internalCount old.ptr + (old.externalCount - 2)))
    (hExternal : s'.external = Function.update s.external old.ptr none) (hSame : SameSerials s s')
    (hTaken : s'.taken = s.taken)
    (hr : (pc.role.deleting = none ∧ s.internalCount old.ptr + (old.externalCount - 2) ≠ 0) ∨
      (pc.role.deleting = some old.ptr ∧
        s.internalCount old.ptr + (old.externalCount - 2) = 0)) : Inv s' l := by
  obtain ⟨hRef, hOwn, hNotOwning, hNotDeleting⟩ := role_at hpc
  obtain ⟨hHeld, hClosing, hOwned, -⟩ := role_update hPc
  rw [hRole.1] at hHeld
  rw [hRole.2.1] at hClosing
  rw [hRole.2.2] at hOwned
  replace hOwned := update_same hOwned hNotOwning
  obtain ⟨-, -, hOff⟩ := h.counts.closing t old hOwn
  have hNow : s'.internalCount old.ptr = s.internalCount old.ptr + (old.externalCount - 2) := by
    rw [hInternal, Function.update_self]
  refine h.dropped hRef hNotOwning hNotDeleting hPc ⟨hRole.1, hRole.2.2⟩ hKnows
    (h.counts.close hOwn hInternal hExternal hSame.allocated hHeld hClosing hOwned) hNext hHead
    ?_ (Or.inl hOff) ?_ hSame hTaken ?_
  · intro q hq
    rw [hExternal, Function.update_of_ne hq]
  · intro q hq
    rw [hInternal, Function.update_of_ne hq]
  · rw [hNow]
    refine hr.imp ?_ ?_
    · exact fun hNot => ⟨hNot.1, fun hClosed => hNot.2 hClosed.2⟩
    · exact fun hLast => ⟨hLast.1, by rw [hExternal, Function.update_self], hLast.2⟩

/-- A thread whose exchange on `head` failed drops its reference. Only after the external
count was added can it find the internal one at 1. -/
theorem release (h : Inv s l) {p : Nat} {old : CountedNodePtr} (hpc : s.pc t = .popSub p old)
    {pc : Pc (Numbered α)} (hPc : s'.pc = Function.update s.pc t pc)
    (hRole : pc.role.held = none ∧ pc.role.closing = none ∧ pc.role.owned = none)
    (hKnows : Knows s' pc) (hNext : s'.next = s.next) (hHead : s'.head = s.head)
    (hInternal : s'.internalCount = Function.update s.internalCount p (s.internalCount p - 1))
    (hExternal : s'.external = s.external) (hSame : SameSerials s s') (hTaken : s'.taken = s.taken)
    (hr : (pc.role.deleting = none ∧ s.internalCount p ≠ 1) ∨
      (pc.role.deleting = some p ∧ s.internalCount p = 1)) : Inv s' l := by
  obtain ⟨hRef, hNotClosing, hNotOwning, hNotDeleting⟩ := role_at hpc
  obtain ⟨hHeld, hClosing, hOwned, -⟩ := role_update hPc
  rw [hRole.1] at hHeld
  rw [hRole.2.1] at hClosing
  rw [hRole.2.2] at hOwned
  replace hClosing := update_same hClosing hNotClosing
  replace hOwned := update_same hOwned hNotOwning
  have hNow : s'.internalCount p = s.internalCount p - 1 := by
    rw [hInternal, Function.update_self]
  refine h.dropped hRef hNotOwning hNotDeleting hPc ⟨hRole.1, hRole.2.2⟩ hKnows
    (h.counts.release hRef hNotClosing hInternal hExternal hSame.allocated hHeld hClosing hOwned)
    hNext hHead (fun q _ => congrFun hExternal q) (Or.inr hExternal) ?_ hSame hTaken ?_
  · intro q hq
    rw [hInternal, Function.update_of_ne hq]
  · rw [hNow, hExternal]
    refine hr.imp ?_ ?_
    · rintro ⟨hNone, hNot⟩
      exact ⟨hNone, fun hClosed => hNot (by omega)⟩
    · rintro ⟨hSome, hOne⟩
      refine ⟨hSome, ?_, by omega⟩
      cases hOpen : s.external p with
      | none => rfl
      | some c =>
        have hLow := h.counts.low p c hOpen
        omega

/-- The last reference is gone. -/
theorem delete (h : Inv s l) {pc : Pc (Numbered α)} {p : Nat} {k : Cont (Numbered α)}
    (hpc : s.pc t = .delete p k) (hPc : s'.pc = Function.update s.pc t pc)
    (hRole : pc.role = ⟨none, none, none, none⟩) (hKnows : Knows s' pc) (hNext : s'.next = s.next)
    (hHead : s'.head = s.head) (hExternal : s'.external = s.external)
    (hInternal : s'.internalCount = s.internalCount)
    (hAllocated : s'.allocated = Function.update s.allocated p false)
    (hSerial : s'.serial = s.serial) (hNews : s'.news = s.news) (hRemoved : s'.removed = s.removed)
    (hDeleted : s'.deleted = s.deleted ++ [s.serial p]) (hMade : s'.made = s.made)
    (hTaken : s'.taken = s.taken) : Inv s' l := by
  obtain ⟨hNone, hNotClosing, hNotOwning, hOwn⟩ := role_at hpc
  obtain ⟨hHeld, hClosing, hOwned, hDeleting⟩ := role_update hPc
  rw [hRole] at hHeld hClosing hOwned hDeleting
  replace hHeld := update_same hHeld hNone
  replace hClosing := update_same hClosing hNotClosing
  replace hOwned := update_same hOwned hNotOwning
  obtain ⟨hAlloc, hClosed, hZero⟩ := h.deletes.deleting t p hOwn
  have hOff : p ∉ l := by
    intro hMem
    obtain ⟨c, hOpen⟩ := h.nodes.counted.open hMem
    rw [hClosed] at hOpen
    cases hOpen
  have hNotOwned : ∀ u, s.owned u ≠ some p := by
    intro u hu
    obtain ⟨-, -, -, hOne⟩ := h.nodes.owned u p hu
    rw [hClosed] at hOne
    cases hOne
  have hOther : ∀ q, q ≠ p → s'.allocated q = s.allocated q := by
    intro q hq
    rw [hAllocated, Function.update_of_ne hq]
  refine ⟨h.nodes.drop hNext hHead (fun q _ => congrFun hExternal q) ?_ hOwned ?_,
    h.counts.remove hClosed hInternal hExternal hAllocated hHeld hClosing hOwned,
    h.deletes.remove hOwn hAllocated hExternal hInternal hDeleting,
    h.serials.remove hAlloc hOff hNotOwned hAllocated hSerial hNews hRemoved hDeleted hMade hOwned
      hTaken hHeld ?_,
    h.knows_step hPc (fun q _ _ => congrFun hNext q) hKnows⟩
  · rintro q (hq | ⟨u, hu⟩)
    · exact hOther q fun hEq => hOff (hEq ▸ hq)
    · exact hOther q fun hEq => hNotOwned u (hEq ▸ hu)
  · rw [hHeld]
    intro u q hu
    exact ⟨hu, hOther q fun hEq => h.counts.no_ref hClosed hZero u (hEq ▸ hu)⟩
  · rw [hDeleting]
    intro u q hu
    rcases update_at s.deleting t none u with ⟨-, hAt⟩ | ⟨-, hAt⟩ <;> rw [hAt] at hu
    · cases hu
    · exact hu

/-- A `push` makes its node. -/
theorem create (h : Inv s l) {data : Numbered α} {p : Nat} (hpc : s.pc t = .pushNew data)
    (hZero : p ≠ 0) (hFree : s.allocated p = false) {pc : Pc (Numbered α)}
    (hPc : s'.pc = Function.update s.pc t pc) (hRole : pc.role = ⟨none, none, some p, none⟩)
    (hKnows : Knows s' pc) (hNext : ∀ q, q ≠ p → s'.next q = s.next q) (hHead : s'.head = s.head)
    (hExternal : s'.external = Function.update s.external p (some 1))
    (hInternal : s'.internalCount = Function.update s.internalCount p 0)
    (hAllocated : s'.allocated = Function.update s.allocated p true)
    (hSerial : s'.serial = Function.update s.serial p s.news) (hNews : s'.news = s.news + 1)
    (hRemoved : s'.removed = s.removed) (hDeleted : s'.deleted = s.deleted)
    (hMade : s'.made = Function.update s.made t s.news) (hTaken : s'.taken = s.taken) :
    Inv s' l := by
  obtain ⟨hNone, hNotClosing, hNotOwning, hNotDeleting⟩ := role_at hpc
  obtain ⟨hHeld, hClosing, hOwned, hDeleting⟩ := role_update hPc
  rw [hRole] at hHeld hClosing hOwned hDeleting
  replace hHeld := update_same hHeld hNone
  replace hClosing := update_same hClosing hNotClosing
  replace hDeleting := update_same hDeleting hNotDeleting
  have hHeldAlloc : ∀ u q, s.held u = some q → s.allocated q = true :=
    fun u q hu => (h.nodes.held u q hu).2.1
  refine ⟨h.nodes.alloc hZero hFree hNext hHead hExternal hAllocated hOwned hHeld,
    h.counts.create hFree hHeldAlloc hNotOwning hInternal hExternal hAllocated hHeld hClosing
      hOwned,
    h.deletes.create hFree hAllocated hExternal hInternal hDeleting,
    h.serials.create hFree (fun u q hu => (h.nodes.owned u q hu).2.1) ?_ hNotOwning
      hAllocated hSerial hNews hRemoved hDeleted hMade hOwned hTaken hHeld hDeleting,
    h.knows_step hPc ?_ hKnows⟩
  · rintro u q (hu | hu)
    · exact hHeldAlloc u q hu
    · exact (h.deletes.deleting u q hu).1
  · intro q u hu
    refine hNext q ?_
    rintro rfl
    rw [hHeldAlloc u q hu] at hFree
    cases hFree

/-- A `push` writes the `next` of its own node. -/
theorem storeNext (h : Inv s l) {p : Nat} (hOwn : s.owned t = some p) {pc : Pc (Numbered α)}
    (hPc : s'.pc = Function.update s.pc t pc) (hRole : pc.role = (s.pc t).role)
    (hKnows : Knows s' pc) (hNext : ∀ q, q ≠ p → s'.next q = s.next q) (hHead : s'.head = s.head)
    (hExternal : s'.external = s.external) (hInternal : s'.internalCount = s.internalCount)
    (hSame : SameSerials s s') (hTaken : s'.taken = s.taken) : Inv s' l := by
  obtain ⟨hHeld, hClosing, hOwned, hDeleting⟩ := role_same hPc hRole
  refine ⟨h.nodes.storeNext hOwn hNext hHead hExternal hSame.allocated hOwned hHeld,
    h.counts.keep hInternal hExternal hSame.allocated hHeld hClosing hOwned,
    h.deletes.keep hSame.allocated (fun q => by rw [hExternal]) hInternal hDeleting,
    h.serials.keep hSame hOwned ?_, h.knows_step hPc ?_ hKnows⟩
  · rw [hHeld, hDeleting, hTaken]
    exact h.serials.taken
  · intro q u hu
    refine hNext q ?_
    rintro rfl
    exact (h.nodes.held u q hu).2.2 t hOwn

/-- A `push` puts its node on the stack. -/
theorem pushCas (h : Inv s l) {data : Numbered α} {p : Nat} (hpc : s.pc t = .pushCas data p)
    (hTop : s.head = s.next p) {pc : Pc (Numbered α)} (hPc : s'.pc = Function.update s.pc t pc)
    (hRole : pc.role = ⟨none, none, none, none⟩) (hKnows : Knows s' pc) (hNext : s'.next = s.next)
    (hHead : s'.head = ⟨1, p⟩) (hExternal : s'.external = s.external)
    (hInternal : s'.internalCount = s.internalCount) (hSame : SameSerials s s')
    (hTaken : s'.taken = s.taken) : Inv s' (p :: l) := by
  obtain ⟨hNone, hNotClosing, hOwn, hNotDeleting⟩ := role_at hpc
  obtain ⟨hHeld, hClosing, hOwned, hDeleting⟩ := role_update hPc
  rw [hRole] at hHeld hClosing hOwned hDeleting
  replace hHeld := update_same hHeld hNone
  replace hClosing := update_same hClosing hNotClosing
  replace hDeleting := update_same hDeleting hNotDeleting
  exact ⟨h.nodes.pushCas hOwn hTop hNext hHead hExternal hSame.allocated hOwned hHeld,
    h.counts.pushCas hOwn (fun u hu => (h.nodes.held u p hu).2.2 t hOwn) hInternal hExternal
      hSame.allocated hHeld hClosing hOwned,
    h.deletes.keep hSame.allocated (fun q => by rw [hExternal]) hInternal hDeleting,
    h.serials.pushCas hOwn (h.nodes.owned t p hOwn).2.1 hSame.allocated hSame.serial hSame.news
      hSame.removed hSame.deleted hSame.made hOwned hTaken hHeld hDeleting,
    h.knows_step hPc (fun q _ _ => congrFun hNext q) hKnows⟩

end Inv

omit [DecidableEq τ] in
/-- What a quiet step learns is true. -/
theorem Quiet.knows {pc pc' : Pc (Numbered α)} (h : Quiet s pc pc') : Knows s pc' := by
  intro old next hpc
  cases h with
  | popNext =>
    cases hpc
    rfl
  | _ => cases hpc

omit [DecidableEq τ] in
/-- It leaves the chain. -/
theorem Quiet.shift {pc pc' : Pc (Numbered α)} (h : Quiet s pc pc') : shift l pc pc' = l := by
  cases h <;> rfl

/-- The step lemma. -/
theorem inv_effect (h : Inv s l) (he : Effect s t s') : Inv s' (shift l (s.pc t) (s'.pc t)) := by
  have hHere : ∀ pc : Pc (Numbered α), Function.update s.pc t pc t = pc :=
    fun pc => Function.update_self ..
  have hShift : ∀ {pc pc' : Pc (Numbered α)}, s.pc t = pc → s'.pc t = pc' →
      shift l (s.pc t) (s'.pc t) = shift l pc pc' := by
    intro pc pc' hpc hpc'
    rw [hpc, hpc']
  have hBusy : ∀ {s₁ : State τ α} {pc : Pc (Numbered α)}, (∀ old next, pc ≠ .popCas old next) →
      Knows s₁ pc := fun h => knows_of_ne h
  cases he with
  | @quiet pc hQuiet =>
    rw [hShift rfl (hHere pc), hQuiet.shift]
    exact h.quiet rfl hQuiet.role hQuiet.knows rfl rfl rfl rfl ⟨rfl, rfl, rfl, rfl, rfl, rfl⟩ rfl
  | callPush hpc =>
    rw [hShift hpc (hHere _)]
    exact h.quiet rfl (by rw [hpc]; rfl) (hBusy fun _ _ hEq => by cases hEq) rfl rfl rfl rfl
      ⟨rfl, rfl, rfl, rfl, rfl, rfl⟩ rfl
  | empty hpc hNull =>
    rw [hShift hpc (hHere _)]
    exact h.empty hNull rfl (by rw [hpc]; rfl) (fun _ _ hEq => by cases hEq) rfl rfl rfl rfl
      ⟨rfl, rfl, rfl, rfl, rfl, rfl⟩ rfl
  | increase hpc hPtr =>
    rw [hShift hpc (hHere _)]
    exact h.increase hpc hPtr rfl rfl rfl rfl rfl rfl ⟨rfl, rfl, rfl, rfl, rfl, rfl⟩ rfl
  | popCas hpc =>
    rw [hShift hpc (hHere _)]
    exact h.popCas hpc rfl rfl rfl rfl rfl rfl rfl rfl rfl rfl rfl rfl
  | popSwap hpc =>
    rw [hShift hpc (hHere _)]
    exact h.quiet rfl (by rw [hpc]; rfl) (hBusy fun _ _ hEq => by cases hEq) rfl rfl rfl rfl
      ⟨rfl, rfl, rfl, rfl, rfl, rfl⟩ rfl
  | closeLast hpc hLast =>
    rw [hShift hpc (hHere _)]
    exact h.close hpc rfl ⟨rfl, rfl, rfl⟩ (hBusy fun _ _ hEq => by cases hEq) rfl rfl rfl rfl
      ⟨rfl, rfl, rfl, rfl, rfl, rfl⟩ rfl (Or.inr ⟨rfl, hLast⟩)
  | close hpc hNot =>
    rw [hShift hpc (hHere _)]
    exact h.close hpc rfl ⟨rfl, rfl, rfl⟩ (hBusy fun _ _ hEq => by cases hEq) rfl rfl rfl rfl
      ⟨rfl, rfl, rfl, rfl, rfl, rfl⟩ rfl (Or.inl ⟨rfl, hNot⟩)
  | releaseLast hpc hLast =>
    rw [hShift hpc (hHere _)]
    exact h.release hpc rfl ⟨rfl, rfl, rfl⟩ (hBusy fun _ _ hEq => by cases hEq) rfl rfl rfl rfl
      ⟨rfl, rfl, rfl, rfl, rfl, rfl⟩ rfl (Or.inr ⟨rfl, hLast⟩)
  | release hpc hNot =>
    rw [hShift hpc (hHere _)]
    exact h.release hpc rfl ⟨rfl, rfl, rfl⟩ (hBusy fun _ _ hEq => by cases hEq) rfl rfl rfl rfl
      ⟨rfl, rfl, rfl, rfl, rfl, rfl⟩ rfl (Or.inl ⟨rfl, hNot⟩)
  | @delete p k hpc =>
    cases k
    · rw [hShift hpc (hHere _)]
      exact h.delete hpc rfl rfl (hBusy fun _ _ hEq => by cases hEq) rfl rfl rfl rfl rfl rfl rfl rfl
        rfl rfl rfl
    · rw [hShift hpc (hHere _)]
      exact h.delete hpc rfl rfl (hBusy fun _ _ hEq => by cases hEq) rfl rfl rfl rfl rfl rfl rfl rfl
        rfl rfl rfl
  | alloc hpc hZero hFree =>
    rw [hShift hpc (hHere _)]
    exact h.create hpc hZero hFree rfl rfl (hBusy fun _ _ hEq => by cases hEq)
      (fun q hq => Function.update_of_ne hq ..) rfl rfl rfl rfl rfl rfl rfl rfl rfl rfl
  | @storeNext data p hpc =>
    have hOwn : s.owned t = some p := by
      rcases hpc with hpc | hpc <;> exact (role_at hpc).2.2.1
    have hRole : (Pc.pushCas data p).role = (s.pc t).role := by
      rcases hpc with hpc | hpc
      · rw [hpc]
        rfl
      · rw [hpc]
    have hSame : shift l (s.pc t) (.pushCas data p) = l := by
      rcases hpc with hpc | hpc <;> (rw [hpc]; rfl)
    rw [hShift rfl (hHere _), hSame]
    exact h.storeNext hOwn rfl hRole (hBusy fun _ _ hEq => by cases hEq)
      (fun q hq => Function.update_of_ne hq ..) rfl rfl rfl ⟨rfl, rfl, rfl, rfl, rfl, rfl⟩ rfl
  | pushCas hpc hHead =>
    rw [hShift hpc (hHere _)]
    exact h.pushCas hpc hHead rfl rfl (hBusy fun _ _ hEq => by cases hEq) rfl rfl rfl rfl
      ⟨rfl, rfl, rfl, rfl, rfl, rfl⟩ rfl

omit [DecidableEq τ] in
/-- There are no nodes. -/
theorem inv_init : Inv (init τ α) [] := by
  refine ⟨⟨rfl, trivial, ?_, ?_, ?_, ?_⟩, ⟨⟨?_, ?_⟩, ?_, ?_, ?_, ?_⟩, ⟨?_, ?_, ?_⟩,
    ⟨?_, ?_, ?_, ?_, List.nodup_nil, ?_, List.nodup_nil, ?_, ?_, ?_⟩, ?_⟩
  · intro p hp
    cases hp
  · intro t p hp
    cases hp
  · intro t u p hp
    cases hp
  · intro t p hp
    cases hp
  · intro p
    exact Set.finite_empty.subset fun t ht => by cases ht
  · intro p
    rw [count_eq_zero fun t ht => by cases ht]
    rfl
  · intro t old hold
    cases hold
  · intro t u old old' hold
    cases hold
  · intro p c hp
    cases hp
  · intro p c hp
    cases hp
  · intro t p hp
    cases hp
  · intro t u p hp
    cases hp
  · intro p hp
    cases hp
  · intro p hp
    cases hp
  · intro p q hp
    cases hp
  · intro n hn
    cases hn
  · intro p hp
    cases hp
  · intro n hn
    cases hn
  · intro n hn
    cases hn
  · rintro t p (hp | hp) <;> cases hp
  · intro t p hp
    cases hp
  · intro t old next hpc
    cases hpc

-- ---------------------------------------------------------------------------
-- The contract of the nodes
-- ---------------------------------------------------------------------------

/-- The node that the next access of a thread is made to, or that its `delete` frees. -/
def Pc.touches {β : Type*} : Pc β → Option Nat
  | .popNext old | .popSwap old | .popAdd old _ => some old.ptr
  | .popSub ptr _ | .popAcquire ptr _ | .delete ptr _ => some ptr
  | .pushLoad _ ptr | .pushCas _ ptr => some ptr
  | _ => none

/-- That node is the one that the `push` of the thread has made. -/
def Pc.touchesOwn {β : Type*} : Pc β → Bool
  | .pushLoad _ _ | .pushCas _ _ => true
  | _ => false

/-- Nobody runs a call. -/
def Quiescent (s : State τ α) : Prop :=
  ∀ t, ∃ last, s.pc t = .idle last

/-- What `lock_free_stack` promises about its nodes. -/
structure ReclamationContract (s : State τ α) : Prop where
  /-- A step reads, writes or deletes only what is allocated, and the node there is still
  the one that its `push` made, or the one that its `pop` took a reference to. -/
  touches : ∀ t p, (s.pc t).touches = some p →
    s.allocated p = true ∧ s.serial p = if (s.pc t).touchesOwn then s.made t else s.taken t
  /-- A node is taken off the stack once and deleted once, after it was taken off. -/
  once : s.removed.Nodup ∧ s.deleted.Nodup ∧ ∀ n ∈ s.deleted, n ∈ s.removed
  /-- A node that was taken off is deleted, or somebody has a reference to it or is about
  to delete it. -/
  pending : ∀ n ∈ s.removed, n ∈ s.deleted ∨
    ∃ t p, s.allocated p = true ∧ s.serial p = n ∧ (s.held t = some p ∨ s.deleting t = some p)
  /-- Who deletes a node had the last reference to it. -/
  last : ∀ t p, s.deleting t = some p → ∀ u, s.held u ≠ some p ∧ (s.deleting u = some p → u = t)
  /-- With no call running, the allocated nodes are those on the stack. -/
  complete : Quiescent s → ∃ l, Linked (fun p => (s.next p).ptr) 0 s.head.ptr l ∧
    ∀ p, s.allocated p = true ↔ p ∈ l

/-- A node that a thread touches is one that it owns, or one that it holds or deletes. -/
theorem Pc.role_of_touches {β : Type*} {pc : Pc β} {p : Nat} (h : pc.touches = some p) :
    if pc.touchesOwn then pc.role.owned = some p
    else pc.role.held = some p ∨ pc.role.deleting = some p := by
  cases pc with
  | popAcquire ptr old => exact Or.inr h
  | delete ptr k => exact Or.inr h
  | pushLoad data ptr => exact h
  | pushCas data ptr => exact h
  | idle last => cases h
  | popLoad => cases h
  | popIncrease old => cases h
  | popCas old next => cases h
  | pushNew data => cases h
  | _ => exact Or.inl h

namespace Inv

section

omit [DecidableEq τ]

/-- Every access is to an allocated node, and to the one that the thread took or made. -/
theorem touches (h : Inv s l) {p : Nat} (hTouches : (s.pc t).touches = some p) :
    s.allocated p = true ∧ s.serial p = if (s.pc t).touchesOwn then s.made t else s.taken t := by
  have hRole := Pc.role_of_touches hTouches
  cases hOwn : (s.pc t).touchesOwn with
  | true =>
    rw [if_pos hOwn] at hRole
    exact ⟨(h.nodes.owned t p hRole).2.1, h.serials.made t p hRole⟩
  | false =>
    rw [if_neg (by simp [hOwn])] at hRole
    refine ⟨?_, h.serials.taken t p hRole⟩
    rcases hRole with hHeld | hDeleting
    · exact (h.nodes.held t p hHeld).2.1
    · exact (h.deletes.deleting t p hDeleting).1

/-- A node off the stack that no `push` owns is with a thread. -/
theorem covered (h : Inv s l) {p : Nat} (hAlloc : s.allocated p = true) (hOff : p ∉ l)
    (hNotOwned : ∀ u, s.owned u ≠ some p) :
    ∃ t, s.held t = some p ∨ s.deleting t = some p := by
  cases hOpen : s.external p with
  | some c =>
    obtain ⟨-, hAt | ⟨u, hu⟩ | ⟨u, hu⟩⟩ := h.counts.cover p c hOpen
    · exact absurd hAt hOff
    · exact absurd hu (hNotOwned u)
    · exact ⟨u, Or.inl (h.counts.closing u _ hu).1⟩
  | none =>
    by_cases hZero : s.internalCount p = 0
    · obtain ⟨u, hu⟩ := h.deletes.cover p hAlloc hOpen hZero
      exact ⟨u, Or.inr hu⟩
    · have hCount := h.counts.balanced.closed (p := p) fun _ => hOpen
      obtain ⟨u, hu⟩ := exists_of_count_pos (p := fun r => r = some p) (f := s.held) (by omega)
      exact ⟨u, Or.inl hu⟩

/-- The invariant, as the contract puts it. -/
theorem reclamation (h : Inv s l) : ReclamationContract s := by
  refine ⟨fun t p hTouches => h.touches hTouches,
    ⟨h.serials.removedNodup, h.serials.deletedNodup, fun n hn => (h.serials.deleted n hn).1⟩,
    ?_, ?_, ?_⟩
  · intro n hn
    refine (h.serials.pending n hn).imp_right ?_
    rintro ⟨p, hAlloc, rfl⟩
    obtain ⟨hOff, hNotOwned⟩ := (h.serials.removed p hAlloc).mp hn
    obtain ⟨t, ht⟩ := h.covered hAlloc hOff hNotOwned
    exact ⟨t, p, hAlloc, rfl, ht⟩
  · intro t p ht u
    obtain ⟨-, hClosed, hZero⟩ := h.deletes.deleting t p ht
    exact ⟨h.counts.no_ref hClosed hZero u, fun hu => h.deletes.unique u t p hu ht⟩
  · intro hQuiescent
    refine ⟨l, h.nodes.linked, ?_⟩
    intro p
    refine ⟨?_, h.nodes.onChain p⟩
    intro hAlloc
    have hIdle : ∀ u, s.owned u = none ∧ s.held u = none ∧ s.deleting u = none := by
      intro u
      obtain ⟨last, hLast⟩ := hQuiescent u
      obtain ⟨hHeld, -, hOwned, hDeleting⟩ := role_at hLast
      exact ⟨hOwned, hHeld, hDeleting⟩
    by_contra hOff
    have hNotOwned : ∀ u, s.owned u ≠ some p := by
      intro u hu
      rw [(hIdle u).1] at hu
      cases hu
    obtain ⟨u, hu | hu⟩ := h.covered hAlloc hOff hNotOwned
    · rw [(hIdle u).2.1] at hu
      cases hu
    · rw [(hIdle u).2.2] at hu
      cases hu

end

end Inv

end EmbLinux.DesignLockFree.Stack
