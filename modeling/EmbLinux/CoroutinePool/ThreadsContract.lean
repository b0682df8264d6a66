import EmbLinux.CoroutinePool.Threads
import EmbLinux.Lib.Measure

/-!
# EmbLinux — the coroutine pool with any number of threads

The regions under the spinlock take effect as a whole: in every interleaving of their
accesses, and of the clients' writes to their blocks, the members are those of some sequence
of calls (`Inv.calls`), and the histories are linearizable. The store of a `next` field into
a block that comes back is a write to a block that is still outstanding.

`pool_threads_contract` — the accounting of the pool in every state, one thread at most with
the lock, and every call can return.

## Results

* `overwrite_next`, `linkBlock_call` — the store of the list pointer is a write of the client
  that gives the block back, so the sequential lemmas apply to the halves of `deallocate`.
* `inv_turn`, `inv_reachable` — the step and the run lemma of the invariant.
* `moves_turn` — each access is matched by the abstract block pool.
* `Inv.exists_return` — whoever is in a call can return, after the thread that has the lock.
-/

namespace EmbLinux.CoroutinePool.Threads

-- ---------------------------------------------------------------------------
-- The stores of a region
-- ---------------------------------------------------------------------------

section

variable {mem : CoroutinePool.State} {p : BlockPool Nat} {size ptr b : Nat}

/-- A write to a block does not reach another one. -/
theorem overwrite_other (h : Represents mem p) (hBlock : ptr ∈ mem.blocks) (hb : b ∈ mem.blocks)
    (hne : b ≠ ptr) (contents : Nat → Nat) :
    overwrite mem.pool.next ptr mem.pool.blockSize contents b = mem.pool.next b := by
  have hApart := h.fits.apart hb hBlock hne
  have hRoomy := h.fits.roomy
  unfold overwrite
  rw [if_neg]
  rintro ⟨hFrom, hTo⟩
  omega

/-- What the region of `allocate` does in several accesses is the call of the sequential model,
-/
theorem popBlock_call (h : Represents mem p) (hSize : size ≤ mem.pool.blockSize)
    (hFree : mem.pool.freeList ≠ 0) :
    mem.allocate size = (some mem.pool.freeList,
      popBlock mem mem.pool.freeList (mem.pool.next mem.pool.freeList)) := by
  rw [CoroutinePool.State.allocate, Pool.allocate]
  simp [h.initialized, Nat.not_lt.mpr hSize, hFree, popBlock]

/-- and takes the head of the abstract pool. -/
theorem popBlock_represents (h : Represents mem p) (hSize : size ≤ mem.pool.blockSize)
    (hFree : mem.pool.freeList ≠ 0) : ∃ p', p.take = some (mem.pool.freeList, p') ∧
      Represents (popBlock mem mem.pool.freeList (mem.pool.next mem.pool.freeList)) p' := by
  have hCall := popBlock_call h hSize hFree
  rcases h.allocate size with ⟨-, block, p', hTake, hEq, hNew⟩ | ⟨-, hEq⟩
  · rw [hCall] at hEq hNew
    obtain rfl : mem.pool.freeList = block := Option.some.inj (congrArg Prod.fst hEq)
    exact ⟨p', hTake, hNew⟩
  · rw [hCall] at hEq
    simp at hEq

/-- A write to the whole of a block includes the list pointer that `deallocate` puts there. -/
theorem overwrite_next (h : Represents mem p) (head : Nat) :
    overwrite mem.pool.next ptr mem.pool.blockSize (Function.update mem.pool.next ptr head) =
      Function.update mem.pool.next ptr head := by
  have hRoomy := h.fits.roomy
  funext address
  unfold overwrite
  split
  · rfl
  · next hOut =>
    have hne : address ≠ ptr := by
      rintro rfl
      simp only [sizeofBlock] at hOut hRoomy
      omega
    rw [Function.update_of_ne hne]

/-- The first half of `deallocate` is a write of the client to his own block, -/
theorem linkBlock_call (h : Represents mem p) (hTaken : ptr ∈ mem.outstanding)
    (hBlock : ptr ∈ mem.blocks) (head : Nat) :
    callStep mem (.write ptr (Function.update mem.pool.next ptr head)) =
      some (linkBlock mem ptr head) := by
  simp only [callStep]
  rw [if_pos ⟨h.initialized, hTaken, hBlock⟩, overwrite_next h]
  rfl

/-- which changes nothing of the abstract pool, -/
theorem linkBlock_represents (h : Represents mem p) (hTaken : ptr ∈ mem.outstanding)
    (hBlock : ptr ∈ mem.blocks) (head : Nat) : Represents (linkBlock mem ptr head) p := by
  have hWrite := h.write hTaken hBlock (Function.update mem.pool.next ptr head)
  rw [overwrite_next h] at hWrite
  exact hWrite

/-- and the second half is the call of the sequential model. -/
theorem pushBlock_call (h : Represents mem p) (hBlock : ptr ∈ mem.blocks)
    (hNext : mem.pool.next ptr = mem.pool.freeList) :
    mem.deallocate ptr = pushBlock mem ptr := by
  have hNull : ptr ≠ 0 := h.fits.ne_zero hBlock
  rw [CoroutinePool.State.deallocate, Pool.deallocate]
  simp [h.initialized, hNull, ← hNext, pushBlock]

end

-- ---------------------------------------------------------------------------
-- The invariant
-- ---------------------------------------------------------------------------

/-- The pool before `init`, and what `init` was called with. -/
structure Started (pool : Pool) (max_coroutines block_size buffer : Nat) : Prop where
  uninit : pool.initialized = false
  some : 1 ≤ max_coroutines
  noOverflow : NoOverflow max_coroutines block_size
  newed : Newed (bufferBytes max_coroutines block_size) buffer

variable {τ : Type*} [DecidableEq τ] {pool : Pool} {max_coroutines block_size buffer : Nat}
  {s s' : State τ} {t u : τ} {a : Action τ} {l : Pc} {mem : CoroutinePool.State}
  {p : BlockPool Nat} {ptr : Nat}

/-- The memory is that of a sequential run, the spinlock is held by one thread at most, the
pointers that are on their way back are outstanding, each with one thread, and the local copies
of a thread in a region are current. -/
structure Inv (pool : Pool) (max_coroutines block_size buffer : Nat) (s : State τ) : Prop where
  /-- The members are those of some sequence of calls. -/
  calls : (callSystem pool max_coroutines block_size buffer).ReachableWhere Promised s.mem
  /-- The flag is set while one thread is in a region. -/
  held : Held s.flag fun t => (s.pc t).holds
  /-- What a thread gives back is still with its client, -/
  given : ∀ t ptr, (s.pc t).gives = some ptr → ptr ∈ s.mem.outstanding
  /-- and given back by this thread alone. -/
  once : ∀ t u ptr, (s.pc t).gives = some ptr → (s.pc u).gives = some ptr → t = u
  /-- What the thread has read under the lock is still so. -/
  pc : ∀ t, (s.pc t).Ok s.mem

/-- A thread outside the regions has no copies. -/
theorem Pc.ok_of_outside (h : l.holds = false) (mem : CoroutinePool.State) : l.Ok mem := by
  cases l <;> simp_all [Pc.holds, Pc.Ok]

omit [DecidableEq τ] in
/-- Two threads inside are one thread. -/
theorem Inv.unique (h : Inv pool max_coroutines block_size buffer s)
    (ht : (s.pc t).holds = true) (hu : (s.pc u).holds = true) : t = u := by
  obtain ⟨owner, hGuards, -⟩ := h.held
  exact hGuards.unique ht hu

omit [DecidableEq τ] in
/-- So the sequential results hold in every state. -/
theorem Inv.pooled (h : Inv pool max_coroutines block_size buffer s)
    (hStarted : Started pool max_coroutines block_size buffer) :
    Pooled max_coroutines block_size buffer s.mem :=
  CoroutinePool.pooled hStarted.uninit hStarted.some hStarted.noOverflow hStarted.newed.1 h.calls

/-- A step that leaves the members as they are. -/
theorem Inv.goTo (h : Inv pool max_coroutines block_size buffer s)
    (hPc : s'.pc = Function.update s.pc t l) (hMem : s'.mem = s.mem)
    (hFlag : FlagMove s.flag s'.flag (s.pc t).holds l.holds)
    (hGives : ∀ ptr, l.gives = some ptr →
      ptr ∈ s.mem.outstanding ∧ ∀ u, u ≠ t → (s.pc u).gives ≠ some ptr)
    (hOk : l.Ok s.mem) : Inv pool max_coroutines block_size buffer s' := by
  refine ⟨hMem ▸ h.calls, h.held.move hPc hFlag, ?_, ?_, ?_⟩
  · intro u ptr hu
    rw [hMem]
    rcases update_cases hPc u with ⟨-, hAt⟩ | ⟨-, hAt⟩ <;> rw [hAt] at hu
    · exact (hGives ptr hu).1
    · exact h.given u ptr hu
  · intro u v ptr hu hv
    rcases update_cases hPc u with ⟨rfl, hAt⟩ | ⟨hut, hAt⟩ <;> rw [hAt] at hu <;>
      rcases update_cases hPc v with ⟨rfl, hAt'⟩ | ⟨hvt, hAt'⟩ <;> rw [hAt'] at hv
    · exact absurd hv ((hGives ptr hu).2 v hvt)
    · exact absurd hu ((hGives ptr hv).2 u hut)
    · exact h.once u v ptr hu hv
  · intro u
    rw [hMem]
    rcases update_cases hPc u with ⟨-, hAt⟩ | ⟨-, hAt⟩ <;> rw [hAt]
    · exact hOk
    · exact h.pc u

/-- The same where the thread gives back what it gave back before, or nothing. -/
theorem Inv.goOn (h : Inv pool max_coroutines block_size buffer s)
    (hPc : s'.pc = Function.update s.pc t l) (hMem : s'.mem = s.mem)
    (hFlag : FlagMove s.flag s'.flag (s.pc t).holds l.holds)
    (hGives : l.gives = none ∨ l.gives = (s.pc t).gives) (hOk : l.Ok s.mem) :
    Inv pool max_coroutines block_size buffer s' := by
  refine h.goTo hPc hMem hFlag ?_ hOk
  intro ptr hl
  have hOld : (s.pc t).gives = some ptr := by
    rcases hGives with hNone | hSame
    · rw [hNone] at hl
      cases hl
    · rw [← hSame, hl]
  exact ⟨h.given t ptr hOld, fun u hut hu => hut (h.once u t ptr hu hOld)⟩

/-- A store of the thread with the lock, which is a call of the pool. -/
theorem Inv.store (h : Inv pool max_coroutines block_size buffer s)
    (hPc : s'.pc = Function.update s.pc t l) (hFlag : s'.flag = s.flag)
    (hOld : (s.pc t).holds = true) (hNew : l.holds = true) {c : Call}
    (hCall : callStep s.mem c = some s'.mem) (hPromised : Promised s.mem c)
    (hGives : l.gives = none ∨ l.gives = (s.pc t).gives)
    (hKept : ∀ ptr, ptr ∈ s.mem.outstanding → (∀ u, u ≠ t → (s.pc u).gives ≠ some ptr) ∧
      l.gives ≠ some ptr ∨ ptr ∈ s'.mem.outstanding)
    (hOk : l.Ok s'.mem) : Inv pool max_coroutines block_size buffer s' := by
  have hSame : ∀ u ptr, (s'.pc u).gives = some ptr → (s.pc u).gives = some ptr := by
    intro u ptr hu
    rcases update_cases hPc u with ⟨rfl, hAt⟩ | ⟨-, hAt⟩ <;> rw [hAt] at hu
    · rcases hGives with hNone | hEq
      · rw [hNone] at hu
        cases hu
      · rw [← hEq, hu]
    · exact hu
  refine ⟨.act h.calls c hPromised hCall, h.held.move hPc ?_, ?_, ?_, ?_⟩
  · rw [hFlag, hOld, hNew]
    exact .keep
  · intro u ptr hu
    rcases hKept ptr (h.given u ptr (hSame u ptr hu)) with ⟨hOthers, hl⟩ | hStill
    · rcases update_cases hPc u with ⟨-, hAt⟩ | ⟨hut, hAt⟩ <;> rw [hAt] at hu
      · exact absurd hu hl
      · exact absurd hu (hOthers u hut)
    · exact hStill
  · intro u v ptr hu hv
    exact h.once u v ptr (hSame u ptr hu) (hSame v ptr hv)
  · intro u
    rcases update_cases hPc u with ⟨-, hAt⟩ | ⟨hut, hAt⟩ <;> rw [hAt]
    · exact hOk
    · refine Pc.ok_of_outside (Bool.eq_false_iff.mpr fun hu => hut (h.unique hu hOld)) _

omit [DecidableEq τ] in
/-- A client writes to a block that nobody gives back. -/
theorem Inv.write (hStarted : Started pool max_coroutines block_size buffer)
    (h : Inv pool max_coroutines block_size buffer s) {contents : Nat → Nat}
    (hKept : ∀ u, (s.pc u).gives ≠ some ptr)
    (hWrite : callStep s.mem (.write ptr contents) = some mem) :
    Inv pool max_coroutines block_size buffer { s with mem := mem } := by
  have hPooled := h.pooled hStarted
  obtain ⟨p, hRepresents⟩ := hPooled.represents
  refine ⟨.act h.calls (.write ptr contents) trivial hWrite, h.held, ?_, h.once, ?_⟩ <;>
    simp only [callStep] at hWrite <;> split at hWrite <;> cases hWrite
  · exact h.given
  · next hGuard =>
    obtain ⟨-, hTaken, hBlock⟩ := hGuard
    intro u
    have hOk := h.pc u
    cases hpc : s.pc u <;> rw [hpc] at hOk
    case pop size block next =>
      -- the front block is free
      obtain ⟨hSize, hFree, rfl, hNext⟩ := hOk
      obtain ⟨p', hTake, -⟩ := popBlock_represents hRepresents hSize hFree
      have hne : s.mem.pool.freeList ≠ ptr := by
        intro hEq
        have hNot := hRepresents.accounts.not_taken hTake
        rw [hRepresents.taken, hEq] at hNot
        exact hNot hTaken
      have hMem := hRepresents.accounts.mem_of_take hTake
      exact ⟨hSize, hFree, rfl,
        hNext.trans (overwrite_other hRepresents hBlock hMem hne contents).symm⟩
    case push block =>
      have hGives : (s.pc u).gives = some block := by rw [hpc]; rfl
      have hne : block ≠ ptr := by
        rintro rfl
        exact hKept u hGives
      have hMem := hPooled.own block (h.given u block hGives)
      exact (overwrite_other hRepresents hBlock hMem hne contents).trans hOk
    all_goals exact hOk

/-- Each access keeps the invariant; a region ends in one call of the sequential model. -/
theorem inv_turn (hStarted : Started pool max_coroutines block_size buffer)
    (h : Inv pool max_coroutines block_size buffer s) (hKept : Kept s a) (ha : Turn s a s') :
    Inv pool max_coroutines block_size buffer s' := by
  have hPooled := h.pooled hStarted
  obtain ⟨p, hRepresents⟩ := hPooled.represents
  cases ha with
  -- what a client gives back it holds, and nobody else gives back
  | @call t op hIdle =>
    refine h.goTo (t := t) (l := op.entry) rfl rfl ?_ ?_ ?_
    · rw [hIdle]
      cases op <;> exact .keep
    · intro ptr hl
      cases op with
      | allocate size => cases hl
      | deallocate q =>
        by_cases hNull : q = 0
        · simp [Op.entry, Pc.gives, hNull] at hl
        · obtain rfl : q = ptr := by simpa [Op.entry, Pc.gives, hNull] using hl
          obtain ⟨hTaken, hOnce⟩ := hKept.resolve_left hNull
          exact ⟨hTaken, fun u _ => hOnce u⟩
    · cases op <;> trivial
  | @goOn t l hStage hRuns hHolds hGives hOk =>
    refine h.goOn rfl rfl ?_ (Or.inr hGives) (hOk (h.pc t))
    rw [hHolds]
    exact .keep
  | @null t hpc =>
    refine h.goOn (t := t) rfl rfl ?_ (Or.inl rfl) trivial
    rw [hpc]
    exact .keep
  | @lock t op hpc hFlag =>
    refine h.goOn (t := t) (l := op.region) rfl rfl ?_ ?_ (by cases op <;> trivial)
    · rw [hFlag, hpc]
      cases op <;> exact .set
    · rw [hpc]
      cases op
      · exact Or.inl rfl
      · exact Or.inr rfl
  -- `init` comes before all threads
  | noPool hHolds hInit =>
    rw [hRepresents.initialized] at hInit
    cases hInit
  | @tooLarge t size hpc hSize =>
    refine h.goOn (t := t) rfl rfl ?_ (Or.inl rfl) trivial
    rw [hpc]
    exact .keep
  | @exhausted t size hpc hFree =>
    refine h.goOn (t := t) rfl rfl ?_ (Or.inl rfl) trivial
    rw [hpc]
    exact .keep
  -- the access of `allocate` that stores: it takes the block off the list
  | @pop t size block next hpc =>
    have hOk := h.pc t
    rw [hpc] at hOk
    obtain ⟨hSize, hFree, rfl, rfl⟩ := hOk
    refine h.store (t := t) (l := .clear (.pointer s.mem.pool.freeList))
      (c := .allocate size) rfl rfl (by rw [hpc]; rfl) rfl ?_ trivial (Or.inl rfl) ?_ trivial
    · simp only [callStep, popBlock_call hRepresents hSize hFree]
    · intro ptr hptr
      exact Or.inr (List.mem_cons_of_mem _ hptr)
  -- the store of the list pointer: the block is still with its client
  | @link t block head hpc =>
    have hOk := h.pc t
    rw [hpc] at hOk
    have hTaken := h.given t block (by rw [hpc]; rfl)
    have hBlock := hPooled.own block hTaken
    refine h.store (t := t) (l := .push block)
      (c := .write block (Function.update s.mem.pool.next block head)) rfl rfl
      (by rw [hpc]; rfl) rfl (linkBlock_call hRepresents hTaken hBlock head) trivial
      (Or.inr (by rw [hpc]; rfl)) (fun ptr hptr => Or.inr hptr) ?_
    show Function.update s.mem.pool.next block head block = s.mem.pool.freeList
    rw [Function.update_self]
    exact hOk
  -- the store of the head: from here on it is a free block
  | @push t block hpc =>
    have hNext := h.pc t
    rw [hpc] at hNext
    have hGives : (s.pc t).gives = some block := by rw [hpc]; rfl
    have hTaken := h.given t block hGives
    have hBlock := hPooled.own block hTaken
    refine h.store (t := t) (l := .clear .deallocated) (c := .deallocate block) rfl rfl
      (by rw [hpc]; rfl) rfl ?_ hTaken (Or.inl rfl) ?_ trivial
    · simp only [callStep, pushBlock_call hRepresents hBlock hNext]
    · intro ptr hptr
      by_cases hEq : ptr = block
      · exact Or.inl ⟨fun u hut hu => hut (h.once u t ptr hu (hEq ▸ hGives)), by simp [Pc.gives]⟩
      · exact Or.inr ((List.mem_erase_of_ne hEq).mpr hptr)
  | @clear t result hpc =>
    refine h.goOn (t := t) rfl rfl ?_ (Or.inl rfl) trivial
    rw [hpc]
    exact .clear
  | @leave t result hpc =>
    refine h.goOn (t := t) rfl rfl ?_ (Or.inl rfl) trivial
    rw [hpc]
    exact .keep
  | @write ptr contents mem hWrite => exact h.write hStarted hKept hWrite

theorem inv_init (pool : Pool) (max_coroutines block_size buffer : Nat) :
    Inv pool max_coroutines block_size buffer
      (system τ pool max_coroutines block_size buffer).init := by
  refine ⟨.init, ⟨none, fun t => ?_, rfl⟩, ?_, ?_, fun _ => trivial⟩ <;>
    simp [system, Pc.holds, Pc.gives]

/-- The invariant in every state of a run in which the clients keep the promise. -/
theorem inv_reachable (hStarted : Started pool max_coroutines block_size buffer)
    (h : (system τ pool max_coroutines block_size buffer).ReachableWhere Kept s) :
    Inv pool max_coroutines block_size buffer s :=
  h.invariant (inv_init pool max_coroutines block_size buffer)
    fun _ _ _ _ hI hKept hst => inv_turn hStarted hI hKept (step_turn hst)

-- ---------------------------------------------------------------------------
-- Linearizability
-- ---------------------------------------------------------------------------

def stage (s : State τ) (t : τ) : Stage Op Ret := (s.pc t).stage

/-- A step of one thread changes the stage of this thread. -/
theorem stage_update (hPc : s'.pc = Function.update s.pc t l) :
    stage s' = Function.update (stage s) t l.stage := by
  unfold stage
  rw [hPc, part_update Pc.stage]

variable {blocks : List Nat} {blockSize : Nat}

omit [DecidableEq τ] in
/-- No other step than the last one of a call answers it. -/
theorem rets_of_stage (h : ∀ result, s.pc t ≠ .leave result) : rets s (.run t) s' = none := by
  simp only [rets]

/-- The operation takes effect. -/
theorem moves_effect {op : Op} {answer : Ret} {p' : BlockPool Nat}
    (hPc : s'.pc = Function.update s.pc t l) (hPending : (s.pc t).stage = .pending op)
    (hApply : (blockPool blockSize blocks).apply p op = (p', answer))
    (hDone : l.stage = .done answer) (hRuns : ∀ result, s.pc t ≠ .leave result) :
    Moves (blockPool blockSize blocks) (stage s) p none (rets s (.run t) s') (stage s') p' := by
  have hEffect : Moves (blockPool blockSize blocks) (stage s) p none none _ _ :=
    Moves.effect_only hPending
  rw [hApply] at hEffect
  rw [rets_of_stage hRuns, stage_update hPc, hDone]
  exact hEffect

/-- A step that has no effect on the pool that the clients see. -/
theorem moves_stay (hPc : s'.pc = Function.update s.pc t l) (hStage : l.stage = (s.pc t).stage)
    (hRuns : ∀ result, s.pc t ≠ .leave result) :
    Moves (blockPool blockSize blocks) (stage s) p none (rets s (.run t) s') (stage s') p := by
  have hSame : stage s' = stage s := by
    rw [stage_update hPc, hStage]
    exact Function.update_eq_self t (stage s)
  rw [rets_of_stage hRuns, hSame]
  exact .stay

/-- Each access is matched by the abstract pool: an operation takes effect at the access that
takes the block off the list or puts it on, or at the test that refuses it. -/
theorem moves_turn (hStarted : Started pool max_coroutines block_size buffer)
    (h : Inv pool max_coroutines block_size buffer s) (hAbs : Represents s.mem p)
    (ha : Turn s a s') : ∃ p', Represents s'.mem p' ∧
      Moves (blockPool (roundBlockSize block_size) blocks) (stage s) p (calls a) (rets s a s')
        (stage s') p' := by
  have hPooled := h.pooled hStarted
  cases ha with
  | @call t op hIdle =>
    refine ⟨p, hAbs, ?_⟩
    have hPending : op.entry.stage = .pending op := by cases op <;> rfl
    have hStage : stage (s.setPc t op.entry) = Function.update (stage s) t (.pending op) := by
      rw [← hPending]
      exact stage_update rfl
    rw [hStage]
    exact .call (by rw [stage, hIdle]; rfl)
  | @goOn t l hStage hRuns hHolds hGives hOk =>
    exact ⟨p, hAbs, moves_stay rfl hStage hRuns⟩
  | @null t hpc =>
    have hApply : (blockPool (roundBlockSize block_size) blocks).apply p (.deallocate 0) =
        (p, .deallocated) := by simp [blockPool]
    exact ⟨p, hAbs, moves_effect (l := .leave .deallocated) rfl (by rw [hpc]; rfl) hApply rfl
      (by simp [hpc])⟩
  | @lock t op hpc hFlag =>
    refine ⟨p, hAbs, moves_stay (l := op.region) rfl ?_ (by simp [hpc])⟩
    rw [hpc]
    cases op <;> rfl
  | noPool hHolds hInit =>
    rw [hAbs.initialized] at hInit
    cases hInit
  -- a refusal takes effect at its test,
  | @tooLarge t size hpc hSize =>
    rw [hPooled.blockSize] at hSize
    have hApply : (blockPool (roundBlockSize block_size) blocks).apply p (.allocate size) =
        (p, .badAlloc) := if_pos hSize
    exact ⟨p, hAbs, moves_effect (l := .clear .badAlloc) rfl (by rw [hpc]; rfl) hApply rfl
      (by simp [hpc])⟩
  | @exhausted t size hpc hFree =>
    have hSize := h.pc t
    rw [hpc] at hSize
    replace hSize : size ≤ roundBlockSize block_size := hPooled.blockSize ▸ hSize
    have hNil : p.free = [] := (hFree ▸ hAbs.chain).eq_nil
    have hTake : p.take = none := by rw [BlockPool.take, hNil]
    have hApply : (blockPool (roundBlockSize block_size) blocks).apply p (.allocate size) =
        (p, .badAlloc) := by
      simp only [blockPool, if_neg (Nat.not_lt.mpr hSize), hTake]
    exact ⟨p, hAbs, moves_effect (l := .clear .badAlloc) rfl (by rw [hpc]; rfl) hApply rfl
      (by simp [hpc])⟩
  -- an `allocate` when the block is off the list,
  | @pop t size block next hpc =>
    have hOk := h.pc t
    rw [hpc] at hOk
    obtain ⟨hSize, hFree, rfl, rfl⟩ := hOk
    obtain ⟨p', hTake, hNew⟩ := popBlock_represents hAbs hSize hFree
    replace hSize : size ≤ roundBlockSize block_size := hPooled.blockSize ▸ hSize
    have hApply : (blockPool (roundBlockSize block_size) blocks).apply p (.allocate size) =
        (p', .pointer s.mem.pool.freeList) := by
      simp only [blockPool, if_neg (Nat.not_lt.mpr hSize), hTake]
    exact ⟨p', hNew, moves_effect (l := .clear (.pointer s.mem.pool.freeList)) rfl
      (by rw [hpc]; rfl) hApply rfl (by simp [hpc])⟩
  | @link t block head hpc =>
    have hTaken := h.given t block (by rw [hpc]; rfl)
    have hBlock := hPooled.own block hTaken
    exact ⟨p, linkBlock_represents hAbs hTaken hBlock head,
      moves_stay (l := .push block) rfl (by rw [hpc]; rfl) (by simp [hpc])⟩
  -- and a `deallocate` when it is on it
  | @push t block hpc =>
    have hNext := h.pc t
    rw [hpc] at hNext
    have hTaken := h.given t block (by rw [hpc]; rfl)
    have hBlock := hPooled.own block hTaken
    have hNull : block ≠ 0 := hAbs.fits.ne_zero hBlock
    have hNew := hAbs.deallocate hTaken hBlock
    rw [pushBlock_call hAbs hBlock hNext] at hNew
    have hApply : (blockPool (roundBlockSize block_size) blocks).apply p (.deallocate block) =
        (p.give block, .deallocated) := if_neg hNull
    exact ⟨p.give block, hNew, moves_effect (l := .clear .deallocated) rfl
      (by rw [hpc]; rfl) hApply rfl (by simp [hpc])⟩
  | @clear t result hpc =>
    exact ⟨p, hAbs, moves_stay (l := .leave result) rfl (by rw [hpc]; rfl) (by simp [hpc])⟩
  | @leave t result hpc =>
    refine ⟨p, hAbs, ?_⟩
    have hRets : rets s (.run t) (s.setPc t .idle) = some (t, result) := by simp [rets, hpc]
    have hStage : stage (s.setPc t .idle) = Function.update (stage s) t Pc.idle.stage :=
      stage_update rfl
    rw [hRets, hStage]
    exact .ret (by rw [stage, hpc]; rfl)
  | @write ptr contents mem hWrite =>
    refine ⟨p, ?_, .stay⟩
    simp only [callStep] at hWrite
    split at hWrite <;> cases hWrite
    next hGuard => exact hAbs.write hGuard.2.1 hGuard.2.2 contents

-- ---------------------------------------------------------------------------
-- Progress
-- ---------------------------------------------------------------------------

/-- The steps of its own that a call has left when it does not wait for the lock. -/
def Pc.rank : Pc → Nat
  | .nullTest _ => 11
  | .test _ => 10
  | .testAndSet _ => 9
  | .initTest _ => 8
  | .sizeTest _ => 7
  | .freeTest _ | .initTestBack _ => 6
  | .head _ | .headBack _ => 5
  | .next _ _ | .link _ _ => 4
  | .pop _ _ _ | .push _ => 3
  | .clear _ => 2
  | .leave _ => 1
  | .idle => 0

/-- The thread does not wait for another one. -/
def Free (s : State τ) (t : τ) : Prop := s.flag = false ∨ (s.pc t).holds = true

/-- A thread that finds the spinlock free, or holds it, makes a step and comes closer to its
return. -/
theorem exists_run (h : Free s t) (hLive : s.pc t ≠ .idle) :
    ∃ s', run s t = some s' ∧ Free s' t ∧ (s'.pc t).rank < (s.pc t).rank := by
  unfold Free at h ⊢
  have hFlag : (s.pc t).holds = false → s.flag = false := by
    intro hOut
    simpa [hOut] using h
  cases hpc : s.pc t with
  | idle => exact absurd hpc hLive
  | testAndSet op | test op =>
    have hClear := hFlag (by rw [hpc]; rfl)
    simp only [run, hpc, Option.some.injEq, exists_eq_left']
    cases op <;> simp [hClear, State.setPc, Op.region, Pc.holds, Pc.rank]
  | leave result =>
    have hClear := hFlag (by rw [hpc]; rfl)
    simp [run, hpc, hClear, State.setPc, Pc.rank]
  | nullTest ptr =>
    have hClear := hFlag (by rw [hpc]; rfl)
    simp only [run, hpc, Option.some.injEq, exists_eq_left']
    split <;> simp [hClear, State.setPc, Pc.rank]
  | initTest size | sizeTest size | freeTest size | initTestBack ptr =>
    simp only [run, hpc, Option.some.injEq, exists_eq_left']
    split <;> simp [State.setPc, Pc.holds, Pc.rank]
  | head size | next size block | pop size block rest | headBack ptr | link block head
  | push block | clear result => simp [run, hpc, State.setPc, Pc.holds, Pc.rank]

/-- Such a thread returns from its call by its own steps. -/
theorem exists_return (pool : Pool) (max_coroutines block_size buffer : Nat) (h : Free s t) :
    ∃ schedule s', (system τ pool max_coroutines block_size buffer).exec s schedule = some s' ∧
      s'.pc t = .idle ∧ s'.flag = false := by
  obtain ⟨schedule, s', -, hExec, hEnd⟩ := System.exists_exec_of_descent
    (S := system τ pool max_coroutines block_size buffer) (q := fun _ => True)
    (p := fun s => s.pc t = .idle ∧ s.flag = false) (I := fun s => Free s t)
    (m := fun s => (s.pc t).rank) (fun s hFree hNot => by
      have hLive : s.pc t ≠ .idle := by
        intro hIdle
        refine hNot ⟨hIdle, hFree.resolve_right ?_⟩
        simp [hIdle, Pc.holds]
      obtain ⟨s', hRun, hFree', hLess⟩ := exists_run hFree hLive
      exact ⟨.run t, s', trivial, hRun, hFree', hLess⟩) h
  exact ⟨schedule, s', hExec, hEnd⟩

/-- From any state there is a schedule in which a thread returns: the holder leaves the region
first. -/
theorem Inv.exists_return (h : Inv pool max_coroutines block_size buffer s) (t : τ) :
    ∃ schedule s', (system τ pool max_coroutines block_size buffer).exec s schedule = some s' ∧
      s'.pc t = .idle := by
  cases hFlag : s.flag with
  | false =>
    obtain ⟨schedule, s', hExec, hIdle, -⟩ :=
      Threads.exists_return pool max_coroutines block_size buffer (t := t) (Or.inl hFlag)
    exact ⟨schedule, s', hExec, hIdle⟩
  | true =>
    -- the thread with the lock first
    obtain ⟨owner, hGuards, hOwner⟩ := h.held
    rw [hFlag] at hOwner
    obtain ⟨u, rfl⟩ := Option.isSome_iff_exists.mp hOwner.symm
    obtain ⟨before, s₁, hBefore, -, hFree⟩ := Threads.exists_return pool max_coroutines
      block_size buffer (t := u) (Or.inr ((hGuards u).mp rfl))
    obtain ⟨after, s', hAfter, hIdle, -⟩ := Threads.exists_return pool max_coroutines
      block_size buffer (t := t) (Or.inl hFree)
    refine ⟨before ++ after, s', ?_, hIdle⟩
    rw [System.exec_append, hBefore, Option.bind_some, hAfter]

-- ---------------------------------------------------------------------------
-- The contract
-- ---------------------------------------------------------------------------

/-- The pool that its clients see. -/
abbrev seen (max_coroutines block_size buffer : Nat) : Object Op Ret (BlockPool Nat) :=
  blockPool (roundBlockSize block_size)
    (blocksOf buffer (roundBlockSize block_size) max_coroutines)

/-- What the pool promises to threads. -/
structure ThreadsContract (pool : Pool) (max_coroutines block_size buffer : Nat)
    (x : State τ × Record τ Op Ret) : Prop where
  /-- The accounting of the pool, also in the middle of a region. -/
  accounting : PoolContract max_coroutines block_size buffer x.1.mem
  /-- The calls are explained by a sequential order, which leads to the pool as it is. -/
  linearizable : ∃ log, (seen max_coroutines block_size buffer).Explains log x.2.history ∧
    Represents x.1.mem ((seen max_coroutines block_size buffer).after log)
  /-- `Spinlock` lets one thread at most into a region. -/
  exclusive : ∀ t u, (x.1.pc t).holds = true → (x.1.pc u).holds = true → t = u
  /-- Every call can return. -/
  returns : ∀ t, ∃ schedule s',
    (system τ pool max_coroutines block_size buffer).exec x.1 schedule = some s' ∧ s'.pc t = .idle

/-- **The pool keeps its contract with any number of threads**, in every interleaving of the
accesses under the spinlock and of the clients' writes to their blocks. A client that gives a
pointer back twice, or writes to a block that it gives back, is excluded by `Kept`; fairness of
the spinlock is not assumed. -/
theorem pool_threads_contract {x : State τ × Record τ Op Ret}
    (hStarted : Started pool max_coroutines block_size buffer)
    (h : ((system τ pool max_coroutines block_size buffer).recorded calls rets).ReachableWhere
      (fun x a => Kept x.1 a) x) :
    ThreadsContract pool max_coroutines block_size buffer x := by
  have hI := inv_reachable hStarted (recorded_reachable h)
  refine ⟨(hI.pooled hStarted).contract hStarted.noOverflow, ?_, ?_, hI.exists_return⟩
  · refine recorded_explained (O := seen max_coroutines block_size buffer) Kept stage
      (fun s p => Represents s.mem p) ?_ (fun _ => rfl) ?_ h
    · exact represents_init hStarted.uninit hStarted.some hStarted.noOverflow hStarted.newed.1
        List.nodup_nil fun _ _ => List.not_mem_nil
    · intro s a s' p hs hAbs hKept hst
      exact moves_turn hStarted (inv_reachable hStarted hs) hAbs (step_turn hst)
  · intro t u ht hu
    exact hI.unique ht hu

/-- Two threads in their regions in turn: one gives back a block that it has written to,
while the other one waits for the lock and then gets this block. -/
theorem pool_threads_contract_two :
    ∃ x : State Bool × Record Bool Op Ret,
      ((system Bool (Pool.start fun _ => 0) 1 20 64).recorded calls rets).ReachableWhere
        (fun x a => Kept x.1 a) x ∧ x.1.pc true = .leave (.pointer 64) ∧
      ThreadsContract (Pool.start fun _ => 0) 1 20 64 x := by
  obtain ⟨x, hx, hpc⟩ := System.exists_reachableWhere_of_exec
    (S := (system Bool (Pool.start fun _ => 0) 1 20 64).recorded calls rets)
    (c := fun x a => decide (Kept x.1 a)) (fun _ _ => of_decide_eq_true)
    (p := fun x => x.1.pc true = .leave (.pointer 64))
    (List.flatten [[.call false (.allocate 20)], List.replicate 9 (.run false),
      [.write 64 (fun _ => 7), .call false (.deallocate 64), .run false, .run false,
        .call true (.allocate 32), .run true, .run true], List.replicate 6 (.run false),
      List.replicate 9 (.run true)]) (by decide +kernel)
  exact ⟨x, hx, hpc, pool_threads_contract ⟨rfl, by decide, by decide, by decide⟩ hx⟩

end EmbLinux.CoroutinePool.Threads
