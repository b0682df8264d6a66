import EmbLinux.Task.Simulation
import Mathlib.Data.Set.Card

/-!
# EmbLinux — what `Task` promises

`TreeContract` is about every state of a run: the blocks of the tree are its live
frames, and each frame goes through its life in order, so that a body starts after it
is awaited, and its awaiting coroutine goes on once, after it finished. When the
driver has the result, which is that of the direct calls, no frame is left and the
blocks are back.

The bodies are any trees that are `WellFormed`: what the header asks of those who await. Any
number of blocks may be free at the start, also none; the coroutine that calls one which gets
no block goes on with the exception.
-/

namespace EmbLinux.Task

variable {V E : Type} {bad_alloc : E} {max_coroutines block_size buffer : Nat}
  {held : List Nat} {pool : CoroutinePool.State} {size : Nat} {root : Body V E}
  {s s' : State V E} {h : Handle} {f : Frame V E} {result : Except E (Option V)}

/-- The body of the coroutine has started. -/
def Frame.started (f : Frame V E) : Bool :=
  match f.point with
  | .initial _ => false
  | _ => true

/-- What holds in a state of a run that ends with `result`. `held` are the blocks that
were handed out before. -/
structure TreeContract (max_coroutines buffer : Nat) (held : List Nat)
    (result : Except E (Option V)) (s : State V E) : Prop where
  /-- The blocks outstanding are the live frames, besides those of others. -/
  blocks : s.pool.outstanding.length = held.length + {a | s.frames (.block a) ≠ none}.ncard
  /-- A live frame has gone through a part of its life, in order, and what it has gone
  through is where it stands. -/
  lives : ∀ a f, s.frames (.block a) = some f → f.events <+: life ∧
    (.started ∈ f.events ↔ f.started = true) ∧ (.finished ∈ f.events ↔ f.done = true)
  /-- A frame is destroyed at the end of its life, or without having been awaited. -/
  ended : ∀ l ∈ s.ended, l = life ∨ l = [.created, .destroyed]
  /-- The driver gets the result, when all frames are gone. -/
  halted : ∀ r, s.control = .halted r → r = result ∧ ∀ a, s.frames (.block a) = none
  /-- Then all other blocks are back in the free list. -/
  returned : ∀ r, s.control = .halted r → s.pool.outstanding.Perm held ∧
    ∃ free, Linked s.pool.pool.next 0 s.pool.pool.freeList free ∧
      (free ++ held).Perm
        (CoroutinePool.blocksOf buffer s.pool.pool.blockSize max_coroutines)

/-- The events of a frame are the beginning of a life, as far as the frame has come. -/
theorem Frame.Ok.lives (hOk : f.Ok) : f.events <+: life ∧
    (.started ∈ f.events ↔ f.started = true) ∧ (.finished ∈ f.events ↔ f.done = true) := by
  unfold Frame.Ok at hOk
  unfold Frame.started Frame.done
  split at hOk
  · next hPoint =>
    rw [hPoint]
    rcases hOk with hEvents | hEvents <;> rw [hEvents] <;>
      exact ⟨List.take_prefix .., by simp [life], by simp [life]⟩
  · next hPoint =>
    rw [hPoint, hOk]
    exact ⟨List.take_prefix .., by simp [life], by simp [life]⟩
  · next hPoint =>
    rw [hPoint, hOk]
    exact ⟨List.take_prefix .., by simp [life], by simp [life]⟩
  · next hPoint =>
    rw [hPoint]
    rcases hOk with hEvents | hEvents <;> rw [hEvents] <;>
      exact ⟨List.take_prefix .., by simp [life], by simp [life]⟩

/-- No block is given out twice. -/
theorem Good.nodup (hGood : Good max_coroutines block_size buffer held s) :
    s.pool.outstanding.Nodup := by
  obtain ⟨p, hRepresents⟩ := hGood.pooled.represents
  exact hRepresents.taken ▸ hRepresents.accounts.takenNodup

/-- Counting the blocks of the tree. -/
theorem Good.count (hGood : Good max_coroutines block_size buffer held s) (hHeld : held.Nodup) :
    s.pool.outstanding.length = held.length + {a | s.frames (.block a) ≠ none}.ncard := by
  have hNodup := hGood.nodup
  have hLive : {a | s.frames (.block a) ≠ none} =
      ((s.pool.outstanding.filter (· ∉ held)).toFinset : Set Nat) := by
    ext a
    rw [Set.mem_ofPred_eq, hGood.live a]
    simp
  have hPerm : (held ++ s.pool.outstanding.filter (· ∉ held)).Perm s.pool.outstanding := by
    refine (List.perm_ext_iff_of_nodup ?_ hNodup).mpr ?_
    · refine List.nodup_append'.mpr ⟨hHeld, hNodup.filter _, ?_⟩
      intro a ha hFiltered
      have hNot := (List.mem_filter.mp hFiltered).2
      exact of_decide_eq_true hNot ha
    · intro a
      rw [List.mem_append, List.mem_filter]
      constructor
      · rintro (ha | ha)
        · exact hGood.held a ha
        · exact ha.1
      · intro ha
        by_cases hMem : a ∈ held
        · exact Or.inl hMem
        · exact Or.inr ⟨ha, decide_eq_true hMem⟩
  rw [hLive, Set.ncard_coe_finset, List.toFinset_card_of_nodup (hNodup.filter _),
    ← List.length_append]
  exact hPerm.length_eq.symm

/-- When no frame is left, the blocks of the tree are back. -/
theorem Good.returned (hGood : Good max_coroutines block_size buffer held s)
    (hNoOverflow : CoroutinePool.NoOverflow max_coroutines block_size) (hHeld : held.Nodup)
    (hNone : ∀ a, s.frames (.block a) = none) :
    s.pool.outstanding.Perm held ∧
      ∃ free, Linked s.pool.pool.next 0 s.pool.pool.freeList free ∧
        (free ++ held).Perm
          (CoroutinePool.blocksOf buffer s.pool.pool.blockSize max_coroutines) := by
  have hPerm : s.pool.outstanding.Perm held := by
    refine (List.perm_ext_iff_of_nodup hGood.nodup hHeld).mpr fun a => ⟨?_, hGood.held a⟩
    intro ha
    by_contra hNot
    exact (hGood.live a).mpr ⟨ha, hNot⟩ (hNone a)
  obtain ⟨free, hLinked, hAll⟩ := (hGood.pooled.contract hNoOverflow).conserved
  exact ⟨hPerm, free, hLinked, (hPerm.symm.append_left free).trans hAll⟩

-- ---------------------------------------------------------------------------
-- The driver
-- ---------------------------------------------------------------------------

/-- The pool as it is before the root coroutine is created. -/
theorem good_start (hPooled : CoroutinePool.Pooled max_coroutines block_size buffer pool) :
    Good max_coroutines block_size buffer pool.outstanding (start pool size root) := by
  refine ⟨hPooled, ?_, fun _ ha => ha, ?_, nofun⟩
  · intro a
    exact ⟨fun hne => absurd rfl hne, fun hAnd => absurd hAnd.1 hAnd.2⟩
  · intro a f hf
    cases hf

/-- The function that drives the root is a well-formed body of its own. -/
theorem wellFormed_drive (hFits : size ≤ block_size) (hRoot : root.WellFormed block_size []) :
    (drive size root).WellFormed block_size [] := by
  refine ⟨hFits, hRoot, fun _ => trivial, rfl, ?_⟩
  intro result
  cases result with
  | error e => exact ⟨Nat.zero_lt_one, trivial⟩
  | ok value => exact ⟨Nat.zero_lt_one, trivial⟩

/-- The driver evaluates to the call of the root. -/
theorem callRoot_of_eval {free n : Nat}
    (hEval : (drive size root).eval bad_alloc [] free = some (result, n)) :
    callRoot bad_alloc root free = some result := by
  rw [drive, Body.eval] at hEval
  rw [callRoot]
  split at hEval
  · next hFull =>
    rw [if_pos hFull]
    cases hEval
    rfl
  · next hFree =>
    rw [if_neg hFree]
    simp only [Body.eval, List.nil_append, List.getElem?_cons_zero] at hEval
    cases hRoot : root.eval bad_alloc [] (free - 1) with
    | none =>
      rw [hRoot] at hEval
      cases hEval
    | some outcome =>
      obtain ⟨r, free'⟩ := outcome
      rw [hRoot] at hEval
      cases r with
      | error e =>
        cases hEval
        rfl
      | ok value =>
        cases hEval
        rfl

/-- The run from the start to the end. -/
theorem passes_halted (bad_alloc : E)
    (hPooled : CoroutinePool.Pooled max_coroutines block_size buffer pool)
    (hNoOverflow : CoroutinePool.NoOverflow max_coroutines block_size)
    (t : Tree V E block_size) :
    ∃ result s', callRoot bad_alloc t.root (max_coroutines - pool.outstanding.length) =
        some result ∧
      (machine bad_alloc pool t.size t.root).Passes
        (Good max_coroutines block_size buffer pool.outstanding) (start pool t.size t.root) s' ∧
      s'.control = .halted result ∧ ∀ a, s'.frames (.block a) = none := by
  have hRunning : Running (start pool t.size t.root) .driver ⟨.new, .active, [], []⟩ [] :=
    ⟨rfl, rfl, rfl, rfl, rfl, nofun, List.nodup_nil, nofun⟩
  obtain ⟨result, s', hEval, hPasses, hLeft⟩ := follows hNoOverflow (drive t.size t.root) []
    nofun (wellFormed_drive t.fits t.wellFormed) (start pool t.size t.root) .driver _ rfl
    (good_start hPooled) hRunning
  have hFrame : s'.frames .driver = some ⟨⟨returned result, none, none⟩, .active, [], []⟩ := by
    rw [hLeft.frames, Function.update_self]
    rfl
  have hHalt : step bad_alloc s' = some { s' with control := .halted result } := by
    simp only [step, hLeft.control, stepLeave, hFrame, Option.bind_eq_bind, Option.bind_some]
    cases result <;> rfl
  refine ⟨result, _, callRoot_of_eval hEval,
    hPasses.snoc (a := ()) hHalt (hPasses.last.setControl _), rfl, ?_⟩
  intro a
  show s'.frames (.block a) = none
  rw [hLeft.frames]
  rfl

/-- **Tasks compute what direct calls compute**, and give back all their blocks, for every tree
of coroutines and any number of blocks that are free when it starts: where the pool is
exhausted, `bad_alloc` is raised as the direct calls raise it. That the machine halts is proved.
The pool may be in any state that promised calls reach. -/
theorem tree_contract (bad_alloc : E) {fresh : CoroutinePool.Pool}
    (hUninit : fresh.initialized = false) (hMax : 1 ≤ max_coroutines)
    (hNoOverflow : CoroutinePool.NoOverflow max_coroutines block_size)
    (hNew : CoroutinePool.Newed (CoroutinePool.bufferBytes max_coroutines block_size) buffer)
    (hPool : (CoroutinePool.callSystem fresh max_coroutines block_size buffer).ReachableWhere
      CoroutinePool.Promised pool) (t : Tree V E block_size) :
    ∃ result, callRoot bad_alloc t.root (max_coroutines - pool.outstanding.length) =
        some result ∧
      ∀ s, (machine bad_alloc pool t.size t.root).Reachable s →
        TreeContract max_coroutines buffer pool.outstanding result s ∧
        ∃ as s', (machine bad_alloc pool t.size t.root).exec s as = some s' ∧
          s'.control = .halted result := by
  have hPooled := CoroutinePool.pooled hUninit hMax hNoOverflow hNew.1 hPool
  obtain ⟨result, t', hCall, hPasses, hHalted, hNone⟩ := passes_halted bad_alloc
    hPooled hNoOverflow t
  have hEnd : ∀ a, (machine bad_alloc pool t.size t.root).step t' a = none := by
    intro a
    show step bad_alloc t' = none
    rw [step, hHalted]
  refine ⟨result, hCall, ?_⟩
  intro s hs
  have hRest := System.Passes.of_reachable hPasses hEnd hs
  have hGood := hRest.first
  -- a state where the machine is halted is the last one
  have hLast : ∀ r, s.control = .halted r → s = t' := by
    intro r hr
    cases hRest with
    | refl _ => rfl
    | step _ hst _ =>
      replace hst : step bad_alloc s = some _ := hst
      rw [step, hr] at hst
      cases hst
  have hHeld : pool.outstanding.Nodup := hPasses.first.nodup
  refine ⟨⟨hGood.count hHeld, fun a f hf => (hGood.frames a f hf).lives, hGood.ended, ?_, ?_⟩, ?_⟩
  · intro r hr
    obtain rfl := hLast r hr
    rw [hHalted] at hr
    cases hr
    exact ⟨rfl, hNone⟩
  · intro r hr
    obtain rfl := hLast r hr
    exact hGood.returned hNoOverflow hHeld hNone
  · obtain ⟨as, has⟩ := hRest.exec
    exact ⟨as, t', has, hHalted⟩

/-- A coroutine that calls two others, and makes do with the first one where there is no
block for the second one. -/
def addUp : Tree Nat String 16 where
  size := 16
  root :=
    .create 16 (.coReturn (some 1)) fun
      | .error e => .raise e
      | .ok () => .create 16 (.coReturn (some 41)) fun
        | .error _ => .coAwait 0 fun
          | .error e => .raise e
          | .ok value => .coReturn value
        | .ok () => .coAwait 1 fun
          | .error e => .raise e
          | .ok second => .coAwait 0 fun
            | .error e => .raise e
            | .ok first => .coReturn (some (first.getD 0 + second.getD 0))
  fits := Nat.le_refl 16
  wellFormed := by
    refine ⟨Nat.le_refl 16, trivial, fun _ => trivial, Nat.le_refl 16, trivial, fun _ => ?_, ?_⟩
    · refine ⟨rfl, fun result => ?_⟩
      cases result <;> trivial
    · refine ⟨rfl, fun result => ?_⟩
      cases result with
      | error e => trivial
      | ok second =>
        refine ⟨rfl, fun result => ?_⟩
        cases result <;> trivial

/-- Two blocks are free, and the second call throws. -/
theorem tree_contract_full :
    callRoot "std::bad_alloc" addUp.root 2 = some (.ok (some 1)) ∧
      ∀ s, (machine "std::bad_alloc"
          (CoroutinePool.callSystem (.start fun _ => 0) 2 16 64).init addUp.size
          addUp.root).Reachable s →
        TreeContract 2 64 [] (.ok (some 1)) s := by
  have hCall : callRoot "std::bad_alloc" addUp.root 2 = some (.ok (some 1)) := rfl
  refine ⟨hCall, fun s hs => ?_⟩
  have hInit : (CoroutinePool.callSystem (.start fun _ => 0) 2 16 64).ReachableWhere
      CoroutinePool.Promised (CoroutinePool.callSystem (.start fun _ => 0) 2 16 64).init := .init
  obtain ⟨result, hResult, hAll⟩ := tree_contract "std::bad_alloc" rfl (by decide) (by decide)
    (by decide) hInit addUp
  obtain rfl : result = .ok (some 1) := by
    have hSame : some result = some (.ok (some 1)) := hResult.symm.trans hCall
    exact Option.some.inj hSame
  exact (hAll s hs).1

end EmbLinux.Task
