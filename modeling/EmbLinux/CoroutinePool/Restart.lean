import EmbLinux.CoroutinePool.Accounting

/-!
# EmbLinux — `CoroutinePoolAllocator` over several lifetimes

`deallocate` trusts every pointer once the pool is initialized. A frame may
outlive `destroy`; when it is given back after a new `init`, its old block goes
to the front of the new free list, and the next `allocate` returns it.

`no_stale_block` says what keeps the pool sound: a pointer given back while the
pool is initialized is a block of the buffer owned then, and `new` gives no
`init` a buffer with a block that a client still holds. `stale_block_returned`
is the other half: a stale pointer given back is the next one returned.

## Results

* `Sound` — the free list has no block that a client holds; nothing is said of a pool that is
  not initialized.
* `sound_step` — the step lemma: the two conditions are used at `deallocate` and at `init`.
* `no_stale_block` — the run lemma, for any number of lifetimes.
-/

namespace EmbLinux.CoroutinePool

variable {s s' : State} {a : Action} {next : Nat → Nat}

/-- What the program promises: its sizes do not overflow, and it gives back
pointers that are outstanding. -/
def Lawful (s : State) : Action → Prop
  | .init max_coroutines block_size _ =>
    1 ≤ max_coroutines ∧ NoOverflow max_coroutines block_size
  | .destroy => True
  | .call c => Promised s c

instance (s : State) : DecidablePred (Lawful s)
  | .init _ _ _ => inferInstanceAs (Decidable (_ ∧ _))
  | .destroy => inferInstanceAs (Decidable True)
  | .call c => inferInstanceAs (Decidable (Promised s c))

/-- The block at `ptr` lies inside the buffer that the pool owns. -/
def State.Inside (s : State) (ptr : Nat) : Prop :=
  s.pool.memoryBuffer ≤ ptr ∧
    ptr + s.pool.blockSize ≤ s.pool.memoryBuffer + s.count * s.pool.blockSize

/-- Every pointer that `allocate` returns lies inside the buffer and is not
outstanding. -/
def NoStaleBlock (s : State) : Prop :=
  ∀ size ptr, (s.allocate size).1 = some ptr → s.Inside ptr ∧ ptr ∉ s.outstanding

-- ---------------------------------------------------------------------------
-- The condition
-- ---------------------------------------------------------------------------

/-- While the pool is initialized it is given blocks of its own buffer only, and
no buffer that `new` returns has a block at the address of a pointer that is
outstanding. -/
def Settled (s : State) : Action → Prop
  | .call (.deallocate ptr) => s.pool.initialized = true → ptr ∈ s.blocks
  | .init max_coroutines block_size (some buffer) =>
    s.pool.initialized = false →
      ∀ b ∈ blocksOf buffer (roundBlockSize block_size) max_coroutines, b ∉ s.outstanding
  | _ => True

instance (s : State) : DecidablePred (Settled s)
  | .call (.allocate _) => inferInstanceAs (Decidable True)
  | .call (.deallocate ptr) =>
    inferInstanceAs (Decidable (s.pool.initialized = true → ptr ∈ s.blocks))
  | .call (.write _ _) => inferInstanceAs (Decidable True)
  | .init _ _ none => inferInstanceAs (Decidable True)
  | .init max_coroutines block_size (some buffer) =>
    inferInstanceAs (Decidable (s.pool.initialized = false →
      ∀ b ∈ blocksOf buffer (roundBlockSize block_size) max_coroutines, b ∉ s.outstanding))
  | .destroy => inferInstanceAs (Decidable True)

/-- Whenever the pool is initialized it is the abstract pool of its blocks. -/
structure Sound (s : State) : Prop where
  nodup : s.outstanding.Nodup
  represents : s.pool.initialized = true → ∃ p, Represents s p

/-- A pool whose list is that of its free blocks is sound, -/
theorem Sound.of_represents {p : BlockPool Nat} (h : Represents s p) : Sound s :=
  ⟨h.taken ▸ h.accounts.takenNodup, fun _ => ⟨p, h⟩⟩

/-- and so is a pool that is not initialized, whatever is outstanding. -/
theorem Sound.of_uninitialized (hNodup : s.outstanding.Nodup)
    (hUninit : s.pool.initialized = false) : Sound s := by
  refine ⟨hNodup, ?_⟩
  intro hInit
  rw [hUninit] at hInit
  cases hInit

theorem sound_init : Sound (system next).init :=
  .of_uninitialized List.nodup_nil rfl

-- ---------------------------------------------------------------------------
-- Every step that meets the condition
-- ---------------------------------------------------------------------------

/-- A new buffer has blocks at fresh addresses only, by `Settled`, so its list does not reach a
pointer that is out. -/
theorem Sound.newBuffer (h : Sound s) {max_coroutines block_size : Nat} {buffer : Option Nat}
    (hLawful : Lawful s (.init max_coroutines block_size buffer))
    (hSettled : Settled s (.init max_coroutines block_size buffer))
    (hst : step s (.init max_coroutines block_size buffer) = some s') : Sound s' := by
  simp only [step] at hst
  split at hst
  · cases hst
    exact h
  next hUninit =>
  replace hUninit := Bool.eq_false_iff.mpr hUninit
  split at hst
  · -- `new` throws
    cases hst
    refine .of_uninitialized h.nodup ?_
    rw [Pool.init, hUninit]
    rfl
  · next buffer =>
    split at hst <;> cases hst
    next hNew =>
    exact .of_represents (represents_init hUninit hLawful.1 hLawful.2 hNew.1 h.nodup
      (hSettled hUninit))

/-- After `destroy` there is no list. -/
theorem Sound.destroy (h : Sound s) : Sound { s with pool := s.pool.destroy } := by
  refine .of_uninitialized h.nodup ?_
  simp only [Pool.destroy]
  split
  · next hUninit => simpa using hUninit
  · rfl

/-- A call keeps the list sound; at `deallocate` the block is one of the present buffer. -/
theorem Sound.call (h : Sound s) {c : Call} (hPromised : Promised s c)
    (hSettled : Settled s (.call c)) (hst : callStep s c = some s') : Sound s' := by
  by_cases hInit : s.pool.initialized = true
  · obtain ⟨p, hRepresents⟩ := h.represents hInit
    cases c with
    | allocate size =>
      obtain rfl := Option.some.inj hst
      rcases hRepresents.allocate size with ⟨-, ptr, p', -, -, hNew⟩ | ⟨-, hEq⟩
      · exact .of_represents hNew
      · rw [hEq]
        exact h
    | deallocate ptr =>
      obtain rfl := Option.some.inj hst
      exact .of_represents (hRepresents.deallocate hPromised (hSettled hInit))
    | write ptr contents =>
      simp only [callStep] at hst
      split at hst <;> cases hst
      next hGuard =>
      exact .of_represents (hRepresents.write hGuard.2.1 hGuard.2.2 contents)
  · -- no call acts on a pool that is not initialized
    replace hInit := Bool.eq_false_iff.mpr hInit
    cases c with
    | allocate size =>
      have hEq : s.allocate size = (none, s) := by
        rw [State.allocate, Pool.allocate]
        simp [hInit]
      obtain rfl := Option.some.inj hst
      rw [hEq]
      exact h
    | deallocate ptr =>
      obtain rfl := Option.some.inj hst
      have hPool : s.pool.deallocate ptr = s.pool := by
        rw [Pool.deallocate]
        simp [hInit]
      refine .of_uninitialized (h.nodup.erase ptr) ?_
      rw [State.deallocate, hPool]
      exact hInit
    | write ptr contents =>
      simp [callStep, hInit] at hst

/-- Every step that meets both conditions keeps the pool sound. -/
theorem sound_step (h : Sound s) (hLawful : Lawful s a) (hSettled : Settled s a)
    (hst : step s a = some s') : Sound s' := by
  cases a with
  | init max_coroutines block_size buffer => exact h.newBuffer hLawful hSettled hst
  | destroy =>
    obtain rfl := Option.some.inj hst
    exact h.destroy
  | call c => exact h.call hLawful hSettled hst

/-- What the invariant says of the next `allocate`. -/
theorem Sound.noStaleBlock (h : Sound s) : NoStaleBlock s := by
  intro size ptr hSome
  by_cases hInit : s.pool.initialized = true
  · obtain ⟨p, hRepresents⟩ := h.represents hInit
    rcases hRepresents.allocate size with ⟨-, q, p', hTake, hEq, -⟩ | ⟨-, hEq⟩ <;>
      rw [hEq] at hSome
    · obtain rfl : q = ptr := Option.some.inj hSome
      rw [← hRepresents.taken]
      exact ⟨hRepresents.fits.inside (hRepresents.accounts.mem_of_take hTake),
        hRepresents.accounts.not_taken hTake⟩
    · cases hSome
  · rw [State.allocate, Pool.allocate] at hSome
    simp [hInit] at hSome

/-- **No stale block** in the runs in which an initialized pool is given back its own blocks
only and `new` gives no block that is outstanding. `Lawful` is what any program owes the pool;
`Settled` excludes the return of a block of an earlier buffer after the next `init`, which
`deallocate` puts on the list of the new one. -/
theorem no_stale_block
    (h : (system next).ReachableWhere (fun s a => Lawful s a ∧ Settled s a) s) :
    NoStaleBlock s :=
  Sound.noStaleBlock <| h.invariant (I := Sound) sound_init
    fun _ _ _ _ hI hok hst => sound_step hI hok.1 hok.2 hst

/-- A frame outlives `destroy` and is dropped before the next `init`, in whose
buffer every block is handed out. -/
theorem no_stale_block_restart :
    ∃ s, (system fun _ => 0).ReachableWhere (fun s a => Lawful s a ∧ Settled s a) s ∧
      s.pool.memoryBuffer = 128 ∧ s.outstanding = [128] ∧ NoStaleBlock s := by
  obtain ⟨s, hs, hp⟩ := System.exists_reachableWhere_of_exec (S := system fun _ => 0)
    (c := fun s a => decide (Lawful s a ∧ Settled s a)) (fun _ _ => of_decide_eq_true)
    (p := fun s => s.pool.memoryBuffer = 128 ∧ s.outstanding = [128])
    [.init 1 16 (some 64), .call (.allocate 16), .destroy, .call (.deallocate 64),
      .init 2 16 (some 128), .call (.allocate 16), .call (.allocate 16),
      .call (.deallocate 144)] (by decide)
  exact ⟨s, hs, hp.1, hp.2, no_stale_block hs⟩

-- ---------------------------------------------------------------------------
-- Outside the condition
-- ---------------------------------------------------------------------------

/-- A pointer given back to an initialized pool is the next one returned, whatever
buffer it is from. -/
theorem stale_block_returned (hInit : s.pool.initialized = true) {ptr size : Nat}
    (hNull : ptr ≠ 0) (hSize : size ≤ s.pool.blockSize) :
    ((s.deallocate ptr).allocate size).1 = some ptr := by
  have hPool : s.pool.deallocate ptr =
      { s.pool with
        next := Function.update s.pool.next ptr s.pool.freeList
        freeList := ptr } := by
    rw [Pool.deallocate]
    simp [hInit, hNull]
  rw [State.deallocate, hPool, State.allocate, Pool.allocate]
  simp [hInit, hNull, Nat.not_lt.mpr hSize]

/-- A frame of the first lifetime is given back in the second, and `allocate`
returns its block. -/
theorem stale_frame_deallocated :
    ¬ ∀ s, (system fun _ => 0).ReachableWhere Lawful s → NoStaleBlock s := by
  intro hClaim
  obtain ⟨s, hs, hSome, hBuffer⟩ := System.exists_reachableWhere_of_exec
    (S := system fun _ => 0)
    (c := fun s a => decide (Lawful s a)) (fun _ _ => of_decide_eq_true)
    (p := fun s => (s.allocate 16).1 = some 64 ∧ s.pool.memoryBuffer = 128)
    [.init 1 16 (some 64), .call (.allocate 16), .destroy, .init 1 16 (some 128),
      .call (.deallocate 64)] (by decide)
  have hInside := (hClaim s hs 16 64 hSome).1.1
  omega

end EmbLinux.CoroutinePool
