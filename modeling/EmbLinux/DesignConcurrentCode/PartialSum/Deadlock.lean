import EmbLinux.DesignConcurrentCode.PartialSum.Model
import EmbLinux.Lib.Count
import EmbLinux.Lib.Measure
import Mathlib.Algebra.Group.Defs
import Mathlib.Data.Finite.Prod
import Mathlib.Order.Interval.Finset.Nat

/-!
# EmbLinux — the deadlock of `parallel_partial_sum`

The barrier opens when it was entered by as many threads as the range has elements, but a
thread waits only while `stride <= i`, so thread 0 never enters it. All the others stay in
their first `wait`.

* `partial_sum_correct` — a call computes the prefix sums and does not deadlock for a range
  of at most one element, and for no longer one;
* `never_opens` — with two or more threads none but thread 0 ever ends;
* `stuck_from_everywhere` — and every run can be continued to the deadlock.

The elements are of any type with an addition, which need not be associative for the deadlock.
The barrier is local to the call, so nobody else can open it.
-/

namespace EmbLinux.DesignConcurrentCode.PartialSum

variable {α : Type*}

/-- The sum of the first `i + 1` elements. -/
def prefixSum [Add α] (range : Nat → α) : Nat → α
  | 0 => range 0
  | i + 1 => prefixSum range i + range (i + 1)

/-- The thread cannot leave `wait`: it spins, and the generation is its own. -/
def State.Spinning (s : State α) (k : Nat) : Prop :=
  ∃ step stride updateSource,
    s.pc k = .wait (.spin s.barrier.generation) step stride updateSource

/-- Some thread has not ended, and those that have not cannot leave `wait`. -/
def State.Stuck (length : Nat) (s : State α) : Prop :=
  (∃ k < length, s.pc k ≠ .done) ∧ ∀ k < length, s.pc k ≠ .done → s.Spinning k

/-- No deadlock, and the prefix sums once all threads have ended. -/
structure Contract [Add α] (length : Nat) (range : Nat → α) (s : State α) : Prop where
  notStuck : ¬ s.Stuck length
  sums : (s.caller = .returned ∨ ∀ k < length, s.pc k = .done) →
    ∀ i < length, s.range i = prefixSum range i

/-- Every run of the call keeps the contract. -/
def Correct [Add α] [Inhabited α] (length : Nat) (range : Nat → α) : Prop :=
  ∀ s, (system length range).Reachable s → Contract length range s

-- ---------------------------------------------------------------------------
-- At most one element
-- ---------------------------------------------------------------------------

/-- The call returns at once. -/
structure Short (range : Nat → α) (s : State α) : Prop where
  caller : s.caller = .enter ∨ s.caller = .returned
  pc : ∀ k, s.pc k = .unborn
  range : s.range = range

variable [Add α]

/-- With one element the only thread has no stride to go, -/
theorem short_step {length : Nat} (hLength : length ≤ 1) {range : Nat → α} {s s' : State α}
    {a : Action} (h : Short range s) (hst : step length s a = some s') : Short range s' := by
  cases a with
  | caller =>
    rcases h.caller with hCaller | hCaller
    · simp only [step, runCaller, hCaller, hLength, if_true, Option.some.injEq] at hst
      subst hst
      exact ⟨Or.inr rfl, h.pc, h.range⟩
    · simp [step, runCaller, hCaller] at hst
  | run k => simp [step, run, h.pc k] at hst

/-- so the call returns with the range as it was. -/
theorem correct_of_short [Inhabited α] {length : Nat} (hLength : length ≤ 1)
    (range : Nat → α) : Correct length range := by
  intro s hs
  have hShort : Short range s := by
    refine hs.invariant ⟨Or.inl rfl, fun _ => rfl, by rfl⟩ ?_
    intro s a s' _ h _ hst
    exact short_step hLength h hst
  refine ⟨?_, ?_⟩
  · rintro ⟨⟨k, hk, hRunning⟩, hSpins⟩
    obtain ⟨step, stride, updateSource, hSpin⟩ := hSpins k hk hRunning
    rw [hShort.pc k] at hSpin
    cases hSpin
  · intro _ i hi
    obtain rfl : i = 0 := by omega
    rw [hShort.range]
    rfl

-- ---------------------------------------------------------------------------
-- Two or more
-- ---------------------------------------------------------------------------

/-- Where thread `k` can be while the barrier has not opened. -/
def PcOk (k : Nat) : Pc α → Prop
  | .unborn => True
  | .loop step stride updateSource => step = 0 ∧ stride = 1 ∧ updateSource = false
  | .source step stride | .addend step stride _ | .store step stride _ =>
    0 < k ∧ step = 0 ∧ stride = 1
  | .wait w step stride updateSource =>
    0 < k ∧ step = 0 ∧ stride = 1 ∧ updateSource = true ∧
      (w = .load ∨ w = .arrive 0 ∨ w = .spin 0)
  | .copy | .writeBack _ => False
  | .done => k = 0

/-- The thread has entered the barrier and waits for the others. -/
def Arrived : Pc α → Prop
  | .wait (.spin _) _ _ _ => True
  | _ => False

/-- Where the caller can be. -/
def CallerOk (length : Nat) (s : State α) : Prop :=
  match s.caller with
  | .enter => ∀ k, s.pc k = .unborn
  | .spawn i => i < length ∧ (∀ k, i ≤ k → s.pc k = .unborn) ∧ ∀ k < i, s.pc k ≠ .unborn
  | .work => ∀ k < length, s.pc k ≠ .unborn
  | .join _ | .returned => False

/-- The barrier is closed, and its `spaces` are those of the threads that have not come. -/
structure Closed (length : Nat) (s : State α) : Prop where
  /-- The barrier has not opened. -/
  generation : s.barrier.generation = 0
  /-- Every thread that has entered it took one of its spaces, -/
  spaces : s.barrier.spaces = (length - count Arrived s.pc) % unsignedModulus
  outside : ∀ k, length ≤ k → s.pc k = .unborn
  /-- and stays there. -/
  ok : ∀ k, PcOk k (s.pc k)
  caller : CallerOk length s

variable {length k : Nat} {range : Nat → α} {s s' : State α} {pc : Pc α} {a : Action}

section

omit [Add α]

/-- Thread 0 never waits: its loop ends at once. -/
theorem pos_of_arrived (h : PcOk k pc) (hArrived : Arrived pc) : 0 < k := by
  unfold Arrived at hArrived
  split at hArrived
  · exact h.1
  · exact hArrived.elim

/-- Thread 0 does not come. -/
theorem arrived_subset {pcs : Nat → Pc α} (hOutside : ∀ k, length ≤ k → pcs k = .unborn)
    (hOk : ∀ k, PcOk k (pcs k)) :
    {k | Arrived (pcs k)} ⊆ (Finset.Ioo 0 length : Finset Nat) := by
  intro k hk
  rw [Finset.coe_Ioo]
  refine ⟨pos_of_arrived (hOk k) hk, ?_⟩
  by_contra hLong
  rw [Set.mem_ofPred_eq, hOutside k (Nat.le_of_not_lt hLong)] at hk
  exact hk

/-- The threads that have arrived are among those that were started, -/
theorem arrived_finite {pcs : Nat → Pc α} (hOutside : ∀ k, length ≤ k → pcs k = .unborn)
    (hOk : ∀ k, PcOk k (pcs k)) : {k | Arrived (pcs k)}.Finite :=
  (Finset.finite_toSet _).subset (arrived_subset hOutside hOk)

/-- and they are fewer than the barrier counts. -/
theorem arrived_le {pcs : Nat → Pc α} (hOutside : ∀ k, length ≤ k → pcs k = .unborn)
    (hOk : ∀ k, PcOk k (pcs k)) : count Arrived pcs ≤ length - 1 := by
  have hCard := Set.ncard_le_ncard (arrived_subset hOutside hOk) (Finset.finite_toSet _)
  rw [Set.ncard_coe_finset, Nat.card_Ioo] at hCard
  exact hCard

/-- A thread that was started moves on. -/
theorem CallerOk.move (h : CallerOk length s) (hCaller : s'.caller = s.caller)
    (hPc : s'.pc = Function.update s.pc k pc) (hOld : s.pc k ≠ .unborn) (hNew : pc ≠ .unborn) :
    CallerOk length s' := by
  have hBorn : ∀ j, s.pc j ≠ .unborn → s'.pc j ≠ .unborn := by
    intro j hj
    rcases update_cases hPc j with ⟨-, hHere⟩ | ⟨-, hOther⟩
    · rw [hHere]
      exact hNew
    · rw [hOther]
      exact hj
  have hUnborn : ∀ j, s.pc j = .unborn → s'.pc j = .unborn := by
    intro j hj
    rcases update_cases hPc j with ⟨rfl, -⟩ | ⟨-, hOther⟩
    · exact absurd hj hOld
    · rw [hOther, hj]
  unfold CallerOk at h ⊢
  rw [hCaller]
  split
  · next hEnter =>
    rw [hEnter] at h
    exact fun j => hUnborn j (h j)
  · next i hSpawn =>
    rw [hSpawn] at h
    exact ⟨h.1, fun j hj => hUnborn j (h.2.1 j hj), fun j hj => hBorn j (h.2.2 j hj)⟩
  · next hWork =>
    rw [hWork] at h
    exact fun j hj => hBorn j (h j hj)
  · next hJoin =>
    rw [hJoin] at h
    exact h
  · next hReturned =>
    rw [hReturned] at h
    exact h

/-- A step of a thread starts no thread beyond the length, -/
theorem Closed.outside_of_update (h : Closed length s) {g : Nat → Pc α}
    (hPc : g = Function.update s.pc k pc) (hk : k < length) :
    ∀ j, length ≤ j → g j = .unborn := by
  intro j hj
  rcases update_cases hPc j with ⟨rfl, -⟩ | ⟨-, hOther⟩
  · omega
  · rw [hOther, h.outside j hj]

/-- and keeps the others where they are. -/
theorem Closed.ok_of_update (h : Closed length s) {g : Nat → Pc α}
    (hPc : g = Function.update s.pc k pc) (hOk : PcOk k pc) : ∀ j, PcOk j (g j) := by
  intro j
  rcases update_cases hPc j with ⟨rfl, hHere⟩ | ⟨-, hOther⟩
  · rw [hHere]
    exact hOk
  · rw [hOther]
    exact h.ok j

/-- A started thread is below the length. -/
theorem Closed.lt_length (h : Closed length s) (hBorn : s.pc k ≠ .unborn) : k < length := by
  by_contra hLong
  exact hBorn (h.outside k (Nat.le_of_not_lt hLong))

/-- A step that enters nobody. -/
theorem Closed.move (h : Closed length s) (hPc : s'.pc = Function.update s.pc k pc)
    (hBarrier : s'.barrier = s.barrier) (hOk : PcOk k pc) (hk : k < length)
    (hSame : Arrived pc ↔ Arrived (s.pc k)) (hCaller : CallerOk length s') :
    Closed length s' := by
  refine ⟨?_, ?_, h.outside_of_update hPc hk, h.ok_of_update hPc hOk, hCaller⟩
  · rw [hBarrier]
    exact h.generation
  · rw [hBarrier, h.spaces, hPc, count_update_of_iff hSame]

/-- A thread enters the barrier, and is not the last. -/
theorem Closed.arrive (h : Closed length s) (hFits : length ≤ unsignedModulus)
    (hPc : s.pc k = .wait (.arrive 0) 0 1 true) :
    Closed length { s.setPc k (.wait (s.barrier.wait (.arrive 0)).2 0 1 true) with
      barrier := (s.barrier.wait (.arrive 0)).1 } := by
  have hBorn : s.pc k ≠ .unborn := by
    rw [hPc]
    simp
  have hk := h.lt_length hBorn
  have hPos : 0 < k := by
    have hOk := h.ok k
    rw [hPc] at hOk
    exact hOk.1
  have hSpin : PcOk k (Pc.wait (.spin 0) 0 1 true : Pc α) :=
    ⟨hPos, rfl, rfl, rfl, Or.inr (Or.inr rfl)⟩
  have hEnter : count Arrived (Function.update s.pc k (.wait (.spin 0) 0 1 true)) =
      count Arrived s.pc + 1 :=
    count_update_enter (arrived_finite h.outside h.ok) (by rw [hPc]; exact id) trivial
  have hLess : count Arrived s.pc + 1 ≤ length - 1 := by
    rw [← hEnter]
    exact arrived_le (h.outside_of_update rfl hk)
      (h.ok_of_update rfl hSpin)
  have hSpaces : (s.barrier.spaces + (unsignedModulus - 1)) % unsignedModulus =
      length - (count Arrived s.pc + 1) := by
    rw [h.spaces]
    unfold unsignedModulus at hFits ⊢
    omega
  have hWait : s.barrier.wait (.arrive 0) =
      ({ s.barrier with spaces := length - (count Arrived s.pc + 1) }, .spin 0) := by
    have hNotLast : length - (count Arrived s.pc + 1) ≠ 0 := by omega
    simp only [Barrier.wait, hSpaces, if_neg hNotLast]
  rw [hWait]
  refine ⟨h.generation, ?_, h.outside_of_update rfl hk, h.ok_of_update rfl hSpin,
    h.caller.move rfl rfl hBorn (by simp)⟩
  show length - (count Arrived s.pc + 1) =
    (length - count Arrived (Function.update s.pc k _)) % unsignedModulus
  rw [hEnter, Nat.mod_eq_of_lt]
  omega

end

/-- Nobody was started. -/
theorem closed_init [Inhabited α] (length : Nat) (range : Nat → α) :
    Closed length (system length range).init := by
  refine ⟨rfl, ?_, fun _ _ => rfl, fun _ => trivial, fun _ => rfl⟩
  have hNone : count Arrived (system length range).init.pc = 0 :=
    count_eq_zero fun _ hArrived => hArrived
  rw [hNone, Nat.sub_zero]
  rfl

omit [Add α] in
/-- The caller starts the next thread, -/
theorem closed_caller (hTwo : 2 ≤ length) (h : Closed length s)
    (hst : runCaller length s = some s') : Closed length s' := by
  have hCaller := h.caller
  unfold CallerOk at hCaller
  unfold runCaller at hst
  cases hAt : s.caller with
  | enter =>
    rw [hAt] at hCaller hst
    obtain rfl := Option.some.inj hst
    refine ⟨h.generation, h.spaces, h.outside, h.ok, ?_⟩
    simp only [CallerOk, if_neg (show ¬ length ≤ 1 by omega)]
    exact ⟨by omega, fun k _ => hCaller k, fun k hk => absurd hk (Nat.not_lt_zero k)⟩
  | spawn i =>
    rw [hAt] at hCaller hst
    obtain ⟨hi, hLater, hBefore⟩ := hCaller
    have hUnborn := hLater i (Nat.le_refl i)
    have hBorn : ∀ j, j < i + 1 → Function.update s.pc i start j ≠ .unborn := by
      intro j hj
      rcases update_at s.pc i start j with ⟨-, hHere⟩ | ⟨hne, hOther⟩
      · rw [hHere]
        simp [start]
      · rw [hOther]
        exact hBefore j (by omega)
    dsimp only at hst
    split at hst
    · obtain rfl := Option.some.inj hst
      refine h.move rfl rfl ⟨rfl, rfl, rfl⟩ hi (by rw [hUnborn]; rfl) ⟨by omega, ?_, hBorn⟩
      intro j hj
      show Function.update s.pc i start j = .unborn
      rw [Function.update_of_ne (by omega)]
      exact hLater j (by omega)
    · next hLast =>
      -- thread `length - 1` is the caller itself
      obtain rfl : i = length - 1 := by omega
      obtain rfl := Option.some.inj hst
      refine h.move rfl rfl ⟨rfl, rfl, rfl⟩ hi (by rw [hUnborn]; rfl) ?_
      exact fun j hj => hBorn j (by omega)
  | work =>
    rw [hAt] at hst
    dsimp only at hst
    split at hst
    · next hDone =>
      have hOk := h.ok (length - 1)
      rw [hDone] at hOk
      exact absurd (show length - 1 = 0 from hOk) (by omega)
    · exact absurd hst (by simp)
  | join i =>
    rw [hAt] at hCaller
    exact hCaller.elim
  | returned =>
    rw [hAt] at hCaller
    exact hCaller.elim

/-- and a thread arrives at most once before the barrier opens, which it does not. -/
theorem closed_run (hFits : length ≤ unsignedModulus) (h : Closed length s)
    (hst : run s k = some s') : Closed length s' := by
  have hOk := h.ok k
  have hBorn : s.pc k ≠ .unborn := by
    intro hUnborn
    rw [run, hUnborn] at hst
    cases hst
  have hk := h.lt_length hBorn
  have hMod : k % unsignedModulus = k := Nat.mod_eq_of_lt (by omega)
  cases hpc : s.pc k with
  | unborn => exact absurd hpc hBorn
  | loop step stride updateSource =>
    rw [hpc] at hOk
    obtain ⟨rfl, rfl, rfl⟩ := hOk
    simp only [run, hpc, hMod] at hst
    split at hst
    · obtain rfl := Option.some.inj hst
      exact h.move rfl rfl ⟨by omega, rfl, rfl⟩ hk (by rw [hpc]; rfl)
        (h.caller.move rfl rfl hBorn (by simp))
    · obtain rfl := Option.some.inj hst
      exact h.move rfl rfl (show k = 0 by omega) hk (by rw [hpc]; rfl)
        (h.caller.move rfl rfl hBorn (by simp))
  | source step stride =>
    rw [hpc] at hOk
    simp only [run, hpc, Option.some.injEq] at hst
    subst hst
    exact h.move rfl rfl hOk hk (by rw [hpc]; rfl) (h.caller.move rfl rfl hBorn (by simp))
  | addend step stride source =>
    rw [hpc] at hOk
    simp only [run, hpc, Option.some.injEq] at hst
    subst hst
    exact h.move rfl rfl hOk hk (by rw [hpc]; rfl) (h.caller.move rfl rfl hBorn (by simp))
  | store step stride sum =>
    rw [hpc] at hOk
    obtain ⟨hPos, rfl, rfl⟩ := hOk
    simp only [run, hpc] at hst
    obtain rfl := Option.some.inj hst
    exact h.move rfl rfl ⟨hPos, rfl, rfl, rfl, Or.inl rfl⟩ hk (by rw [hpc]; rfl)
      (h.caller.move rfl rfl hBorn (by simp))
  | wait w step stride updateSource =>
    rw [hpc] at hOk
    obtain ⟨hPos, rfl, rfl, rfl, rfl | rfl | rfl⟩ := hOk
    · simp only [run, hpc, Barrier.wait, h.generation, Option.some.injEq] at hst
      subst hst
      exact h.move rfl rfl ⟨hPos, rfl, rfl, rfl, Or.inr (Or.inl rfl)⟩ hk (by rw [hpc]; rfl)
        (h.caller.move rfl rfl hBorn (by simp))
    · simp only [run, hpc, Option.some.injEq] at hst
      subst hst
      exact h.arrive hFits hpc
    · simp only [run, hpc, Barrier.wait, h.generation, if_true, Option.some.injEq] at hst
      subst hst
      exact h.move rfl rfl ⟨hPos, rfl, rfl, rfl, Or.inr (Or.inr rfl)⟩ hk (by rw [hpc])
        (h.caller.move rfl rfl hBorn (by simp))
  | copy =>
    rw [hpc] at hOk
    exact hOk.elim
  | writeBack value =>
    rw [hpc] at hOk
    exact hOk.elim
  | done =>
    rw [run, hpc] at hst
    cases hst

/-- So the barrier is closed in every state, for two elements or more. -/
theorem closed_reachable [Inhabited α] (hTwo : 2 ≤ length) (hFits : length ≤ unsignedModulus)
    (h : (system length range).Reachable s) : Closed length s := by
  refine h.invariant (closed_init length range) ?_
  intro s a s' _ hClosed _ hst
  cases a with
  | caller => exact closed_caller hTwo hClosed hst
  | run k => exact closed_run hFits hClosed hst

/-- With two threads or more, none but thread 0 ever ends, and the call does not return. -/
theorem never_opens [Inhabited α] (hTwo : 2 ≤ length) (hFits : length ≤ unsignedModulus)
    (h : (system length range).Reachable s) :
    s.caller ≠ .returned ∧ ∀ k, 0 < k → s.pc k ≠ .done := by
  have hClosed := closed_reachable hTwo hFits h
  refine ⟨?_, ?_⟩
  · intro hReturned
    have hCaller := hClosed.caller
    rw [CallerOk, hReturned] at hCaller
    exact hCaller
  · intro k hk hDone
    have hOk := hClosed.ok k
    rw [hDone] at hOk
    exact Nat.ne_of_gt hk hOk

-- ---------------------------------------------------------------------------
-- The run to the deadlock
-- ---------------------------------------------------------------------------

/-- The steps that a thread still has until it has ended or waits. -/
def Pc.rank : Pc α → Nat
  | .unborn => 8
  | .loop .. => 7
  | .source .. => 6
  | .addend .. => 5
  | .store .. => 4
  | .wait .load .. => 3
  | .wait (.arrive _) .. => 2
  | .wait .. => 1
  | .copy | .writeBack _ | .done => 0

/-- The threads that the caller has still to start. -/
def Caller.rank (length : Nat) : Caller → Nat
  | .enter => length + 1
  | .spawn i => length - i
  | .work | .join _ | .returned => 0

/-- How far all threads are from the barrier. -/
def State.rank (length : Nat) (s : State α) : Nat :=
  s.caller.rank length + ∑ k ∈ Finset.range length, (s.pc k).rank

omit [Add α] in
/-- A step brings its thread closer. -/
theorem rank_lt (hPc : s'.pc = Function.update s.pc k pc) (hk : k < length)
    (hLess : pc.rank < (s.pc k).rank) (hCaller : s'.caller.rank length ≤ s.caller.rank length) :
    s'.rank length < s.rank length := by
  have hSum := sum_update_lt (m := fun _ => Pc.rank) hPc hk hLess
  unfold State.rank
  omega

omit [Add α] in
/-- While some thread was not started, the caller goes on. -/
theorem Closed.spawns (hTwo : 2 ≤ length) (h : Closed length s) (hk : k < length)
    (hUnborn : s.pc k = .unborn) :
    ∃ s', runCaller length s = some s' ∧ s'.rank length < s.rank length := by
  have hCaller := h.caller
  unfold CallerOk at hCaller
  cases hAt : s.caller with
  | enter =>
    refine ⟨_, by rw [runCaller, hAt], ?_⟩
    simp only [State.rank, if_neg (show ¬ length ≤ 1 by omega), hAt, Caller.rank]
    omega
  | spawn i =>
    rw [hAt] at hCaller
    obtain ⟨hi, hLater, -⟩ := hCaller
    have hLess : (start : Pc α).rank < (s.pc i).rank := by
      rw [hLater i (Nat.le_refl i)]
      exact Nat.lt_succ_self _
    by_cases hLast : i < length - 1
    · refine ⟨_, by simp only [runCaller, hAt, if_pos hLast]; rfl, rank_lt rfl hi hLess ?_⟩
      rw [hAt]
      exact Nat.sub_le_sub_left (Nat.le_succ i) length
    · obtain rfl : i = length - 1 := by omega
      refine ⟨_, by simp only [runCaller, hAt, if_neg hLast]; rfl, rank_lt rfl hi hLess ?_⟩
      exact Nat.zero_le _
  | work =>
    rw [hAt] at hCaller
    exact absurd hUnborn (hCaller k hk)
  | join i =>
    rw [hAt] at hCaller
    exact hCaller.elim
  | returned =>
    rw [hAt] at hCaller
    exact hCaller.elim

/-- A thread that was started and neither ended nor waits for the others goes on. -/
theorem Closed.runs (h : Closed length s) (hk : k < length) (hBorn : s.pc k ≠ .unborn)
    (hRunning : s.pc k ≠ .done) (hSpins : ¬ s.Spinning k) :
    ∃ s', run s k = some s' ∧ s'.rank length < s.rank length := by
  have hOk := h.ok k
  cases hpc : s.pc k with
  | unborn => exact absurd hpc hBorn
  | loop step stride updateSource =>
    rw [hpc] at hOk
    obtain ⟨rfl, rfl, rfl⟩ := hOk
    by_cases hStride : 1 ≤ k % unsignedModulus
    · refine ⟨s.setPc k (.source 0 1), ?_, rank_lt rfl hk ?_ (Nat.le_refl _)⟩
      · simp only [run, hpc, if_pos hStride]
      · rw [hpc]
        exact Nat.lt_succ_self _
    · refine ⟨s.setPc k .done, ?_, rank_lt rfl hk ?_ (Nat.le_refl _)⟩
      · simp [run, hpc, if_neg hStride]
      · rw [hpc]
        exact Nat.succ_pos _
  | source step stride =>
    rw [hpc] at hOk
    obtain ⟨-, rfl, rfl⟩ := hOk
    refine ⟨s.setPc k (.addend 0 1 (s.range (k % unsignedModulus))), ?_,
      rank_lt rfl hk ?_ (Nat.le_refl _)⟩
    · simp [run, hpc]
    · rw [hpc]
      exact Nat.lt_succ_self _
  | addend step stride source =>
    rw [hpc] at hOk
    obtain ⟨-, rfl, rfl⟩ := hOk
    refine ⟨s.setPc k (.store 0 1 (source + s.range (k % unsignedModulus - 1))), ?_,
      rank_lt rfl hk ?_ (Nat.le_refl _)⟩
    · simp [run, hpc]
    · rw [hpc]
      exact Nat.lt_succ_self _
  | store step stride sum =>
    rw [hpc] at hOk
    obtain ⟨-, rfl, rfl⟩ := hOk
    refine ⟨{ s.setPc k (.wait .load 0 1 true) with
      buffer := Function.update s.buffer (k % unsignedModulus) sum }, ?_,
      rank_lt rfl hk ?_ (Nat.le_refl _)⟩
    · simp [run, hpc, State.setPc]
    · rw [hpc]
      exact Nat.lt_succ_self _
  | wait w step stride updateSource =>
    rw [hpc] at hOk
    obtain ⟨-, rfl, rfl, rfl, rfl | rfl | rfl⟩ := hOk
    · refine ⟨s.setPc k (.wait (.arrive s.barrier.generation) 0 1 true), ?_,
        rank_lt rfl hk ?_ (Nat.le_refl _)⟩
      · simp [run, hpc, Barrier.wait, State.setPc]
      · rw [hpc]
        exact Nat.lt_succ_self _
    · refine ⟨{ s.setPc k (.wait (s.barrier.wait (.arrive 0)).2 0 1 true) with
        barrier := (s.barrier.wait (.arrive 0)).1 }, ?_, rank_lt rfl hk ?_ (Nat.le_refl _)⟩
      · simp only [run, hpc]
      · rw [hpc]
        simp only [Barrier.wait]
        split <;> exact Nat.lt_succ_self _
    · exact absurd ⟨0, 1, true, by rw [hpc, h.generation]⟩ hSpins
  | copy =>
    rw [hpc] at hOk
    exact hOk.elim
  | writeBack value =>
    rw [hpc] at hOk
    exact hOk.elim
  | done => exact absurd hpc hRunning

/-- From every state that a call reaches, it can go on to the deadlock. -/
theorem stuck_from_everywhere [Inhabited α] (hTwo : 2 ≤ length) (hFits : length ≤ unsignedModulus)
    (h : (system length range).Reachable s) :
    ∃ as s', (system length range).exec s as = some s' ∧ s'.Stuck length := by
  refine h.exists_of_descent (m := State.rank length) ?_
  intro s hs hGoesOn
  have hClosed := closed_reachable hTwo hFits hs
  by_cases hAll : ∀ k < length, s.pc k ≠ .unborn
  · -- some thread is still on its way to the barrier
    have hLast : s.pc (length - 1) ≠ .done := (never_opens hTwo hFits hs).2 _ (by omega)
    have hSome : ∃ k < length, s.pc k ≠ .done ∧ ¬ s.Spinning k := by
      by_contra hNone
      push Not at hNone
      exact hGoesOn ⟨⟨length - 1, by omega, hLast⟩, hNone⟩
    obtain ⟨k, hk, hRunning, hSpins⟩ := hSome
    obtain ⟨s', hst, hLess⟩ := hClosed.runs hk (hAll k hk) hRunning hSpins
    exact ⟨.run k, s', hst, hLess⟩
  · push Not at hAll
    obtain ⟨k, hk, hUnborn⟩ := hAll
    obtain ⟨s', hst, hLess⟩ := hClosed.spawns hTwo hk hUnborn
    exact ⟨.caller, s', hst, hLess⟩

-- ---------------------------------------------------------------------------
-- When the call is correct
-- ---------------------------------------------------------------------------

/-- **When `parallel_partial_sum` is correct**: for at most one element, and for no longer range
whose length is an `unsigned` or `2 ^ 32`. The addition is any associative one. A length beyond
`2 ^ 32` is left open: the barrier would be made for its remainder. -/
theorem partial_sum_correct {β : Type*} [AddSemigroup β] [Inhabited β] (length : Nat)
    (range : Nat → β) :
    (length ≤ 1 → Correct length range) ∧
      (Correct length range → length ≤ 1 ∨ 2 ^ 32 < length) := by
  refine ⟨fun hShort => correct_of_short hShort range, ?_⟩
  intro hCorrect
  by_contra hNone
  push Not at hNone
  obtain ⟨hTwo, hFits⟩ := hNone
  obtain ⟨as, s, he, hStuck⟩ := @stuck_from_everywhere β _ length range _ _ hTwo hFits .init
  exact (hCorrect s (System.Reachable.exec .init he)).notStuck hStuck

/-- One element: the call returns, and the element is its own prefix sum. -/
theorem partial_sum_correct_one : Correct 1 fun k => k + 7 :=
  (partial_sum_correct 1 fun k => k + 7).1 (Nat.le_refl 1)

/-- Two elements: thread 0 ends, and thread 1, the caller, waits for it. -/
theorem two_threads_stuck : ¬ Correct 2 fun k => k + 1 := by
  intro hCorrect
  obtain ⟨s, hs, hDone, hSpin, hGeneration⟩ := System.exists_reachable_of_exec
    (S := system 2 fun k => k + 1)
    (p := fun s => s.pc 0 = .done ∧ s.pc 1 = .wait (.spin 0) 0 1 true ∧ s.barrier.generation = 0)
    ([.caller, .caller, .caller, .run 0] ++ List.replicate 6 (.run 1)) (by decide +kernel)
  refine (hCorrect s hs).notStuck ⟨⟨1, by decide, by rw [hSpin]; simp⟩, ?_⟩
  intro k hk hRunning
  have hNe : k ≠ 0 := by
    rintro rfl
    exact hRunning hDone
  obtain rfl : k = 1 := by omega
  exact ⟨0, 1, true, by rw [hSpin, hGeneration]⟩

end EmbLinux.DesignConcurrentCode.PartialSum
