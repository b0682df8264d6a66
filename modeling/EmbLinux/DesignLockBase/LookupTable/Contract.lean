import EmbLinux.DesignLockBase.LookupTable.Buckets
import EmbLinux.Lib.Linearizable
import EmbLinux.Lib.Mutex
import Mathlib.Order.Nat

/-!
# EmbLinux — `get_map` of `threadsafe_lookup_table` is a snapshot

`get_map` has its effect when it has locked the last bucket: from then on nobody changes
the table until its copies are made, because a region needs its bucket unlocked. As all
calls of `get_map` lock in ascending order, a thread that waits for bucket `i` waits for a
`get_map` that waits, if at all, for a later bucket; so somebody goes on.

## Results

* `inv_effect`, `inv_reachable` — who holds which bucket, and that the copies are current.
* `Inv.holder_goes_on`, `Inv.not_deadlocked` — somebody can always go on, by induction on the
  buckets behind the one that is waited for.
* `step_moves` — every region and the last lock of a `get_map` is an operation of one map.
* `lookup_table_contract` — the snapshot, and that only a lock that is taken makes a thread wait.
-/

namespace EmbLinux.DesignLockBase.LookupTable

variable {τ κ α : Type*} [DecidableEq τ] [BEq κ] [EquivBEq κ] {T : Table κ} {s s' : State τ κ α}
  {a : Action τ κ α} {t u : τ} {pc : Pc κ α} {i : Nat}

-- ---------------------------------------------------------------------------
-- The steps
-- ---------------------------------------------------------------------------

/-- The buckets that a `get_map` has locked. -/
def Pc.holds (T : Table κ) : Pc κ α → Nat → Bool
  | .mapLock j, i => decide (i < j)
  | .mapCopy _ _, i => decide (i < T.numBuckets)
  | .mapUnlock held _, i => decide (i ∈ held)
  | .idle _, _ | .locking _, _ | .returning _, _ => false

/-- What one step does: a region of a bucket, or one lock, copy or unlock of a `get_map`. -/
inductive Effect (T : Table κ) (s : State τ κ α) (t : τ) : State τ κ α → Prop
  | callBucket {last : Option (Ret κ α)} {c : BucketCall κ α} (hpc : s.pc t = .idle last) :
      Effect T s t (s.setPc t (.locking c))
  | callMap {last : Option (Ret κ α)} (hpc : s.pc t = .idle last) :
      Effect T s t (s.setPc t (.mapLock 0))
  | region {c : BucketCall κ α} (hpc : s.pc t = .locking c)
      (hFree : s.lock (T.bucketIndex c.key) = none) :
      Effect T s t { s.setPc t (.returning (c.region (s.data (T.bucketIndex c.key))).2) with
        data := T.update s.data c }
  | lock {i : Nat} (hpc : s.pc t = .mapLock i) (hFree : s.lock i = none) :
      Effect T s t { s.setPc t (T.afterLock i) with lock := Function.update s.lock i (some t) }
  | copy {i : Nat} {res : List (κ × α)} (hpc : s.pc t = .mapCopy i res) :
      Effect T s t (s.setPc t (T.afterCopy i (insertAll T.order res (s.data i))))
  | unlock {pick : Nat} {held : List Nat} {res : List (κ × α)} (hpc : s.pc t = .mapUnlock held res)
      (hMem : pick ∈ held) :
      Effect T s t { s.setPc t (afterUnlock (held.erase pick) res) with
        lock := Function.update s.lock pick none }
  | ret {ret : Ret κ α} (hpc : s.pc t = .returning ret) :
      Effect T s t (s.setPc t (.idle (some ret)))

omit [EquivBEq κ] in
/-- A step of a thread that is inside a call. -/
theorem run_effect {pick : Nat} (hst : run T s t pick = some s') : Effect T s t s' := by
  unfold run at hst
  split at hst
  · cases hst
  · next hpc =>
    split at hst <;> cases hst
    next hFree => exact .region hpc hFree
  · next hpc =>
    split at hst <;> cases hst
    next hFree => exact .lock hpc hFree
  · next hpc =>
    cases hst
    exact .copy hpc
  · next hpc =>
    split at hst <;> cases hst
    next hMem => exact .unlock hpc hMem
  · next hpc =>
    cases hst
    exact .ret hpc

/-- The thread that moves. -/
def Action.thread : Action τ κ α → τ
  | .call t _ | .run t _ => t

omit [EquivBEq κ] in
/-- Every step. -/
theorem step_effect (hst : step T s a = some s') : Effect T s a.thread s' := by
  cases a with
  | call t c =>
    simp only [step] at hst
    split at hst
    · next hpc =>
      cases c with
      | bucket c =>
        cases hst
        exact .callBucket hpc
      | getMap =>
        cases hst
        exact .callMap hpc
    · cases hst
  | run t pick => exact run_effect hst

omit [EquivBEq κ] in
/-- The other threads stay where they are. -/
theorem pc_frame (he : Effect T s t s') {u : τ} (hut : u ≠ t) : s'.pc u = s.pc u := by
  cases he <;> exact Function.update_of_ne hut _ _

-- ---------------------------------------------------------------------------
-- The invariant
-- ---------------------------------------------------------------------------

/-- What a `get_map` has done so far. -/
def PcOk (T : Table κ) (s : State τ κ α) : Pc κ α → Prop
  | .mapLock i => i < T.numBuckets
  | .mapCopy i res => i < T.numBuckets ∧ res = T.copied s.data i
  | .mapUnlock held _ => held ≠ [] ∧ held.Nodup ∧ ∀ i ∈ held, i < T.numBuckets
  | .idle _ | .locking _ | .returning _ => True

/-- The buckets hold their keys, a lock is held by the thread that its program point says, and a
`get_map` has copied what the buckets still hold. -/
structure Inv (T : Table κ) (s : State τ κ α) : Prop where
  buckets : Buckets T s.data
  locks : ∀ i, Guards (s.lock i) fun t => (s.pc t).holds T i
  pcs : ∀ t, PcOk T s (s.pc t)

omit [EquivBEq κ] in
/-- After its `i`th lock a `get_map` holds the first `i + 1` buckets. -/
theorem afterLock_holds {j : Nat} (hi : i < T.numBuckets) :
    ((T.afterLock i : Pc κ α).holds T j) = decide (j < i + 1) := by
  unfold Table.afterLock
  split
  · rfl
  · next hLast =>
    have hEq : T.numBuckets = i + 1 := by omega
    rw [Pc.holds, hEq]

omit [DecidableEq τ] [EquivBEq κ] in
/-- It has copied nothing yet. -/
theorem afterLock_ok : PcOk T s (T.afterLock i) := by
  unfold Table.afterLock
  split
  · next hNext => exact hNext
  · exact ⟨T.pos, rfl⟩

omit [EquivBEq κ] in
/-- While it copies it holds all of them. -/
theorem afterCopy_holds {res : List (κ × α)} {j : Nat} :
    (T.afterCopy i res).holds T j = decide (j < T.numBuckets) := by
  unfold Table.afterCopy
  split
  · rfl
  · simp only [Pc.holds, List.mem_range]

omit [DecidableEq τ] [EquivBEq κ] in
/-- One more bucket is copied as it is, for its lock is held. -/
theorem afterCopy_ok : PcOk T s (T.afterCopy i (T.copied s.data (i + 1))) := by
  unfold Table.afterCopy
  split
  · next hNext => exact ⟨hNext, rfl⟩
  · refine ⟨?_, List.nodup_range, fun j hj => List.mem_range.mp hj⟩
    intro hNil
    have hMem := List.mem_range.mpr T.pos
    rw [hNil] at hMem
    cases hMem

omit [EquivBEq κ] in
/-- Afterwards it holds those that it has not given back. -/
theorem afterUnlock_holds {held : List Nat} {res : List (κ × α)} {j : Nat} :
    (afterUnlock held res).holds T j = decide (j ∈ held) := by
  cases held <;> rfl

omit [DecidableEq τ] [EquivBEq κ] in
/-- The copy is complete, and no lock is given back twice. -/
theorem afterUnlock_ok {held : List Nat} {res : List (κ × α)} (hNodup : held.Nodup)
    (hBound : ∀ i ∈ held, i < T.numBuckets) : PcOk T s (afterUnlock held res) := by
  cases held with
  | nil => trivial
  | cons j rest => exact ⟨List.cons_ne_nil _ _, hNodup, hBound⟩

omit [EquivBEq κ] in
/-- Steps that lock and unlock nothing. -/
theorem locks_keep (h : ∀ i, Guards (s.lock i) fun t => (s.pc t).holds T i)
    (hPc : s'.pc = Function.update s.pc t pc) (hLock : s'.lock = s.lock)
    (hHolds : ∀ i, pc.holds T i = (s.pc t).holds T i) (i : Nat) :
    Guards (s'.lock i) fun t => (s'.pc t).holds T i := by
  refine (h i).move_part (p := fun pc : Pc κ α => pc.holds T i) hPc ?_
  rw [hLock, hHolds i]
  exact .keep

omit [DecidableEq τ] [EquivBEq κ] in
/-- A region needs its bucket unlocked, so no `get_map` has all locks. -/
theorem Inv.no_copy (h : Inv T s) {c : BucketCall κ α}
    (hFree : s.lock (T.bucketIndex c.key) = none) (u : τ) (i : Nat) (res : List (κ × α)) :
    s.pc u ≠ .mapCopy i res := by
  intro hpc
  have hHolds : (s.pc u).holds T (T.bucketIndex c.key) = true := by
    rw [hpc]
    exact decide_eq_true (T.bucketIndex_lt c.key)
  rw [(h.locks _ u).mpr hHolds] at hFree
  cases hFree

/-- A case for each effect; a region changes a bucket that no `get_map` holds. -/
theorem inv_effect (h : Inv T s) (he : Effect T s t s') : Inv T s' := by
  have hOk := h.pcs t
  -- the table is the same
  have hSame : ∀ {s₁ : State τ κ α} {pc : Pc κ α}, s₁.data = s.data →
      s₁.pc = Function.update s.pc t pc → PcOk T s pc → ∀ u, PcOk T s₁ (s₁.pc u) := by
    intro s₁ pc hData hPc hNew u
    have hEq : PcOk T s₁ = PcOk T s := by
      funext pc'
      cases pc' <;> simp only [PcOk, hData]
    rw [hEq]
    exact forall_of_update (p := PcOk T s) hPc h.pcs hNew u
  cases he with
  | callBucket hpc =>
    exact ⟨h.buckets, locks_keep h.locks rfl rfl fun i => by rw [hpc]; rfl,
      hSame rfl rfl trivial⟩
  | callMap hpc =>
    refine ⟨h.buckets, locks_keep h.locks rfl rfl ?_, hSame rfl rfl T.pos⟩
    intro i
    rw [hpc]
    simp [Pc.holds]
  | @region c hpc hFree =>
    refine ⟨h.buckets.update c, locks_keep h.locks rfl rfl fun i => by rw [hpc]; rfl, ?_⟩
    refine forall_of_update (p := PcOk T _) rfl ?_ trivial
    intro u
    have hOkU := h.pcs u
    have hNoCopy := h.no_copy hFree u
    generalize s.pc u = pc at hOkU hNoCopy
    cases pc with
    | mapCopy i res => exact absurd rfl (hNoCopy i res)
    | _ => exact hOkU
  | @lock j hpc hFree =>
    rw [hpc] at hOk
    refine ⟨h.buckets, ?_, hSame rfl rfl afterLock_ok⟩
    intro i
    refine (h.locks i).move_part (p := fun pc : Pc κ α => pc.holds T i) rfl ?_
    rw [afterLock_holds hOk, hpc]
    show LockMove t (s.lock i) (Function.update s.lock j (some t) i) (decide (i < j)) _
    rcases update_at s.lock j (some t) i with ⟨rfl, hAt⟩ | ⟨hij, hAt⟩ <;> rw [hAt]
    · rw [hFree, decide_eq_true (Nat.lt_succ_self i)]
      exact .lock
    · have hIff : decide (i < j + 1) = decide (i < j) := decide_eq_decide.mpr (by omega)
      rw [hIff]
      exact .keep
  | @copy j res hpc =>
    rw [hpc] at hOk
    obtain ⟨hj, rfl⟩ := hOk
    refine ⟨h.buckets, locks_keep h.locks rfl rfl ?_, hSame rfl rfl afterCopy_ok⟩
    intro i
    rw [afterCopy_holds, hpc]
    rfl
  | @unlock pick held res hpc hMem =>
    rw [hpc] at hOk
    obtain ⟨-, hNodup, hBound⟩ := hOk
    refine ⟨h.buckets, ?_, hSame rfl rfl (afterUnlock_ok (hNodup.erase pick)
      fun i hi => hBound i (List.mem_of_mem_erase hi))⟩
    intro i
    refine (h.locks i).move_part (p := fun pc : Pc κ α => pc.holds T i) rfl ?_
    rw [afterUnlock_holds, hpc]
    show LockMove t (s.lock i) (Function.update s.lock pick none i) (decide (i ∈ held)) _
    rcases update_at s.lock pick none i with ⟨rfl, hAt⟩ | ⟨hne, hAt⟩ <;> rw [hAt]
    · rw [decide_eq_true hMem, decide_eq_false hNodup.not_mem_erase]
      exact .unlock
    · have hIff : decide (i ∈ held.erase pick) = decide (i ∈ held) :=
        decide_eq_decide.mpr (List.mem_erase_of_ne hne)
      rw [hIff]
      exact .keep
  | ret hpc =>
    exact ⟨h.buckets, locks_keep h.locks rfl rfl fun i => by rw [hpc]; rfl,
      hSame rfl rfl trivial⟩

omit [DecidableEq τ] [EquivBEq κ] in
/-- Empty buckets and free locks. -/
theorem inv_init : Inv T (init τ κ α) := by
  refine ⟨⟨fun i => List.Pairwise.nil, fun i e he => absurd he List.not_mem_nil⟩, ?_,
    fun t => trivial⟩
  intro i t
  simp [init, Pc.holds]

/-- The run lemma. -/
theorem inv_reachable (h : (system τ α T).Reachable s) : Inv T s :=
  h.invariant (I := Inv T) inv_init fun _ _ _ _ hInv _ hst => inv_effect hInv (step_effect hst)

-- ---------------------------------------------------------------------------
-- No deadlock
-- ---------------------------------------------------------------------------

/-- The thread has no call under way. -/
def Finished (s : State τ κ α) (t : τ) : Prop :=
  ∃ last, s.pc t = .idle last

/-- The thread needs a lock that is taken. -/
def Waits (T : Table κ) (s : State τ κ α) (t : τ) : Prop :=
  (∃ c, s.pc t = .locking c ∧ s.lock (T.bucketIndex c.key) ≠ none) ∨
    ∃ i, s.pc t = .mapLock i ∧ s.lock i ≠ none

/-- There are unfinished threads, and each of them waits for a bucket lock. -/
def Deadlocked (T : Table κ) (s : State τ κ α) : Prop :=
  (∃ t, ¬ Finished s t) ∧ ∀ t, ¬ Finished s t → Waits T s t

omit [DecidableEq τ] [EquivBEq κ] in
/-- Whoever has bucket `i` locked, or somebody who has a later bucket locked, goes on. By
induction on the number of buckets after `i`. -/
theorem Inv.holder_goes_on (h : Inv T s) {k : Nat} :
    ∀ {i : Nat} {t : τ}, T.numBuckets ≤ i + k → s.lock i = some t →
      ∃ u, ¬ Finished s u ∧ ¬ Waits T s u := by
  induction k with
  | zero =>
    intro i t hLast hLock
    have hHolds : (s.pc t).holds T i = true := (h.locks i t).mp hLock
    have hOk := h.pcs t
    generalize s.pc t = pc at hHolds hOk
    cases pc with
    | mapLock j =>
      have hij := of_decide_eq_true hHolds
      have hj : j < T.numBuckets := hOk
      omega
    | mapCopy j res =>
      have hi := of_decide_eq_true hHolds
      omega
    | mapUnlock held res =>
      have hi := hOk.2.2 i (of_decide_eq_true hHolds)
      omega
    | idle last | locking c | returning ret => cases hHolds
  | succ k ih =>
    intro i t hLast hLock
    have hHolds : (s.pc t).holds T i = true := (h.locks i t).mp hLock
    cases hpc : s.pc t with
    | mapLock j =>
      rw [hpc] at hHolds
      have hij : i < j := of_decide_eq_true hHolds
      cases hNext : s.lock j with
      | none =>
        refine ⟨t, ?_, ?_⟩
        · rintro ⟨last, hIdle⟩
          cases hpc.symm.trans hIdle
        · rintro (⟨c, hAt, -⟩ | ⟨j', hAt, hTaken⟩)
          · cases hpc.symm.trans hAt
          · cases hpc.symm.trans hAt
            exact hTaken hNext
      | some v => exact ih (by omega) hNext
    | mapCopy j res =>
      refine ⟨t, ?_, ?_⟩
      · rintro ⟨last, hIdle⟩
        cases hpc.symm.trans hIdle
      · rintro (⟨c, hAt, -⟩ | ⟨j', hAt, -⟩) <;> cases hpc.symm.trans hAt
    | mapUnlock held res =>
      refine ⟨t, ?_, ?_⟩
      · rintro ⟨last, hIdle⟩
        cases hpc.symm.trans hIdle
      · rintro (⟨c, hAt, -⟩ | ⟨j', hAt, -⟩) <;> cases hpc.symm.trans hAt
    | idle last | locking c | returning ret =>
      rw [hpc] at hHolds
      cases hHolds

omit [DecidableEq τ] [EquivBEq κ] in
/-- The `get_map` that is furthest can go on: the locks are taken in ascending order. -/
theorem Inv.not_deadlocked (h : Inv T s) : ¬ Deadlocked T s := by
  rintro ⟨⟨t, hBusy⟩, hAll⟩
  have hSome : ∃ u, ¬ Finished s u ∧ ¬ Waits T s u := by
    rcases hAll t hBusy with ⟨c, -, hTaken⟩ | ⟨i, -, hTaken⟩
    · obtain ⟨v, hv⟩ := Option.ne_none_iff_exists'.mp hTaken
      exact h.holder_goes_on (Nat.le_add_left ..) hv
    · obtain ⟨v, hv⟩ := Option.ne_none_iff_exists'.mp hTaken
      exact h.holder_goes_on (Nat.le_add_left ..) hv
  obtain ⟨u, hu, hNot⟩ := hSome
  exact hNot (hAll u hu)

section

omit [EquivBEq κ]

/-- A thread that neither has finished nor waits makes a step. -/
theorem Inv.can_step (h : Inv T s) (hBusy : ¬ Finished s t) (hNot : ¬ Waits T s t) :
    ∃ pick, (run T s t pick).isSome = true := by
  have hOk := h.pcs t
  cases hpc : s.pc t with
  | idle last => exact absurd ⟨last, hpc⟩ hBusy
  | locking c =>
    cases hLock : s.lock (T.bucketIndex c.key) with
    | none => exact ⟨0, by simp [run, hpc, hLock]⟩
    | some v =>
      refine absurd (Or.inl ⟨c, hpc, ?_⟩) hNot
      rw [hLock]
      exact Option.some_ne_none v
  | mapLock i =>
    cases hLock : s.lock i with
    | none => exact ⟨0, by simp [run, hpc, hLock]⟩
    | some v =>
      refine absurd (Or.inr ⟨i, hpc, ?_⟩) hNot
      rw [hLock]
      exact Option.some_ne_none v
  | mapCopy i res => exact ⟨0, by simp [run, hpc]⟩
  | mapUnlock held res =>
    rw [hpc] at hOk
    obtain ⟨pick, hPick⟩ := List.exists_mem_of_ne_nil held hOk.1
    exact ⟨pick, by simp [run, hpc, hPick]⟩
  | returning ret => exact ⟨0, by simp [run, hpc]⟩

/-- A thread that waits makes none. -/
theorem not_step_of_waits (h : Waits T s t) (pick : Nat) : run T s t pick = none := by
  rcases h with ⟨c, hpc, hTaken⟩ | ⟨i, hpc, hTaken⟩
  · obtain ⟨v, hv⟩ := Option.ne_none_iff_exists'.mp hTaken
    simp [run, hpc, hv]
  · obtain ⟨v, hv⟩ := Option.ne_none_iff_exists'.mp hTaken
    simp [run, hpc, hv]

/-- Only a lock that is taken keeps a thread from going on. -/
theorem Inv.waits_iff (h : Inv T s) (hBusy : ¬ Finished s t) :
    Waits T s t ↔ ∀ pick, run T s t pick = none := by
  refine ⟨not_step_of_waits, fun hNone => ?_⟩
  by_contra hNot
  obtain ⟨pick, hSome⟩ := h.can_step hBusy hNot
  simp [hNone pick] at hSome

end

-- ---------------------------------------------------------------------------
-- One map
-- ---------------------------------------------------------------------------

/-- The operations on one ordered map. -/
def mapObject (T : Table κ) (α : Type*) : Object (Call κ α) (Ret κ α) (OrderedMap T.order α) where
  init := OrderedMap.empty T.order α
  apply
    | M, .bucket c => c.apply M
    | M, .getMap => (M, .map M.entries)

/-- The call that begins with an action. -/
def calls : Action τ κ α → Option (τ × Call κ α)
  | .call t c => some (t, c)
  | .run _ _ => none

/-- The return value with which a step ends a call. -/
def rets (_ : State τ κ α) : Action τ κ α → State τ κ α → Option (τ × Ret κ α)
  | .run t _, s' =>
    match s'.pc t with
    | .idle (some ret) => some (t, ret)
    | _ => none
  | _, _ => none

/-- A bucket operation takes effect in its region, a `get_map` when it has the last lock. -/
def stageAt (T : Table κ) (s : State τ κ α) : Pc κ α → Stage (Call κ α) (Ret κ α)
  | .idle _ => .idle
  | .locking c => .pending (.bucket c)
  | .mapLock _ => .pending .getMap
  | .mapCopy _ _ => .done (.map (T.map s.data).entries)
  | .mapUnlock _ res => .done (.map res)
  | .returning ret => .done ret

def stage (T : Table κ) (s : State τ κ α) (t : τ) : Stage (Call κ α) (Ret κ α) :=
  stageAt T s (s.pc t)

omit [EquivBEq κ] in
/-- A step changes the stage of its own thread only. -/
theorem stage_update (hInv : Inv T s) (he : Effect T s t s') {x : Stage (Call κ α) (Ret κ α)}
    (hOwn : stage T s' t = x) : stage T s' = Function.update (stage T s) t x := by
  funext u
  rcases update_at (stage T s) t x u with ⟨rfl, hAt⟩ | ⟨hut, hAt⟩ <;> rw [hAt]
  · exact hOwn
  · rw [stage, pc_frame he hut, stage]
    cases he with
    | region hpc hFree =>
      have hNoCopy := hInv.no_copy hFree u
      generalize s.pc u = pc at hNoCopy
      cases pc with
      | mapCopy i res => exact absurd rfl (hNoCopy i res)
      | _ => rfl
    | _ => cases s.pc u <;> rfl

omit [EquivBEq κ] in
/-- A step changes the stage of its own thread only: the map cannot change while a `get_map`
holds all locks. -/
theorem stage_same (hInv : Inv T s) (he : Effect T s t s') (hOwn : stage T s' t = stage T s t) :
    stage T s' = stage T s := by
  rw [stage_update hInv he hOwn, Function.update_eq_self]

omit [DecidableEq τ] [BEq κ] [EquivBEq κ] in
/-- A call is not answered before it returns. -/
theorem rets_of_busy {pick : Nat} (h : s'.pc t = pc) (hBusy : ∀ last, pc ≠ .idle last) :
    rets s (.run t pick) s' = none := by
  simp only [rets, h]
  split
  · next ret => exact absurd rfl (hBusy (some ret))
  · rfl

-- ---------------------------------------------------------------------------
-- Steps are moves of the map
-- ---------------------------------------------------------------------------

/-- The map that a state stands for. -/
def Holds (T : Table κ) (s : State τ κ α) (M : OrderedMap T.order α) : Prop :=
  Inv T s ∧ M = T.map s.data

omit [DecidableEq τ] [EquivBEq κ] in
/-- The last copy completes the map. -/
theorem afterCopy_stage (hi : i < T.numBuckets) :
    stageAt T s (T.afterCopy i (T.copied s.data (i + 1))) =
      .done (.map (T.map s.data).entries) := by
  unfold Table.afterCopy
  split
  · rfl
  · next hLast =>
    have hEq : i + 1 = T.numBuckets := by omega
    rw [hEq]
    rfl

omit [DecidableEq τ] [EquivBEq κ] in
/-- The answer of a `get_map` is the copy. -/
theorem afterUnlock_stage {held : List Nat} {res : List (κ × α)} :
    stageAt T s (afterUnlock held res) = .done (.map res) := by
  cases held <;> rfl

omit [EquivBEq κ] in
/-- Between two locks a `get_map` has not returned, -/
theorem afterLock_busy (i : Nat) (last : Option (Ret κ α)) : T.afterLock i ≠ .idle last := by
  unfold Table.afterLock
  split <;> exact fun hEq => by cases hEq

omit [EquivBEq κ] in
/-- nor between two copies, -/
theorem afterCopy_busy (i : Nat) (res : List (κ × α)) (last : Option (Ret κ α)) :
    T.afterCopy i res ≠ .idle last := by
  unfold Table.afterCopy
  split <;> exact fun hEq => by cases hEq

omit [BEq κ] [EquivBEq κ] in
/-- nor between two unlocks. -/
theorem afterUnlock_busy (held : List Nat) (res : List (κ × α)) (last : Option (Ret κ α)) :
    afterUnlock held res ≠ .idle last := by
  cases held <;> exact fun hEq => by cases hEq

/-- The step lemma: a step of a call in progress is a move of the map. -/
theorem run_moves {pick : Nat} {M : OrderedMap T.order α} (hHolds : Holds T s M)
    (hst : run T s t pick = some s') :
    ∃ M', Holds T s' M' ∧ Moves (mapObject T α) (stage T s) M none
      (rets s (.run t pick) s') (stage T s') M' := by
  obtain ⟨hInv, rfl⟩ := hHolds
  have he := run_effect hst
  have hInv' := inv_effect hInv he
  have hOk := hInv.pcs t
  have hHere : ∀ pc : Pc κ α, Function.update s.pc t pc t = pc :=
    fun pc => Function.update_self ..
  -- the steps that neither have an effect nor end the call
  have hStay : ∀ {pc pc' : Pc κ α}, s.pc t = pc → s'.pc t = pc' → s'.data = s.data →
      (∀ last, pc' ≠ .idle last) → stageAt T s' pc' = stageAt T s pc →
      ∃ M', Holds T s' M' ∧ Moves (mapObject T α) (stage T s) (T.map s.data) none
        (rets s (.run t pick) s') (stage T s') M' := by
    intro pc pc' hpc hpc' hData hBusy hSame
    refine ⟨_, ⟨hInv', rfl⟩, ?_⟩
    have hOwn : stage T s' t = stage T s t := by
      rw [stage, hpc', hSame, stage, hpc]
    rw [rets_of_busy hpc' hBusy, stage_same hInv he hOwn, hData]
    exact .stay
  -- the steps that have an effect
  have hEffect : ∀ (op : Call κ α) {pc pc' : Pc κ α} {answer : Ret κ α}, s.pc t = pc →
      s'.pc t = pc' → (∀ last, pc' ≠ .idle last) → stageAt T s pc = .pending op →
      (mapObject T α).apply (T.map s.data) op = (T.map s'.data, answer) →
      stageAt T s' pc' = .done answer →
      ∃ M', Holds T s' M' ∧ Moves (mapObject T α) (stage T s) (T.map s.data) none
        (rets s (.run t pick) s') (stage T s') M' := by
    intro op pc pc' answer hpc hpc' hBusy hPending hApply hDone
    refine ⟨_, ⟨hInv', rfl⟩, ?_⟩
    have hOwn : stage T s' t = .done answer := by
      rw [stage, hpc', hDone]
    have hStage : stage T s t = .pending op := by
      rw [stage, hpc, hPending]
    have hMove : Moves (mapObject T α) (stage T s) (T.map s.data) none none _ _ :=
      .effect_only hStage
    rw [hApply] at hMove
    rw [rets_of_busy hpc' hBusy, stage_update hInv he hOwn]
    exact hMove
  cases he with
  | callBucket hpc => simp [run, hpc] at hst
  | callMap hpc => simp [run, hpc] at hst
  | @region c hpc hFree =>
    exact hEffect (.bucket c) hpc (hHere _) (fun _ hEq => by cases hEq) rfl
      (hInv.buckets.region_apply c) rfl
  | @lock i hpc hFree =>
    by_cases hNext : i + 1 < T.numBuckets
    · refine hStay hpc (hHere _) rfl (afterLock_busy i) ?_
      rw [Table.afterLock, if_pos hNext]
      rfl
    · refine hEffect .getMap hpc (hHere _) (afterLock_busy i) rfl rfl ?_
      rw [Table.afterLock, if_neg hNext]
      rfl
  | @copy i res hpc =>
    rw [hpc] at hOk
    obtain ⟨hi, rfl⟩ := hOk
    refine hStay hpc (hHere _) rfl (afterCopy_busy i _) ?_
    exact afterCopy_stage hi
  | @unlock pick held res hpc hMem =>
    refine hStay hpc (hHere _) rfl (afterUnlock_busy _ _) ?_
    exact afterUnlock_stage
  | @ret ret hpc =>
    refine ⟨_, ⟨hInv', rfl⟩, ?_⟩
    have hOwn : stage T (s.setPc t (.idle (some ret))) t = .idle := by
      show stageAt T _ (Function.update s.pc t _ t) = _
      rw [hHere]
      rfl
    have hRet : rets s (.run t pick) (s.setPc t (.idle (some ret))) = some (t, ret) := by
      simp only [rets, State.setPc, hHere]
    rw [hRet, stage_update hInv (.ret hpc) hOwn]
    refine .ret ?_
    rw [stage, hpc]
    rfl

/-- A call is a call of the object. -/
theorem call_moves {last : Option (Ret κ α)} {c : Call κ α} {M : OrderedMap T.order α}
    {answer : Option (τ × Ret κ α)} (hHolds : Holds T s M) (hpc : s.pc t = .idle last)
    (he : Effect T s t s') (hData : s'.data = s.data) (hStage : stage T s' t = .pending c) :
    ∃ M', Holds T s' M' ∧
      Moves (mapObject T α) (stage T s) M (some (t, c)) answer (stage T s') M' := by
  obtain ⟨hInv, rfl⟩ := hHolds
  refine ⟨_, ⟨inv_effect hInv he, rfl⟩, ?_⟩
  rw [stage_update hInv he hStage, hData]
  refine .call ?_
  rw [stage, hpc]
  rfl

/-- Every step is matched by the map. -/
theorem step_moves {M : OrderedMap T.order α} (hHolds : Holds T s M)
    (hst : step T s a = some s') :
    ∃ M', Holds T s' M' ∧
      Moves (mapObject T α) (stage T s) M (calls a) (rets s a s') (stage T s') M' := by
  have he := step_effect hst
  cases a with
  | call t c =>
    simp only [step] at hst
    split at hst
    · next hpc =>
      cases c with
      | bucket c =>
        cases hst
        refine call_moves hHolds hpc he rfl ?_
        show stageAt T _ (Function.update s.pc t _ t) = _
        rw [Function.update_self]
        rfl
      | getMap =>
        cases hst
        refine call_moves hHolds hpc he rfl ?_
        show stageAt T _ (Function.update s.pc t _ t) = _
        rw [Function.update_self]
        rfl
    · cases hst
  | run t pick => exact run_moves hHolds hst

omit [DecidableEq τ] [EquivBEq κ] in
/-- The map is empty, as the buckets are. -/
theorem holds_init : Holds T (init τ κ α) (mapObject T α).init := by
  refine ⟨inv_init, OrderedMap.ext ?_⟩
  -- no pair is in any bucket
  refine Sorted.eq_of_mem (o := T.order) Sorted.nil (OrderedMap.sorted _) ?_
  intro e
  rw [(inv_init (τ := τ)).buckets.mem_map]
  exact Iff.rfl

/-- **`get_map` is an atomic snapshot.** In every run of any number of threads, no state has all
unfinished threads waiting for a bucket lock, and the calls have one order, consistent with real
time, in which they are the operations of one map. The hash may be any function that respects
the equality of keys. Only a `get_map` holds locks from one step to the next, and it unlocks
them in any order. -/
theorem lookup_table_contract
    {x : State τ κ α × Record τ (Call κ α) (Ret κ α)}
    (h : ((system τ α T).recorded calls rets).Reachable x) :
    ¬ Deadlocked T x.1 ∧ (mapObject T α).Linearizable x.2.history ∧
      -- a thread that has not finished waits for a bucket lock if it cannot make a step,
      (∀ t, ¬ Finished x.1 t → (Waits T x.1 t ↔ ∀ pick, run T x.1 t pick = none)) ∧
      -- and an operation of the map is one of a finite map: it changes its own key.
      ∀ (M : OrderedMap T.order α) (c : BucketCall κ α) (key : κ),
        ((mapObject T α).apply M (.bucket c)).1.lookup key =
          if c.key == key then c.image (M.lookup key) else M.lookup key := by
  have hInv := inv_reachable (recorded_reachable h)
  refine ⟨hInv.not_deadlocked, ?_, fun t => hInv.waits_iff, fun M c => c.lookup_apply M⟩
  exact recorded_linearizable (fun _ _ => True) (stage T) (Holds T) holds_init (fun _ => rfl)
    (fun s a s' M _ hHolds _ hst => step_moves hHolds hst) h

/-- Two buckets, for even and for odd keys. -/
def evenOdd : Table Nat where
  numBuckets := 2
  pos := by decide
  hasher := fun key => UInt64.ofNat key
  respects := by
    intro k k' h
    rw [eq_of_beq h]
  order :=
    { lt := fun a b => decide (a < b)
      asymm := by
        intro a b h
        exact decide_eq_false (Nat.lt_asymm (of_decide_eq_true h))
      trans := by
        intro a b c h h'
        exact decide_eq_true (Nat.lt_trans (of_decide_eq_true h) (of_decide_eq_true h'))
      incomparable := by
        intro a b
        rw [decide_eq_false_iff_not, decide_eq_false_iff_not, beq_iff_eq]
        omega }

/-- While `get_map` of thread 1 has the even bucket locked only, thread 0 adds an odd key,
which the snapshot contains, and thread 2 waits to change an even one. -/
theorem lookup_table_contract_even_odd :
    ∃ x : State (Fin 3) Nat Nat × Record (Fin 3) (Call Nat Nat) (Ret Nat Nat),
      ((system (Fin 3) Nat evenOdd).recorded calls rets).Reachable x ∧
      x.2.history = [.call 0 (.bucket (.addOrUpdateMapping 2 20)), .ret 0 .done, .call 1 .getMap,
        .call 2 (.bucket (.addOrUpdateMapping 2 21)), .call 3 (.bucket (.addOrUpdateMapping 1 10)),
        .ret 3 .done, .ret 1 (.map [(1, 10), (2, 20)]), .ret 2 .done,
        .call 4 (.bucket (.valueFor 2 0)), .ret 4 (.value 21)] ∧
      ¬ Deadlocked evenOdd x.1 ∧ (mapObject evenOdd Nat).Linearizable x.2.history := by
  obtain ⟨x, hx, hHistory⟩ :=
    System.exists_reachable_of_exec (S := (system (Fin 3) Nat evenOdd).recorded calls rets)
    (p := fun x => x.2.history = [.call 0 (.bucket (.addOrUpdateMapping 2 20)), .ret 0 .done,
        .call 1 .getMap, .call 2 (.bucket (.addOrUpdateMapping 2 21)),
        .call 3 (.bucket (.addOrUpdateMapping 1 10)), .ret 3 .done,
        .ret 1 (.map [(1, 10), (2, 20)]), .ret 2 .done, .call 4 (.bucket (.valueFor 2 0)),
        .ret 4 (.value 21)])
    [.call 0 (.bucket (.addOrUpdateMapping 2 20)), .run 0 0, .run 0 0, .call 1 .getMap, .run 1 0,
      .call 2 (.bucket (.addOrUpdateMapping 2 21)), .call 0 (.bucket (.addOrUpdateMapping 1 10)),
      .run 0 0, .run 0 0, .run 1 0, .run 1 0, .run 1 0, .run 1 1, .run 1 0, .run 2 0, .run 1 0,
      .run 2 0, .call 2 (.bucket (.valueFor 2 0)), .run 2 0, .run 2 0]
    (by decide +kernel)
  obtain ⟨hGoesOn, hLinearizable, -⟩ := lookup_table_contract hx
  exact ⟨x, hx, hHistory, hGoesOn, hLinearizable⟩

end EmbLinux.DesignLockBase.LookupTable
