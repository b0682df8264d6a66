import EmbLinux.Lib.Update
import EmbLinux.ThreadSafeHashMap.Model
import Mathlib.Order.Nat

/-!
# EmbLinux — `ThreadSafeHashMap` is one finite map

The map is spread over buckets with a lock each. `lookupIn` reads it as one map,
and `lookupIn_region` says that each region acts on that map as its operation
does on a finite map: no key of another bucket, and no other key of the same
bucket, is touched. `map_contract` adds the shape of the buckets: one pair for
each key, in the bucket of the key's hash.

A hash is lawful when equal keys have the same one; the number of buckets is any positive one.
Each region runs under the lock of its bucket, so it is one step.

## Results

* `region_answer` — a region answers as the operation does on a map with the same values.
* `lookupIn_region` — and changes the map as the operation does.
* `matches_step`, `matches_run` — the step and the run lemma of the refinement.
-/

namespace EmbLinux.ThreadSafeHashMap

open FiniteMap (Op Answer beq_congr beq_congr_left written)

variable {τ κ α : Type*} [DecidableEq τ] [BEq κ] [EquivBEq κ] {NumBuckets : Nat}
  {key k : κ} {value : α} {data data' : List (κ × α)}

-- ---------------------------------------------------------------------------
-- What a region leaves for a key
-- ---------------------------------------------------------------------------

omit [EquivBEq κ] in
/-- A bucket is searched from its front. -/
theorem getRegion_cons (first : κ) (second : α) (rest : List (κ × α)) :
    getRegion k ((first, second) :: rest) =
      if first == k then some second else getRegion k rest := by
  unfold getRegion
  rw [List.find?_cons]
  cases hFirst : first == k <;> rfl

/-- An assignment to the first pair with the key is seen under this key, -/
theorem getRegion_assignFirst (h : assignFirst key value data = some data') :
    getRegion k data' = if key == k then some value else getRegion k data := by
  induction data generalizing data' with
  | nil => cases h
  | cons pair rest ih =>
    obtain ⟨first, second⟩ := pair
    rw [assignFirst] at h
    split at h
    · next hFirst =>
      -- the pair that gets the value answers for the keys equal to `key`
      cases h
      rw [getRegion_cons, getRegion_cons, beq_congr_left hFirst k]
      split <;> rfl
    · next hFirst =>
      obtain ⟨rest', hRest, rfl⟩ := Option.map_eq_some_iff.mp h
      rw [getRegion_cons, getRegion_cons, ih hRest]
      by_cases hKey : (key == k) = true
      · -- the front pair has another key
        rw [if_pos hKey, if_pos hKey, ← beq_congr hKey first, if_neg hFirst]
      · rw [if_neg hKey, if_neg hKey]

/-- a pair behind all others is, if the key was not there, -/
theorem getRegion_of_assignFirst_none (h : assignFirst key value data = none) :
    getRegion k (data ++ [(key, value)]) =
      if key == k then some value else getRegion k data := by
  induction data with
  | nil => rw [List.nil_append, getRegion_cons]
  | cons pair rest ih =>
    obtain ⟨first, second⟩ := pair
    rw [assignFirst] at h
    split at h
    · cases h
    · next hFirst =>
      rw [List.cons_append, getRegion_cons, getRegion_cons, ih (Option.map_eq_none_iff.mp h)]
      by_cases hKey : (key == k) = true
      · rw [if_pos hKey, if_pos hKey, ← beq_congr hKey first, if_neg hFirst]
      · rw [if_neg hKey, if_neg hKey]

/-- so `insert` is. -/
theorem getRegion_insertRegion :
    getRegion k (insertRegion key value data) =
      if key == k then some value else getRegion k data := by
  unfold insertRegion
  split
  · next hSome => exact getRegion_assignFirst hSome
  · next hNone => exact getRegion_of_assignFirst_none hNone

/-- A removed key is gone, as no other pair has it. -/
theorem getRegion_removeRegion :
    getRegion k (removeRegion key data) = if key == k then none else getRegion k data := by
  induction data with
  | nil =>
    show (none : Option α) = if key == k then none else none
    rw [ite_self]
  | cons pair rest ih =>
    obtain ⟨first, second⟩ := pair
    rw [removeRegion] at ih ⊢
    rw [List.filter_cons, getRegion_cons]
    by_cases hFirst : (first == key) = true
    · -- the pair goes, and it answered only for the keys equal to `key`
      rw [if_neg (by simp [hFirst]), ih, beq_congr_left hFirst k]
      split <;> rfl
    · rw [if_pos (by simp [hFirst]), getRegion_cons, ih]
      by_cases hKey : (key == k) = true
      · rw [if_pos hKey, if_pos hKey, ← beq_congr hKey first, if_neg hFirst]
      · rw [if_neg hKey, if_neg hKey]

-- ---------------------------------------------------------------------------
-- The buckets as one map
-- ---------------------------------------------------------------------------

variable [Hashable κ] {buckets : Nat → List (κ × α)}

/-- The value of a key in the whole map. -/
def lookupIn (NumBuckets : Nat) (buckets : Nat → List (κ × α)) (k : κ) : Option α :=
  getRegion k (buckets (getBucket NumBuckets k))

omit [EquivBEq κ] in
/-- A region that changes the bucket of `key` only. -/
theorem lookupIn_update [LawfulHashable κ] {old new : Option α}
    (hHere : (key == k) = true → getRegion k data = new)
    (hOther : ¬ (key == k) = true →
      getRegion k data = getRegion k (buckets (getBucket NumBuckets key)))
    (hOld : lookupIn NumBuckets buckets k = old) :
    lookupIn NumBuckets (Function.update buckets (getBucket NumBuckets key) data) k =
      if key == k then new else old := by
  unfold lookupIn at hOld ⊢
  by_cases hKey : (key == k) = true
  · -- equal keys share their bucket
    have hBucket : getBucket NumBuckets k = getBucket NumBuckets key := by
      rw [getBucket, getBucket, LawfulHashable.hash_eq key k hKey]
    rw [if_pos hKey, hBucket, Function.update_self, hHere hKey]
  · rw [if_neg hKey]
    rcases update_at buckets (getBucket NumBuckets key) data (getBucket NumBuckets k) with
      ⟨hSame, hAt⟩ | ⟨-, hAt⟩
    · rw [hAt, hOther hKey, ← hSame, hOld]
    · rw [hAt, hOld]

/-- Each region acts on the map as its operation does. -/
theorem lookupIn_region [LawfulHashable κ] (op : Op κ α) (k : κ) :
    lookupIn NumBuckets (region NumBuckets buckets op).2 k =
      op.effect k (lookupIn NumBuckets buckets k) := by
  cases op with
  | insert key value =>
    refine lookupIn_update ?_ ?_ rfl
    · intro hKey
      rw [getRegion_insertRegion, if_pos hKey]
    · intro hKey
      rw [getRegion_insertRegion, if_neg hKey]
  | get key => rfl
  | remove key =>
    refine lookupIn_update ?_ ?_ rfl
    · intro hKey
      rw [getRegion_removeRegion, if_pos hKey]
    · intro hKey
      rw [getRegion_removeRegion, if_neg hKey]

/-- The answer of a region is the answer of its operation on a map with the same
values. -/
theorem region_answer {m : FiniteMap κ α}
    (hLookup : ∀ k, m.lookup k = lookupIn NumBuckets buckets k) (op : Op κ α) :
    (region NumBuckets buckets op).1 = (m.apply op).1 := by
  cases op with
  | insert key value => rfl
  | get key => exact congrArg Answer.found (hLookup key).symm
  | remove key => rfl

-- ---------------------------------------------------------------------------
-- One pair for each key, in the bucket of its hash
-- ---------------------------------------------------------------------------

/-- No two pairs of the list have equal keys. -/
def Distinct (data : List (κ × α)) : Prop :=
  data.Pairwise fun p q => (p.1 == q.1) = false

/-- The shape of the buckets. -/
structure Placed (NumBuckets : Nat) (buckets : Nat → List (κ × α)) : Prop where
  placed : ∀ b, ∀ pair ∈ buckets b, getBucket NumBuckets pair.1 = b
  distinct : ∀ b, Distinct (buckets b)

section

omit [EquivBEq κ] [Hashable κ]

/-- The loop of `insert` changes no key. -/
theorem keys_assignFirst (h : assignFirst key value data = some data') :
    data'.map Prod.fst = data.map Prod.fst := by
  induction data generalizing data' with
  | nil => cases h
  | cons pair rest ih =>
    obtain ⟨first, second⟩ := pair
    rw [assignFirst] at h
    split at h
    · cases h
      rfl
    · obtain ⟨rest', hRest, rfl⟩ := Option.map_eq_some_iff.mp h
      rw [List.map_cons, List.map_cons, ih hRest]

/-- When the loop finds no pair, no pair has the key. -/
theorem absent_of_assignFirst_none (h : assignFirst key value data = none) :
    ∀ pair ∈ data, (pair.1 == key) = false := by
  induction data with
  | nil => exact fun _ hMem => absurd hMem List.not_mem_nil
  | cons pair rest ih =>
    obtain ⟨first, second⟩ := pair
    rw [assignFirst] at h
    split at h
    · cases h
    · next hFirst =>
      intro q hq
      rcases List.mem_cons.mp hq with rfl | hq
      · exact Bool.eq_false_iff.mpr hFirst
      · exact ih (Option.map_eq_none_iff.mp h) q hq

/-- Different keys as a property of the list of keys. -/
theorem distinct_iff_keys :
    Distinct data ↔ (data.map Prod.fst).Pairwise fun j k => (j == k) = false := by
  rw [List.pairwise_map]
  exact Iff.rfl

/-- `insert` keeps the keys different. -/
theorem distinct_insertRegion (h : Distinct data) : Distinct (insertRegion key value data) := by
  unfold insertRegion
  split
  · next hSome =>
    rw [distinct_iff_keys] at h ⊢
    rwa [keys_assignFirst hSome]
  · next hNone =>
    refine List.pairwise_append.mpr ⟨h, List.pairwise_singleton _ _, ?_⟩
    intro p hp q hq
    rw [List.mem_singleton.mp hq]
    exact absent_of_assignFirst_none hNone p hp

/-- The keys of a bucket are those it had and the inserted one. -/
theorem mem_insertRegion {pair : κ × α} (h : pair ∈ insertRegion key value data) :
    pair.1 ∈ data.map Prod.fst ∨ pair.1 = key := by
  unfold insertRegion at h
  split at h
  · next hSome =>
    rw [← keys_assignFirst hSome]
    exact Or.inl (List.mem_map_of_mem h)
  · rcases List.mem_append.mp h with h | h
    · exact Or.inl (List.mem_map_of_mem h)
    · rw [List.mem_singleton.mp h]
      exact Or.inr rfl

end

omit [EquivBEq κ] in
/-- One bucket changes, and its pairs are still where they belong. -/
theorem Placed.update (h : Placed NumBuckets buckets) {b : Nat}
    (hPlaced : ∀ pair ∈ data, getBucket NumBuckets pair.1 = b) (hDistinct : Distinct data) :
    Placed NumBuckets (Function.update buckets b data) := by
  refine ⟨?_, forall_of_update rfl h.distinct hDistinct⟩
  intro c
  rcases update_at buckets b data c with ⟨rfl, hAt⟩ | ⟨-, hAt⟩ <;> rw [hAt]
  · exact hPlaced
  · exact h.placed c

omit [EquivBEq κ] in
/-- A region keeps every key in its bucket. -/
theorem placed_region (h : Placed NumBuckets buckets) (op : Op κ α) :
    Placed NumBuckets (region NumBuckets buckets op).2 := by
  cases op with
  | insert key value =>
    refine h.update ?_ (distinct_insertRegion (h.distinct _))
    intro pair hPair
    rcases mem_insertRegion hPair with hOld | hNew
    · obtain ⟨old, hOld, hEq⟩ := List.mem_map.mp hOld
      rw [← hEq]
      exact h.placed _ old hOld
    · rw [hNew]
  | get key => exact h
  | remove key =>
    refine h.update ?_ ((h.distinct _).filter _)
    intro pair hPair
    exact h.placed _ pair (List.mem_filter.mp hPair).1

-- ---------------------------------------------------------------------------
-- Every run
-- ---------------------------------------------------------------------------

variable {s s' : State τ κ α} {a : Action τ κ α}

/-- The operations of the history, in the order of their regions. -/
def ops (log : List (τ × Op κ α × Answer α)) : List (Op κ α) :=
  log.map fun entry => entry.2.1

/-- Their answers. -/
def answers (log : List (τ × Op κ α × Answer α)) : List (Answer α) :=
  log.map fun entry => entry.2.2

/-- The answers that a thread got, in order. -/
def answersTo (t : τ) (log : List (τ × Op κ α × Answer α)) : List (Answer α) :=
  answers (log.filter fun entry => entry.1 = t)

/-- The buckets stand for the map after the operations of the history. -/
structure Matches (NumBuckets : Nat) (s : State τ κ α) : Prop where
  placed : Placed NumBuckets s.buckets
  /-- The map answers the operations so far as the regions did, -/
  answers : (FiniteMap.empty.run (ops s.log)).1 = answers s.log
  /-- and has the values that the buckets have. -/
  lookup : ∀ k, (FiniteMap.empty.run (ops s.log)).2.lookup k = lookupIn NumBuckets s.buckets k
  /-- What a call returns is the last answer of its thread in the log. -/
  last : ∀ t r, s.pc t = .idle (some r) → (answersTo t s.log).getLast? = some r

/-- Empty buckets and an empty map. -/
theorem matches_init : Matches NumBuckets (init τ κ α) where
  placed := ⟨by simp [init], fun _ => List.Pairwise.nil⟩
  answers := rfl
  lookup := fun _ => rfl
  last := by simp [init]

/-- A region does in its bucket what the map does, and gives the same answer. -/
theorem matches_step [LawfulHashable κ] (h : Matches NumBuckets s)
    (hst : step NumBuckets s a = some s') : Matches NumBuckets s' := by
  cases a with
  | call t op =>
    simp only [step] at hst
    split at hst <;> cases hst
    refine { h with last := ?_ }
    intro u r hu
    replace hu : Function.update s.pc t (.locking op) u = .idle (some r) := hu
    rcases update_at s.pc t (.locking op) u with ⟨-, hAt⟩ | ⟨-, hAt⟩ <;> rw [hAt] at hu
    · cases hu
    · exact h.last u r hu
  | run t =>
    simp only [step] at hst
    split at hst <;> cases hst
    next op hpc =>
    have hOps : ops (s.log ++ [(t, op, (region NumBuckets s.buckets op).1)]) = ops s.log ++ [op] :=
      List.map_append ..
    refine ⟨placed_region h.placed op, ?_, ?_, ?_⟩
    · rw [hOps, FiniteMap.run_append, h.answers, region_answer h.lookup, answers, answers,
        List.map_append]
      rfl
    · intro k
      rw [hOps, FiniteMap.run_append, lookupIn_region, ← h.lookup]
      exact FiniteMap.lookup_apply _ op k
    · intro u r hu
      replace hu : Function.update s.pc t _ u = .idle (some r) := hu
      rcases update_at s.pc t (.idle (some (region NumBuckets s.buckets op).1)) u with
        ⟨rfl, hAt⟩ | ⟨hne, hAt⟩ <;> rw [hAt] at hu
      · cases hu
        simp [answersTo, answers]
      · have hSame : answersTo u (s.log ++ [(t, op, (region NumBuckets s.buckets op).1)]) =
            answersTo u s.log := by
          simp [answersTo, answers, List.filter_append, Ne.symm hne]
        rw [hSame]
        exact h.last u r hu

/-- In every state the buckets are the map of the operations so far. -/
theorem matches_run [LawfulHashable κ] (h : (system τ κ α NumBuckets).Reachable s) :
    Matches NumBuckets s :=
  h.invariant (I := Matches NumBuckets) matches_init fun _ _ _ _ hI _ hst => matches_step hI hst

-- ---------------------------------------------------------------------------
-- The contract
-- ---------------------------------------------------------------------------

/-- What `ThreadSafeHashMap` promises in every state. -/
structure MapContract (NumBuckets : Nat) (s : State τ κ α) : Prop where
  /-- Each pair lies in the bucket of its key's hash. -/
  placed : ∀ b, ∀ pair ∈ s.buckets b, b < NumBuckets ∧ getBucket NumBuckets pair.1 = b
  /-- In the whole map there is at most one pair for each key. -/
  unique : ((List.range NumBuckets).flatMap s.buckets).Pairwise fun p q => (p.1 == q.1) = false
  /-- The answers are those of the operations on one finite map, in the order of
  their regions, and the buckets hold that map. -/
  linear : ∃ m : FiniteMap κ α, FiniteMap.empty.run (ops s.log) = (answers s.log, m) ∧
    ∀ k, m.lookup k = lookupIn NumBuckets s.buckets k
  /-- A `get` answers the value inserted last and not removed since. -/
  lastInserted : ∀ before t key answer after, s.log = before ++ (t, .get key, answer) :: after →
    answer = .found (written key (ops before))
  /-- A call returns the answer of its region. -/
  returns : ∀ t r, s.pc t = .idle (some r) → (answersTo t s.log).getLast? = some r

omit [EquivBEq κ] in
/-- Pairs of different buckets have different keys. -/
theorem Placed.flatMap [LawfulHashable κ] (h : Placed NumBuckets buckets) (n : Nat) :
    ((List.range n).flatMap buckets).Pairwise fun p q => (p.1 == q.1) = false := by
  refine List.pairwise_flatMap.mpr ⟨fun b _ => h.distinct b, ?_⟩
  refine List.pairwise_lt_range.imp ?_
  intro b c hlt p hp q hq
  refine Bool.eq_false_iff.mpr fun hEq => ?_
  have hBucket : getBucket NumBuckets p.1 = getBucket NumBuckets q.1 := by
    rw [getBucket, getBucket, LawfulHashable.hash_eq p.1 q.1 hEq]
  rw [h.placed b p hp, h.placed c q hq] at hBucket
  omega

/-- **`ThreadSafeHashMap` refines a finite map**, for every number of buckets, every lawful
hash, and every interleaving of the calls. Keys of one bucket may collide as they like. `hPos`
excludes a map without buckets, whose hash would be taken modulo zero. -/
theorem map_contract [LawfulHashable κ] (hPos : 1 ≤ NumBuckets)
    (h : (system τ κ α NumBuckets).Reachable s) : MapContract NumBuckets s := by
  have hM := matches_run h
  refine ⟨?_, hM.placed.flatMap NumBuckets, ⟨_, ?_, hM.lookup⟩, ?_, hM.last⟩
  · intro b pair hPair
    have hBucket := hM.placed.placed b pair hPair
    refine ⟨?_, hBucket⟩
    rw [← hBucket]
    exact Nat.mod_lt _ hPos
  · exact Prod.ext hM.answers rfl
  · intro before t key answer after hLog
    have hRun := hM.answers
    rw [hLog] at hRun
    have hOps : ops (before ++ (t, .get key, answer) :: after) =
        ops before ++ .get key :: ops after := List.map_append ..
    have hAnswers : answers (before ++ (t, .get key, answer) :: after) =
        answers before ++ answer :: answers after := List.map_append ..
    rw [hOps, hAnswers] at hRun
    exact FiniteMap.get_of_run (by simp [answers, ops]) hRun

/-- Two threads on two buckets. The keys 1 and 3 share a bucket: 1 is inserted,
overwritten and removed, and 3 stays. -/
theorem map_contract_shared_bucket :
    ∃ s : State Bool Nat Nat, (system Bool Nat Nat 2).Reachable s ∧
      s.buckets 1 = [(3, 30)] ∧
      answers s.log = [.done, .done, .done, .found (some 11), .done, .found none,
        .found (some 30)] ∧
      MapContract 2 s := by
  obtain ⟨s, hs, hp⟩ := System.exists_reachable_of_exec (S := system Bool Nat Nat 2)
    (p := fun s => s.buckets 1 = [(3, 30)] ∧
      answers s.log = [.done, .done, .done, .found (some 11), .done, .found none,
        .found (some 30)])
    [.call true (.insert 1 10), .call false (.insert 3 30), .run true, .run false,
      .call true (.insert 1 11), .call false (.get 1), .run true, .run false,
      .call true (.remove 1), .call false (.get 1), .run true, .run false,
      .call false (.get 3), .run false] (by decide)
  exact ⟨s, hs, hp.1, hp.2, map_contract (by decide) hs⟩

end EmbLinux.ThreadSafeHashMap
