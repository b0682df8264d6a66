import EmbLinux.DesignLockBase.LookupTable.Model
import EmbLinux.Lib.Update

/-!
# EmbLinux — the buckets of `threadsafe_lookup_table` as one map

The region of a bucket operation keeps the keys of the bucket unique, and its elements are
those that the operation of a map leaves. The copies of `get_map` put the elements of all
buckets into one ordered map, `Table.map`, and a region changes this map as the operation
of the map does.
-/

namespace EmbLinux.DesignLockBase.LookupTable

variable {κ α : Type*} [BEq κ] [EquivBEq κ] {T : Table κ} {key : κ} {value : α} {x e : κ × α}
  {data data' : List (κ × α)} {buckets : Nat → List (κ × α)}

-- ---------------------------------------------------------------------------
-- Regions
-- ---------------------------------------------------------------------------

omit [EquivBEq κ] in
/-- A key that is not found is none of the bucket's. -/
theorem ne_of_findEntryFor (h : findEntryFor key data = none) (hx : x ∈ data) :
    (x.1 == key) = false :=
  Bool.eq_false_iff.mpr (List.find?_eq_none.mp h x hx)

/-- Assigning to the entry that was found changes this entry. -/
theorem mem_assignFound (hUnique : UniqueKeys data) (he : findEntryFor key data = some e) :
    x ∈ assignFound key value data ↔ (x ∈ data ∧ (x.1 == key) = false) ∨ x = (e.1, value) := by
  induction data with
  | nil => cases he
  | cons item rest ih =>
    obtain ⟨hItem, hRest⟩ := List.pairwise_cons.mp hUnique
    unfold assignFound
    by_cases hKey : (item.1 == key) = true
    · rw [if_pos hKey]
      have hHere : findEntryFor key (item :: rest) = some item := by
        rw [findEntryFor, List.find?_cons, hKey]
      obtain rfl := Option.some.inj (hHere.symm.trans he)
      have hOther : ∀ y ∈ rest, (y.1 == key) = false := by
        intro y hy
        cases hEq : y.1 == key with
        | false => rfl
        | true =>
          have hSame := BEq.trans hKey (BEq.symm hEq)
          rw [hItem y hy] at hSame
          cases hSame
      rw [List.mem_cons, List.mem_cons]
      constructor
      · rintro (rfl | hx)
        · exact Or.inr rfl
        · exact Or.inl ⟨Or.inr hx, hOther x hx⟩
      · rintro (⟨rfl | hx, hNe⟩ | rfl)
        · rw [hKey] at hNe
          cases hNe
        · exact Or.inr hx
        · exact Or.inl rfl
    · rw [if_neg hKey]
      have hLater : findEntryFor key rest = some e := by
        rw [findEntryFor, List.find?_cons, Bool.eq_false_iff.mpr hKey] at he
        exact he
      rw [List.mem_cons, ih hRest hLater, List.mem_cons]
      constructor
      · rintro (rfl | ⟨hx, hNe⟩ | rfl)
        · exact Or.inl ⟨Or.inl rfl, Bool.eq_false_iff.mpr hKey⟩
        · exact Or.inl ⟨Or.inr hx, hNe⟩
        · exact Or.inr rfl
      · rintro (⟨rfl | hx, hNe⟩ | rfl)
        · exact Or.inl rfl
        · exact Or.inr (Or.inl ⟨hx, hNe⟩)
        · exact Or.inr (Or.inr rfl)

omit [EquivBEq κ] in
/-- The keys stay as they are. -/
theorem map_fst_assignFound : (assignFound key value data).map Prod.fst = data.map Prod.fst := by
  induction data with
  | nil => rfl
  | cons item rest ih =>
    unfold assignFound
    split
    · rfl
    · rw [List.map_cons, List.map_cons, ih]

omit [EquivBEq κ] in
/-- Unique keys as a property of the list of keys. -/
theorem uniqueKeys_iff_keys :
    UniqueKeys data ↔ (data.map Prod.fst).Pairwise fun a b => (a == b) = false := by
  rw [List.pairwise_map]
  rfl

/-- Erasing the entry that was found leaves the others. -/
theorem mem_eraseFound (hUnique : UniqueKeys data) :
    x ∈ data.eraseP (fun item => item.1 == key) ↔ x ∈ data ∧ (x.1 == key) = false := by
  induction data with
  | nil => simp
  | cons item rest ih =>
    obtain ⟨hItem, hRest⟩ := List.pairwise_cons.mp hUnique
    by_cases hKey : (item.1 == key) = true
    · rw [List.eraseP_cons_of_pos (p := fun item : κ × α => item.1 == key) hKey, List.mem_cons]
      constructor
      · intro hx
        refine ⟨Or.inr hx, ?_⟩
        cases hEq : x.1 == key with
        | false => rfl
        | true =>
          have hSame := BEq.trans hKey (BEq.symm hEq)
          rw [hItem x hx] at hSame
          cases hSame
      · rintro ⟨rfl | hx, hNe⟩
        · rw [hKey] at hNe
          cases hNe
        · exact hx
    · rw [List.eraseP_cons_of_neg (p := fun item : κ × α => item.1 == key) hKey, List.mem_cons,
        ih hRest, List.mem_cons]
      constructor
      · rintro (rfl | ⟨hx, hNe⟩)
        · exact ⟨Or.inl rfl, Bool.eq_false_iff.mpr hKey⟩
        · exact ⟨Or.inr hx, hNe⟩
      · rintro ⟨rfl | hx, hNe⟩
        · exact Or.inl rfl
        · exact Or.inr ⟨hx, hNe⟩

omit [EquivBEq κ] in
/-- A region keeps the keys unique. -/
theorem uniqueKeys_region (hUnique : UniqueKeys data) (c : BucketCall κ α) :
    UniqueKeys (c.region data).1 := by
  cases c with
  | valueFor key defaultValue =>
    simp only [BucketCall.region]
    split <;> exact hUnique
  | addOrUpdateMapping key value =>
    simp only [BucketCall.region]
    split
    · next hNone =>
      refine List.pairwise_append.mpr ⟨hUnique, List.pairwise_singleton _ _, ?_⟩
      intro y hy z hz
      rw [List.mem_singleton.mp hz]
      exact ne_of_findEntryFor hNone hy
    · rw [uniqueKeys_iff_keys, map_fst_assignFound, ← uniqueKeys_iff_keys]
      exact hUnique
  | removeMapping key =>
    simp only [BucketCall.region]
    split
    · exact hUnique
    · exact hUnique.sublist (List.eraseP_sublist ..)

/-- The elements of a bucket after `add_or_update_mapping`. -/
theorem mem_addOrUpdate (hUnique : UniqueKeys data) :
    x ∈ ((BucketCall.addOrUpdateMapping key value).region data).1 ↔
      (x ∈ data ∧ (x.1 == key) = false) ∨
        x = (((findEntryFor key data).map Prod.fst).getD key, value) := by
  simp only [BucketCall.region]
  split
  · next hNone =>
    rw [hNone, List.mem_append, List.mem_singleton]
    exact or_congr_left ⟨fun hx => ⟨hx, ne_of_findEntryFor hNone hx⟩, fun hx => hx.1⟩
  · next e he =>
    rw [he]
    exact mem_assignFound hUnique he

/-- What `remove_mapping` leaves in the bucket. -/
theorem mem_remove (hUnique : UniqueKeys data) :
    x ∈ ((BucketCall.removeMapping key : BucketCall κ α).region data).1 ↔
      x ∈ data ∧ (x.1 == key) = false := by
  simp only [BucketCall.region]
  split
  · next hNone => exact ⟨fun hx => ⟨hx, ne_of_findEntryFor hNone hx⟩, fun hx => hx.1⟩
  · exact mem_eraseFound hUnique

-- ---------------------------------------------------------------------------
-- The whole table
-- ---------------------------------------------------------------------------

/-- Each key is in the bucket of its hash, once. -/
structure Buckets (T : Table κ) (buckets : Nat → List (κ × α)) : Prop where
  unique : ∀ i, UniqueKeys (buckets i)
  place : ∀ i, ∀ e ∈ buckets i, T.bucketIndex e.1 = i

omit [EquivBEq κ] in
/-- Every key has a bucket. -/
theorem Table.bucketIndex_lt (T : Table κ) (key : κ) : T.bucketIndex key < T.numBuckets :=
  Nat.mod_lt _ T.pos

omit [EquivBEq κ] in
/-- Equal keys have the same bucket. -/
theorem Table.bucketIndex_congr (T : Table κ) {k k' : κ} (h : (k == k') = true) :
    T.bucketIndex k = T.bucketIndex k' := by
  rw [bucketIndex, bucketIndex, T.respects k k' h]

/-- What `get_map` has in `res` when it has copied the buckets below `i`. -/
def Table.copied (T : Table κ) (buckets : Nat → List (κ × α)) : Nat → List (κ × α)
  | 0 => []
  | i + 1 => insertAll T.order (T.copied buckets i) (buckets i)

omit [EquivBEq κ] in
/-- The copy of the first buckets is sorted by its keys. -/
theorem Table.sorted_copied (T : Table κ) (buckets : Nat → List (κ × α)) (i : Nat) :
    Sorted T.order (T.copied buckets i) := by
  induction i with
  | zero => exact Sorted.nil
  | succ i ih => exact ih.insertAll _

/-- The map that the buckets are. -/
def Table.map (T : Table κ) (buckets : Nat → List (κ × α)) : OrderedMap T.order α :=
  ⟨T.copied buckets T.numBuckets, T.sorted_copied buckets T.numBuckets⟩

omit [EquivBEq κ] in
/-- The copy holds the pairs of the buckets that were copied. -/
theorem Buckets.mem_copied (h : Buckets T buckets) (i : Nat) :
    x ∈ T.copied buckets i ↔ ∃ j < i, x ∈ buckets j := by
  induction i generalizing x with
  | zero => simp [Table.copied]
  | succ i ih =>
    rw [Table.copied, (T.sorted_copied buckets i).mem_insertAll (h.unique i), ih]
    · constructor
      · rintro (⟨j, hj, hx⟩ | hx)
        · exact ⟨j, Nat.lt_succ_of_lt hj, hx⟩
        · exact ⟨i, Nat.lt_succ_self i, hx⟩
      · rintro ⟨j, hj, hx⟩
        rcases Nat.lt_succ_iff_lt_or_eq.mp hj with hj | rfl
        · exact Or.inl ⟨j, hj, hx⟩
        · exact Or.inr hx
    · -- equal keys would be in the same bucket
      intro e he y hy
      obtain ⟨j, hj, hy⟩ := ih.mp hy
      cases hEq : y.1 == e.1 with
      | false => rfl
      | true =>
        have hSame := T.bucketIndex_congr hEq
        rw [h.place j y hy, h.place i e he] at hSame
        exact absurd hSame (Nat.ne_of_lt hj)

omit [EquivBEq κ] in
/-- A pair is in the map exactly if it is in the bucket of its key. -/
theorem Buckets.mem_map (h : Buckets T buckets) :
    x ∈ (T.map buckets).entries ↔ x ∈ buckets (T.bucketIndex x.1) := by
  show x ∈ T.copied buckets T.numBuckets ↔ _
  rw [h.mem_copied]
  constructor
  · rintro ⟨j, -, hx⟩
    rw [h.place j x hx]
    exact hx
  · exact fun hx => ⟨_, T.bucketIndex_lt x.1, hx⟩

/-- The pair with a key is looked up in one bucket. -/
theorem Buckets.find_map (h : Buckets T buckets) (key : κ) :
    (T.map buckets).find key = findEntryFor key (buckets (T.bucketIndex key)) := by
  refine (T.map buckets).sorted.uniqueKeys.find_congr (h.unique _) ?_
  intro e he
  rw [h.mem_map, T.bucketIndex_congr he]

/-- The operations of the map. -/
def BucketCall.apply (M : OrderedMap T.order α) : BucketCall κ α → OrderedMap T.order α × Ret κ α
  | .valueFor key defaultValue => (M, .value ((M.lookup key).getD defaultValue))
  | .addOrUpdateMapping key value => (M.assign key value, .done)
  | .removeMapping key => (M.erase key, .done)

/-- What an operation makes of the value of its key. -/
def BucketCall.image : BucketCall κ α → Option α → Option α
  | .valueFor _ _, before => before
  | .addOrUpdateMapping _ value, _ => some value
  | .removeMapping _, _ => none

/-- The map as a function of the key: an operation changes it at its own key only. -/
theorem BucketCall.lookup_apply (c : BucketCall κ α) (M : OrderedMap T.order α) (key : κ) :
    (c.apply M).1.lookup key =
      if c.key == key then c.image (M.lookup key) else M.lookup key := by
  cases c with
  | valueFor key' defaultValue =>
    show M.lookup key = if key' == key then M.lookup key else M.lookup key
    rw [ite_self]
  | addOrUpdateMapping key' value => exact M.lookup_assign
  | removeMapping key' => exact M.lookup_erase

/-- The buckets after the region of a bucket operation. -/
def Table.update (T : Table κ) (buckets : Nat → List (κ × α)) (c : BucketCall κ α) :
    Nat → List (κ × α) :=
  Function.update buckets (T.bucketIndex c.key) (c.region (buckets (T.bucketIndex c.key))).1

/-- The key that is stored is equal to the one that is asked for. -/
theorem stored_beq : ((((findEntryFor key data).map Prod.fst).getD key) == key) = true := by
  cases hFind : findEntryFor key data with
  | none => exact BEq.rfl
  | some e => exact List.find?_some (p := fun e : κ × α => e.1 == key) hFind

/-- What is in the bucket after a region has the hash of the bucket. -/
theorem Buckets.place_region (h : Buckets T buckets) {c : BucketCall κ α}
    (hx : x ∈ (c.region (buckets (T.bucketIndex c.key))).1) :
    T.bucketIndex x.1 = T.bucketIndex c.key := by
  cases c with
  | valueFor key defaultValue =>
    simp only [BucketCall.region] at hx
    split at hx <;> exact h.place _ x hx
  | addOrUpdateMapping key value =>
    rcases (mem_addOrUpdate (h.unique _)).mp hx with ⟨hx, -⟩ | rfl
    · exact h.place _ x hx
    · exact T.bucketIndex_congr stored_beq
  | removeMapping key => exact h.place _ x ((mem_remove (h.unique _)).mp hx).1

/-- A region leaves the keys in their buckets. -/
theorem Buckets.update (h : Buckets T buckets) (c : BucketCall κ α) :
    Buckets T (T.update buckets c) := by
  refine ⟨?_, ?_⟩
  · intro i
    rcases update_at buckets (T.bucketIndex c.key) (c.region (buckets (T.bucketIndex c.key))).1 i
      with ⟨-, hAt⟩ | ⟨-, hAt⟩ <;> rw [Table.update, hAt]
    · exact uniqueKeys_region (h.unique _) c
    · exact h.unique i
  · intro i e he
    rcases update_at buckets (T.bucketIndex c.key) (c.region (buckets (T.bucketIndex c.key))).1 i
      with ⟨rfl, hAt⟩ | ⟨-, hAt⟩ <;> rw [Table.update, hAt] at he
    · exact h.place_region he
    · exact h.place i e he

/-- A region changes the elements of its bucket only. -/
theorem Buckets.mem_update (h : Buckets T buckets) (c : BucketCall κ α) :
    x ∈ (T.map (T.update buckets c)).entries ↔
      (T.bucketIndex x.1 = T.bucketIndex c.key ∧
        x ∈ (c.region (buckets (T.bucketIndex c.key))).1) ∨
      (T.bucketIndex x.1 ≠ T.bucketIndex c.key ∧ x ∈ (T.map buckets).entries) := by
  rw [(h.update c).mem_map, h.mem_map]
  rcases update_at buckets (T.bucketIndex c.key) (c.region (buckets (T.bucketIndex c.key))).1
    (T.bucketIndex x.1) with ⟨hEq, hAt⟩ | ⟨hNe, hAt⟩ <;> rw [Table.update, hAt]
  · simp [hEq]
  · simp [hNe]

omit [EquivBEq κ] in
/-- Keys of different buckets are different. -/
theorem Table.ne_of_bucketIndex (T : Table κ) {k k' : κ} (h : T.bucketIndex k ≠ T.bucketIndex k') :
    (k == k') = false := by
  cases hEq : k == k' with
  | false => rfl
  | true => exact absurd (T.bucketIndex_congr hEq) h

/-- `value_for` changes nothing, and answers what the map has. -/
theorem Buckets.valueFor_apply (h : Buckets T buckets) (key : κ) (defaultValue : α) :
    (BucketCall.valueFor key defaultValue).apply (T.map buckets) =
      (T.map (T.update buckets (.valueFor key defaultValue)),
        ((BucketCall.valueFor key defaultValue).region (buckets (T.bucketIndex key))).2) := by
  have hFst : ((BucketCall.valueFor key defaultValue).region (buckets (T.bucketIndex key))).1 =
      buckets (T.bucketIndex key) := by
    simp only [BucketCall.region]
    split <;> rfl
  have hSame : T.update buckets (.valueFor key defaultValue) = buckets := by
    show Function.update buckets (T.bucketIndex key) _ = buckets
    rw [show (BucketCall.valueFor key defaultValue).key = key from rfl, hFst,
      Function.update_eq_self]
  rw [hSame, BucketCall.apply, OrderedMap.lookup, h.find_map]
  simp only [BucketCall.region]
  cases findEntryFor key (buckets (T.bucketIndex key)) <;> rfl

/-- An assignment in the map is `add_or_update_mapping` in a bucket, -/
theorem Buckets.assign_apply (h : Buckets T buckets) (key : κ) (value : α) :
    (T.map buckets).assign key value =
      T.map (T.update buckets (.addOrUpdateMapping key value)) := by
  refine OrderedMap.ext (Sorted.eq_of_mem (OrderedMap.sorted _) (OrderedMap.sorted _) ?_)
  intro x
  rw [OrderedMap.mem_assign, h.find_map, h.mem_update, mem_addOrUpdate (h.unique _)]
  have hStored : T.bucketIndex (((findEntryFor key (buckets (T.bucketIndex key))).map
      Prod.fst).getD key) = T.bucketIndex key := T.bucketIndex_congr stored_beq
  constructor
  · rintro (⟨hx, hNe⟩ | rfl)
    · by_cases hBucket : T.bucketIndex x.1 = T.bucketIndex key
      · refine Or.inl ⟨hBucket, Or.inl ⟨?_, hNe⟩⟩
        show x ∈ buckets (T.bucketIndex key)
        rw [← hBucket]
        exact h.mem_map.mp hx
      · exact Or.inr ⟨hBucket, hx⟩
    · exact Or.inl ⟨hStored, Or.inr rfl⟩
  · rintro (⟨hBucket, ⟨hx, hNe⟩ | rfl⟩ | ⟨hBucket, hx⟩)
    · refine Or.inl ⟨h.mem_map.mpr ?_, hNe⟩
      rw [hBucket]
      exact hx
    · exact Or.inr rfl
    · exact Or.inl ⟨hx, T.ne_of_bucketIndex hBucket⟩

/-- and an erasure is `remove_mapping`. -/
theorem Buckets.erase_apply (h : Buckets T buckets) (key : κ) :
    (T.map buckets).erase key = T.map (T.update buckets (.removeMapping key)) := by
  refine OrderedMap.ext (Sorted.eq_of_mem (OrderedMap.sorted _) (OrderedMap.sorted _) ?_)
  intro x
  rw [OrderedMap.mem_erase, h.mem_update, mem_remove (h.unique _)]
  constructor
  · rintro ⟨hx, hNe⟩
    by_cases hBucket : T.bucketIndex x.1 = T.bucketIndex key
    · refine Or.inl ⟨hBucket, ?_, hNe⟩
      show x ∈ buckets (T.bucketIndex key)
      rw [← hBucket]
      exact h.mem_map.mp hx
    · exact Or.inr ⟨hBucket, hx⟩
  · rintro (⟨hBucket, hx, hNe⟩ | ⟨hBucket, hx⟩)
    · refine ⟨h.mem_map.mpr ?_, hNe⟩
      rw [hBucket]
      exact hx
    · exact ⟨hx, T.ne_of_bucketIndex hBucket⟩

/-- **A region is the operation of the map.** -/
theorem Buckets.region_apply (h : Buckets T buckets) (c : BucketCall κ α) :
    c.apply (T.map buckets) = (T.map (T.update buckets c),
      (c.region (buckets (T.bucketIndex c.key))).2) := by
  cases c with
  | valueFor key defaultValue => exact h.valueFor_apply key defaultValue
  | addOrUpdateMapping key value =>
    rw [BucketCall.apply, h.assign_apply]
    simp only [BucketCall.region, BucketCall.key]
    split <;> rfl
  | removeMapping key =>
    rw [BucketCall.apply, h.erase_apply]
    simp only [BucketCall.region, BucketCall.key]
    split <;> rfl

end EmbLinux.DesignLockBase.LookupTable
