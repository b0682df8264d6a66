import Mathlib.Data.List.Nodup
import Mathlib.Data.List.Pairwise
import Mathlib.Data.List.Perm.Basic

/-!
# EmbLinux — ordered maps

A map with finitely many keys as the list of its pairs in ascending order of the keys,
which is what `std::map` iterates over. Keys that are `==` are one key; a `KeyOrder` is a
strict order of the keys that is compatible with that.

* `insertNew` is the insertion that keeps a pair with an equal key, `insertAll` that of a
  list of pairs.
* A sorted list is determined by its elements (`Sorted.eq_of_mem`), so an `OrderedMap`
  with the pairs of an unsorted table is the only one.
* `lookup_assign` and `lookup_erase` read the map as a function of the key.
-/

namespace EmbLinux

/-- A strict order in which the keys that are `==` are those that are not ordered. -/
structure KeyOrder (κ : Type*) [BEq κ] where
  lt : κ → κ → Bool
  asymm : ∀ a b, lt a b = true → lt b a = false
  trans : ∀ a b c, lt a b = true → lt b c = true → lt a c = true
  incomparable : ∀ a b, (lt a b = false ∧ lt b a = false) ↔ (a == b) = true

variable {κ α : Type*} [BEq κ] {o : KeyOrder κ} {a b c : κ} {e x : κ × α} {m m' : List (κ × α)}

/-- No key comes before itself, -/
theorem KeyOrder.irrefl (o : KeyOrder κ) (a : κ) : o.lt a a = false := by
  cases h : o.lt a a with
  | false => rfl
  | true => exact (h.symm.trans (o.asymm a a h))

/-- so a key that comes before another one is a different one. -/
theorem KeyOrder.ne_of_lt (h : o.lt a b = true) : (a == b) = false ∧ (b == a) = false := by
  refine ⟨?_, ?_⟩
  · cases hEq : a == b with
    | false => rfl
    | true =>
      rw [((o.incomparable a b).mpr hEq).1] at h
      cases h
  · cases hEq : b == a with
    | false => rfl
    | true =>
      rw [((o.incomparable b a).mpr hEq).2] at h
      cases h

/-- The pairs come in ascending order of the keys. -/
def Sorted (o : KeyOrder κ) (m : List (κ × α)) : Prop :=
  m.Pairwise fun x y => o.lt x.1 y.1 = true

/-- Insertion that does nothing if there is a pair with an equal key. -/
def insertNew (o : KeyOrder κ) (e : κ × α) : List (κ × α) → List (κ × α)
  | [] => [e]
  | x :: rest =>
    if o.lt e.1 x.1 then e :: x :: rest
    else if o.lt x.1 e.1 then x :: insertNew o e rest
    else x :: rest

/-- The pairs of a list are inserted one after the other. -/
def insertAll (o : KeyOrder κ) (m es : List (κ × α)) : List (κ × α) :=
  es.foldl (fun res e => insertNew o e res) m

/-- No two pairs have equal keys. -/
def UniqueKeys (m : List (κ × α)) : Prop :=
  m.Pairwise fun x y => (x.1 == y.1) = false

namespace Sorted

theorem nil : Sorted o ([] : List (κ × α)) :=
  List.Pairwise.nil

/-- The keys of a sorted list are unique. -/
theorem uniqueKeys (h : Sorted o m) : UniqueKeys m :=
  h.imp fun hLt => (KeyOrder.ne_of_lt hLt).1

/-- `insert` adds a pair whose key is new and nothing else. -/
theorem mem_insertNew (h : Sorted o m) :
    x ∈ insertNew o e m ↔ x ∈ m ∨ (x = e ∧ ∀ y ∈ m, (y.1 == e.1) = false) := by
  induction m with
  | nil => simp [insertNew]
  | cons y rest ih =>
    obtain ⟨hy, hRest⟩ := List.pairwise_cons.mp h
    unfold insertNew
    split
    · next hLt =>
      -- all keys are above the new one
      have hNew : ∀ z ∈ y :: rest, (z.1 == e.1) = false := by
        intro z hz
        rcases List.mem_cons.mp hz with rfl | hz
        · exact (KeyOrder.ne_of_lt hLt).2
        · exact (KeyOrder.ne_of_lt (o.trans _ _ _ hLt (hy z hz))).2
      rw [List.mem_cons, or_comm]
      exact or_congr_right ⟨fun hx => ⟨hx, hNew⟩, fun hx => hx.1⟩
    · next hNotLt =>
      split
      · next hLt =>
        have hNe : (y.1 == e.1) = false := (KeyOrder.ne_of_lt hLt).1
        rw [List.mem_cons, ih hRest, List.mem_cons, or_assoc]
        refine or_congr_right (or_congr_right (and_congr_right fun _ => ?_))
        rw [List.forall_mem_cons]
        exact ⟨fun hz => ⟨hNe, hz⟩, fun hz => hz.2⟩
      · next hNotGt =>
        -- there is a pair with an equal key
        have hEq : (y.1 == e.1) = true :=
          (o.incomparable _ _).mp ⟨Bool.eq_false_iff.mpr hNotGt, Bool.eq_false_iff.mpr hNotLt⟩
        refine ⟨Or.inl, ?_⟩
        rintro (hx | ⟨-, hx⟩)
        · exact hx
        · rw [hx y List.mem_cons_self] at hEq
          cases hEq

theorem insertNew (h : Sorted o m) (e : κ × α) : Sorted o (EmbLinux.insertNew o e m) := by
  induction m with
  | nil => exact List.pairwise_singleton _ _
  | cons y rest ih =>
    obtain ⟨hy, hRest⟩ := List.pairwise_cons.mp h
    unfold EmbLinux.insertNew
    split
    · next hLt =>
      refine List.pairwise_cons.mpr ⟨?_, h⟩
      intro z hz
      rcases List.mem_cons.mp hz with rfl | hz
      · exact hLt
      · exact o.trans _ _ _ hLt (hy z hz)
    · split
      · next hLt =>
        refine List.pairwise_cons.mpr ⟨?_, ih hRest⟩
        intro z hz
        rcases (mem_insertNew hRest).mp hz with hz | ⟨rfl, -⟩
        · exact hy z hz
        · exact hLt
      · exact h

theorem insertAll (h : Sorted o m) (es : List (κ × α)) : Sorted o (EmbLinux.insertAll o m es) := by
  induction es generalizing m with
  | nil => exact h
  | cons e es ih => exact ih (h.insertNew e)

/-- Pairs with new keys are inserted. -/
theorem mem_insertAll {es : List (κ × α)} (h : Sorted o m) (hEs : UniqueKeys es)
    (hNew : ∀ e ∈ es, ∀ y ∈ m, (y.1 == e.1) = false) :
    x ∈ EmbLinux.insertAll o m es ↔ x ∈ m ∨ x ∈ es := by
  induction es generalizing m with
  | nil => simp [EmbLinux.insertAll]
  | cons e es ih =>
    obtain ⟨he, hEs⟩ := List.pairwise_cons.mp hEs
    have hMem : ∀ {z}, z ∈ EmbLinux.insertNew o e m ↔ z ∈ m ∨ z = e := by
      intro z
      rw [h.mem_insertNew]
      exact or_congr_right ⟨fun hz => hz.1, fun hz => ⟨hz, hNew e List.mem_cons_self⟩⟩
    have hRest : ∀ e' ∈ es, ∀ y ∈ EmbLinux.insertNew o e m, (y.1 == e'.1) = false := by
      intro e' he' y hy
      rcases hMem.mp hy with hy | rfl
      · exact hNew e' (List.mem_cons_of_mem _ he') y hy
      · exact he e' he'
    show x ∈ EmbLinux.insertAll o (EmbLinux.insertNew o e m) es ↔ _
    rw [ih (h.insertNew e) hEs hRest, hMem, or_assoc, List.mem_cons]

/-- A sorted list is determined by its elements. -/
theorem eq_of_mem (h : Sorted o m) (h' : Sorted o m') (hMem : ∀ e, e ∈ m ↔ e ∈ m') : m = m' := by
  have hNodup : ∀ {l : List (κ × α)}, Sorted o l → l.Nodup := by
    intro l hl
    refine hl.imp ?_
    rintro x y hLt rfl
    rw [o.irrefl] at hLt
    cases hLt
  have hPerm : m.Perm m' := (List.perm_ext_iff_of_nodup (hNodup h) (hNodup h')).mpr hMem
  refine hPerm.eq_of_pairwise ?_ h h'
  intro x y _ _ hxy hyx
  rw [o.asymm _ _ hxy] at hyx
  cases hyx

end Sorted

-- ---------------------------------------------------------------------------
-- Unique keys
-- ---------------------------------------------------------------------------

section

variable [EquivBEq κ] {key key' : κ}

/-- The pair with a key, in a list whose keys are unique. -/
theorem UniqueKeys.eq_of_key (h : UniqueKeys m) (he : e ∈ m) (hx : x ∈ m)
    (hKey : (e.1 == x.1) = true) : e = x := by
  by_contra hne
  have hSymm : Std.Symm fun x y : κ × α => (x.1 == y.1) = false :=
    ⟨fun x y hxy => by rw [BEq.comm]; exact hxy⟩
  rw [h.forall he hx hne] at hKey
  cases hKey

/-- `find?` reads nothing but the elements, when the keys are unique. -/
theorem UniqueKeys.find_eq_some (h : UniqueKeys m) :
    m.find? (fun e => e.1 == key) = some e ↔ e ∈ m ∧ (e.1 == key) = true := by
  constructor
  · intro hFind
    exact ⟨List.mem_of_find?_eq_some hFind,
      List.find?_some (p := fun e : κ × α => e.1 == key) hFind⟩
  · rintro ⟨he, hKey⟩
    cases hFind : m.find? (fun e => e.1 == key) with
    | none => exact absurd hKey (List.find?_eq_none.mp hFind e he)
    | some x =>
      have hx : x ∈ m := List.mem_of_find?_eq_some hFind
      have hxKey : (x.1 == key) = true := List.find?_some (p := fun e : κ × α => e.1 == key) hFind
      rw [h.eq_of_key hx he (BEq.trans hxKey (BEq.symm hKey))]

/-- What is found under a key depends on the pairs only, not on their order. -/
theorem UniqueKeys.find_congr (h : UniqueKeys m) (h' : UniqueKeys m')
    (hMem : ∀ e, (e.1 == key) = true → (e ∈ m ↔ e ∈ m')) :
    m.find? (fun e => e.1 == key) = m'.find? (fun e => e.1 == key) := by
  refine Option.ext fun e => ?_
  rw [h.find_eq_some, h'.find_eq_some]
  exact and_congr_left fun hKey => hMem e hKey

end

-- ---------------------------------------------------------------------------
-- Ordered maps
-- ---------------------------------------------------------------------------

/-- The pairs of a map in the order of their keys. -/
structure OrderedMap (o : KeyOrder κ) (α : Type*) where
  entries : List (κ × α)
  sorted : Sorted o entries

namespace OrderedMap

variable {M M' : OrderedMap o α} {key key' : κ} {value : α}

/-- Two maps with the same pairs are one. -/
theorem ext (h : M.entries = M'.entries) : M = M' := by
  cases M
  cases M'
  cases h
  rfl

/-- The map without keys. -/
def empty (o : KeyOrder κ) (α : Type*) : OrderedMap o α :=
  ⟨[], Sorted.nil⟩

/-- The pair with a key. -/
def find (M : OrderedMap o α) (key : κ) : Option (κ × α) :=
  M.entries.find? fun e => e.1 == key

/-- The value under a key. -/
def lookup (M : OrderedMap o α) (key : κ) : Option α :=
  (M.find key).map Prod.snd

/-- The map without a key. -/
def erase (M : OrderedMap o α) (key : κ) : OrderedMap o α where
  entries := M.entries.filter fun e => !(e.1 == key)
  sorted := M.sorted.sublist (List.filter_sublist ..)

/-- A key that is there stays, and gets the value. -/
def assign (M : OrderedMap o α) (key : κ) (value : α) : OrderedMap o α where
  entries := insertNew o ((((M.find key).map Prod.fst).getD key), value) (M.erase key).entries
  sorted := (M.erase key).sorted.insertNew _

/-- The pairs of other keys are left. -/
theorem mem_erase : x ∈ (M.erase key).entries ↔ x ∈ M.entries ∧ (x.1 == key) = false := by
  show x ∈ M.entries.filter _ ↔ _
  rw [List.mem_filter, Bool.not_eq_true']

variable [EquivBEq κ]

/-- The key that is stored is equal to the one that is asked for. -/
theorem stored_beq : ((((M.find key).map Prod.fst).getD key) == key) = true := by
  cases hFind : M.find key with
  | none => exact BEq.rfl
  | some e => exact List.find?_some (p := fun e : κ × α => e.1 == key) hFind

/-- An assignment leaves the pairs of other keys; a key that is there stays as it is written
there. -/
theorem mem_assign : x ∈ (M.assign key value).entries ↔ (x ∈ M.entries ∧ (x.1 == key) = false) ∨
    x = (((M.find key).map Prod.fst).getD key, value) := by
  show x ∈ insertNew o _ (M.erase key).entries ↔ _
  rw [(M.erase key).sorted.mem_insertNew, mem_erase]
  refine or_congr_right ⟨fun hx => hx.1, fun hx => ⟨hx, ?_⟩⟩
  intro y hy
  cases hEq : y.1 == ((M.find key).map Prod.fst).getD key with
  | false => rfl
  | true =>
    have hKey := BEq.trans hEq stored_beq
    rw [(mem_erase.mp hy).2] at hKey
    cases hKey

/-- The map as a function: the assigned value at the key, and no change elsewhere. -/
theorem lookup_assign : (M.assign key value).lookup key' =
    if key == key' then some value else M.lookup key' := by
  have hUnique := (M.assign key value).sorted.uniqueKeys
  by_cases hKey : (key == key') = true
  · rw [if_pos hKey]
    have hFind : (M.assign key value).find key' =
        some (((M.find key).map Prod.fst).getD key, value) :=
      hUnique.find_eq_some.mpr ⟨mem_assign.mpr (Or.inr rfl), BEq.trans stored_beq hKey⟩
    rw [lookup, hFind]
    rfl
  · rw [if_neg hKey, lookup, lookup]
    congr 1
    refine hUnique.find_congr M.sorted.uniqueKeys ?_
    intro e he
    rw [mem_assign]
    constructor
    · rintro (⟨hMem, -⟩ | rfl)
      · exact hMem
      · exact absurd (BEq.trans (BEq.symm stored_beq) he) hKey
    · intro hMem
      refine Or.inl ⟨hMem, ?_⟩
      cases hEq : e.1 == key with
      | false => rfl
      | true => exact absurd (BEq.trans (BEq.symm hEq) he) hKey

/-- Nothing is found under an erased key. -/
theorem lookup_erase : (M.erase key).lookup key' =
    if key == key' then none else M.lookup key' := by
  by_cases hKey : (key == key') = true
  · rw [if_pos hKey, lookup, find, Option.map_eq_none_iff, List.find?_eq_none]
    intro e he hEq
    have hMem := (mem_erase.mp he).2
    rw [BEq.trans hEq (BEq.symm hKey)] at hMem
    cases hMem
  · rw [if_neg hKey, lookup, lookup]
    congr 1
    refine (M.erase key).sorted.uniqueKeys.find_congr M.sorted.uniqueKeys ?_
    intro e he
    rw [mem_erase]
    refine ⟨fun hMem => hMem.1, fun hMem => ⟨hMem, ?_⟩⟩
    cases hEq : e.1 == key with
    | false => rfl
    | true => exact absurd (BEq.trans (BEq.symm hEq) he) hKey

end OrderedMap

end EmbLinux
