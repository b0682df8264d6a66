import Mathlib.Data.List.Induction

/-!
# EmbLinux — finite maps with keys up to `==`

The specification that the hash maps of the repository are compared with: one
map with finitely many keys, where keys that are `==` count as one key, and the
sequential meaning of a list of operations on it.

* `FiniteMap` carries that `==` keys have one value, and that only finitely many
  keys have one.
* `run` executes operations one after the other and collects their answers.
* `lookup_run` reads the map after a run off the operations: the value of a key
  is the one inserted last and not removed since (`written`).
-/

namespace EmbLinux

/-- A map with finitely many keys. -/
structure FiniteMap (κ α : Type*) [BEq κ] where
  lookup : κ → Option α
  respects : ∀ k k', (k == k') = true → lookup k = lookup k'
  finite : ∃ keys : List κ, ∀ k, lookup k ≠ none → ∃ k' ∈ keys, (k' == k) = true

namespace FiniteMap

variable {κ α : Type*} [BEq κ]

/-- The operations of a map. -/
inductive Op (κ α : Type*)
  | insert (key : κ) (value : α)
  | get (key : κ)
  | remove (key : κ)

/-- What an operation answers: only `get` returns something. -/
inductive Answer (α : Type*)
  | done
  | found (value : Option α)
  deriving DecidableEq

/-- The map without keys. -/
def empty : FiniteMap κ α where
  lookup := fun _ => none
  respects := fun _ _ _ => rfl
  finite := ⟨[], fun _ h => absurd rfl h⟩

variable [EquivBEq κ]

/-- An equal key answers the same tests. -/
theorem beq_congr {k k' : κ} (h : (k == k') = true) (j : κ) : (j == k) = (j == k') := by
  rw [Bool.eq_iff_iff]
  exact ⟨fun hk => BEq.trans hk h, fun hk' => BEq.trans hk' (BEq.symm h)⟩

/-- Equal keys are equal to the same keys. -/
theorem beq_congr_left {k k' : κ} (h : (k == k') = true) (j : κ) : (k == j) = (k' == j) := by
  rw [Bool.eq_iff_iff]
  exact ⟨fun hk => BEq.trans (BEq.symm h) hk, fun hk' => BEq.trans h hk'⟩

/-- `insert` overwrites the value of the key or adds it. -/
def insert (m : FiniteMap κ α) (key : κ) (value : α) : FiniteMap κ α where
  lookup := fun k => if key == k then some value else m.lookup k
  respects := by
    intro k k' h
    rw [beq_congr h key, m.respects k k' h]
  finite := by
    obtain ⟨keys, hKeys⟩ := m.finite
    refine ⟨key :: keys, ?_⟩
    intro k hk
    by_cases hHere : (key == k) = true
    · exact ⟨key, List.mem_cons_self, hHere⟩
    · rw [if_neg hHere] at hk
      obtain ⟨k', hMem, hEq⟩ := hKeys k hk
      exact ⟨k', List.mem_cons_of_mem _ hMem, hEq⟩

/-- `remove` leaves every other key untouched. -/
def remove (m : FiniteMap κ α) (key : κ) : FiniteMap κ α where
  lookup := fun k => if key == k then none else m.lookup k
  respects := by
    intro k k' h
    rw [beq_congr h key, m.respects k k' h]
  finite := by
    obtain ⟨keys, hKeys⟩ := m.finite
    refine ⟨keys, ?_⟩
    intro k hk
    by_cases hHere : (key == k) = true
    · rw [if_pos hHere] at hk
      exact absurd rfl hk
    · rw [if_neg hHere] at hk
      exact hKeys k hk

/-- What an operation answers and does. -/
def apply (m : FiniteMap κ α) : Op κ α → Answer α × FiniteMap κ α
  | .insert key value => (.done, m.insert key value)
  | .get key => (.found (m.lookup key), m)
  | .remove key => (.done, m.remove key)

/-- The answers of a list of operations, and the map after them. -/
def run (m : FiniteMap κ α) : List (Op κ α) → List (Answer α) × FiniteMap κ α
  | [] => ([], m)
  | op :: ops => ((m.apply op).1 :: ((m.apply op).2.run ops).1, ((m.apply op).2.run ops).2)

/-- A sequence of operations can be cut anywhere. -/
theorem run_append (m : FiniteMap κ α) (ops ops' : List (Op κ α)) :
    m.run (ops ++ ops') =
      ((m.run ops).1 ++ ((m.run ops).2.run ops').1, ((m.run ops).2.run ops').2) := by
  induction ops generalizing m with
  | nil => rfl
  | cons op rest ih => simp only [List.cons_append, run, ih]

/-- A run has an answer for each of its operations. -/
theorem length_run (m : FiniteMap κ α) (ops : List (Op κ α)) :
    (m.run ops).1.length = ops.length := by
  induction ops generalizing m with
  | nil => rfl
  | cons op rest ih => simp only [run, List.length_cons, ih]

/-- One operation seen from a key: the value that it leaves there. -/
def Op.effect (key : κ) (old : Option α) : Op κ α → Option α
  | .insert k value => if k == key then some value else old
  | .get _ => old
  | .remove k => if k == key then none else old

/-- The value of a key that was inserted last and not removed since. -/
def written (key : κ) (ops : List (Op κ α)) : Option α :=
  ops.foldl (fun old op => op.effect key old) none

/-- An operation changes the key as its `effect` says, -/
theorem lookup_apply (m : FiniteMap κ α) (op : Op κ α) (key : κ) :
    (m.apply op).2.lookup key = op.effect key (m.lookup key) := by
  cases op <;> rfl

/-- so a key has what was last written to it. -/
theorem lookup_run (ops : List (Op κ α)) (key : κ) :
    ((empty : FiniteMap κ α).run ops).2.lookup key = written key ops := by
  induction ops using List.reverseRecOn with
  | nil => rfl
  | append_singleton ops op ih =>
    rw [run_append]
    show ((empty.run ops).2.apply op).2.lookup key = _
    rw [lookup_apply, ih, written, written, List.foldl_append]
    rfl

/-- The answer of a `get` in the middle of a run. -/
theorem get_of_run {before after : List (Op κ α)} {key : κ} {answers rest : List (Answer α)}
    {answer : Answer α} (hLen : answers.length = before.length)
    (h : ((empty : FiniteMap κ α).run (before ++ .get key :: after)).1 =
      answers ++ answer :: rest) :
    answer = .found (written key before) := by
  rw [run_append] at h
  have hSplit := (List.append_inj h (by rw [length_run, hLen])).2
  have hHead : Answer.found ((empty.run before).2.lookup key) = answer := (List.cons.inj hSplit).1
  rw [← hHead, lookup_run]

end FiniteMap

end EmbLinux
