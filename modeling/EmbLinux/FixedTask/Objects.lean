import EmbLinux.FixedTask.Model
import EmbLinux.Lib.Exclusive
import Mathlib.Data.List.Nodup

/-!
# EmbLinux — the objects in the storage of the tasks

What placement `new`, `move_to` and the destructor call keep by themselves, each in
storage where nothing lives or on an object that lives: an object lives in one place, a
callable is in one object, and what does not live any more was destroyed once.
-/

namespace EmbLinux.FixedTask

variable {τ κ : Type*} [DecidableEq τ] {s s' : State τ κ} {t u p : τ} {n : Nat}

/-- The objects that live are in the storage of one task each, and each of the others was
destroyed once. -/
structure Objects (s : State τ κ) : Prop where
  fault : s.fault = false
  /-- An object lives in one storage, -/
  exclusive : Exclusive s.objectAt
  /-- and every object that lives is in one. -/
  located : ∀ n, s.live n = true → ∃ t, s.objectAt t = some n
  built : ∀ t n, s.storage t = some n → n < s.objects
  /-- A callable is in one object. -/
  func : Exclusive s.func
  numbered : ∀ n c, s.func n = some c → c.1 < s.callables
  /-- What was built and does not live was destroyed, -/
  ended : ∀ n, n ∈ s.destroyed ↔ n < s.objects ∧ s.live n = false
  /-- once. -/
  nodup : s.destroyed.Nodup

section

omit [DecidableEq τ]

/-- The living object in a storage. -/
theorem objectAt_eq_some : s.objectAt t = some n ↔ s.storage t = some n ∧ s.live n = true :=
  Option.filter_eq_some_iff

/-- It has been built. -/
theorem Objects.lt_objects (h : Objects s) (hAt : s.objectAt t = some n) : n < s.objects :=
  h.built t n (objectAt_eq_some.mp hAt).1

/-- Nothing has been built. -/
theorem objects_init : Objects (⟨fun _ => false, fun _ => none, fun _ => none, 0, fun _ => false,
    fun _ => none, 0, [], [], false⟩ : State τ κ) := by
  refine ⟨rfl, Exclusive.empty, ?_, ?_, Exclusive.empty, ?_, ?_, List.nodup_nil⟩
  · intro n hLive
    exact absurd hLive (by simp)
  · intro t n hStorage
    exact absurd hStorage (by simp)
  · intro n c hFunc
    exact absurd hFunc (by simp)
  · intro n
    simp

end

-- ---------------------------------------------------------------------------
-- Placement `new`
-- ---------------------------------------------------------------------------

/-- A new object is where it was built. -/
theorem Objects.objectAt_build (h : Objects s) (dest : τ) (func : Option (Callable κ)) :
    (s.build dest func).objectAt = Function.update s.objectAt dest (some s.objects) := by
  funext u
  ext m
  rw [objectAt_eq_some]
  rcases update_at s.objectAt dest (some s.objects) u with ⟨rfl, hHere⟩ | ⟨hne, hOther⟩
  · rw [hHere]
    simp only [State.build, Function.update_self, Option.some.injEq]
    constructor
    · rintro ⟨hm, -⟩
      exact hm
    · rintro rfl
      exact ⟨rfl, Function.update_self ..⟩
  · rw [hOther, objectAt_eq_some]
    simp only [State.build, Function.update_of_ne hne]
    refine and_congr_right fun hStorage => ?_
    rw [Function.update_of_ne (Nat.ne_of_lt (h.built u m hStorage))]

/-- An object is built where none lives, from a callable that no object has. -/
theorem Objects.build (h : Objects s) {dest : τ} (hEmpty : s.objectAt dest = none)
    {func : Option (Callable κ)} (hNew : ∀ c, func = some c → ∀ m, s.func m ≠ some c)
    (hNumber : ∀ c, func = some c → c.1 < s.callables) : Objects (s.build dest func) := by
  have hAt := h.objectAt_build dest func
  refine ⟨h.fault, ?_, ?_, ?_, ?_, ?_, ?_, h.nodup⟩
  · rw [hAt]
    exact h.exclusive.put fun u hu => Nat.lt_irrefl _ (h.lt_objects hu)
  · intro m hLive
    rw [hAt]
    rcases update_cases (g := (s.build dest func).live) rfl m with ⟨rfl, -⟩ | ⟨-, hOther⟩
    · exact ⟨dest, Function.update_self ..⟩
    · obtain ⟨u, hu⟩ := h.located m (by rwa [hOther] at hLive)
      refine ⟨u, ?_⟩
      rw [Function.update_of_ne, hu]
      rintro rfl
      rw [hEmpty] at hu
      cases hu
  · intro u m hStorage
    have hOld : s.storage u = some m ∨ m = s.objects := by
      rcases update_cases (g := (s.build dest func).storage) rfl u with ⟨-, hHere⟩ | ⟨-, hOther⟩
      · rw [hHere, Option.some.injEq] at hStorage
        exact Or.inr hStorage.symm
      · rw [hOther] at hStorage
        exact Or.inl hStorage
    show m < s.objects + 1
    rcases hOld with hOld | rfl
    · have hLess := h.built u m hOld
      omega
    · exact Nat.lt_succ_self _
  · cases func with
    | none => exact h.func.drop
    | some c => exact h.func.put (hNew c rfl)
  · intro m c hFunc
    rcases update_cases (g := (s.build dest func).func) rfl m with ⟨-, hHere⟩ | ⟨-, hOther⟩
    · rw [hHere] at hFunc
      exact hNumber c hFunc
    · rw [hOther] at hFunc
      exact h.numbered m c hFunc
  · intro m
    show m ∈ s.destroyed ↔ m < s.objects + 1 ∧ Function.update s.live s.objects true m = false
    rw [h.ended]
    rcases update_at s.live s.objects true m with ⟨rfl, hHere⟩ | ⟨hne, hOther⟩
    · rw [hHere]
      simp
    · rw [hOther]
      exact and_congr_left fun _ => by omega

-- ---------------------------------------------------------------------------
-- `move_to` and the destructor
-- ---------------------------------------------------------------------------

/-- `move_to` moves the callable into a new object; the old one stays, without it. -/
theorem moveTo_eq (hAt : s.objectAt p = some n) (dest : τ) :
    s.moveTo p dest =
      { s with func := Function.update s.func n none }.build dest (s.func n) := by
  rw [State.moveTo, hAt]

omit [DecidableEq τ] in
/-- `destroy` ends the life of an object. -/
theorem destruct_eq (hAt : s.objectAt p = some n) :
    s.destruct p =
      { s with live := Function.update s.live n false, destroyed := s.destroyed ++ [n] } := by
  rw [State.destruct, hAt]

omit [DecidableEq τ] in
/-- An object whose callable is gone is still an object. -/
theorem Objects.moveOut (h : Objects s) (n : Nat) :
    Objects { s with func := Function.update s.func n none } := by
  refine ⟨h.fault, h.exclusive, h.located, h.built, h.func.drop, ?_, h.ended, h.nodup⟩
  intro m c hFunc
  change Function.update s.func n none m = some c at hFunc
  rcases update_at s.func n none m with ⟨-, hHere⟩ | ⟨-, hOther⟩
  · rw [hHere] at hFunc
    cases hFunc
  · rw [hOther] at hFunc
    exact h.numbered m c hFunc

/-- A callable moves into an object in storage where none lives. -/
theorem Objects.moveTo (h : Objects s) (dest : τ) (hAt : s.objectAt p = some n)
    (hEmpty : s.objectAt dest = none) : Objects (s.moveTo p dest) := by
  rw [moveTo_eq hAt]
  exact (h.moveOut n).build hEmpty (fun c hFunc => h.func.not_held hFunc)
    fun c hFunc => h.numbered n c hFunc

/-- The storage of a destroyed object is empty. -/
theorem Objects.objectAt_destruct (h : Objects s) (hAt : s.objectAt p = some n) :
    (s.destruct p).objectAt = Function.update s.objectAt p none := by
  rw [destruct_eq hAt]
  funext u
  ext m
  rw [objectAt_eq_some]
  show s.storage u = some m ∧ Function.update s.live n false m = true ↔ _
  rcases update_at s.live n false m with ⟨rfl, hHere⟩ | ⟨hmn, hOther⟩
  · rw [hHere]
    simp only [Bool.false_eq_true, and_false, false_iff]
    intro hu
    exact h.exclusive.not_held hAt u hu
  · rw [hOther]
    rcases update_at s.objectAt p none u with ⟨rfl, hNone⟩ | ⟨-, hSame⟩
    · rw [hNone, ← objectAt_eq_some, hAt]
      simp [Ne.symm hmn]
    · rw [hSame, objectAt_eq_some]

/-- An object that lives is destroyed. -/
theorem Objects.destruct (h : Objects s) (hAt : s.objectAt p = some n) :
    Objects (s.destruct p) := by
  have hLive := (objectAt_eq_some.mp hAt).2
  have hAt' := h.objectAt_destruct hAt
  refine ⟨?_, ?_, ?_, ?_, ?_, ?_, ?_, ?_⟩
  · rw [destruct_eq hAt]
    exact h.fault
  · rw [hAt']
    exact h.exclusive.drop
  · intro m hm
    rw [destruct_eq hAt] at hm
    change Function.update s.live n false m = true at hm
    rcases update_at s.live n false m with ⟨-, hHere⟩ | ⟨hmn, hOther⟩
    · rw [hHere] at hm
      cases hm
    · rw [hOther] at hm
      obtain ⟨u, hu⟩ := h.located m hm
      refine ⟨u, ?_⟩
      rw [hAt', Function.update_of_ne, hu]
      rintro rfl
      exact hmn (Option.some.inj (hu.symm.trans hAt))
  · rw [destruct_eq hAt]
    exact h.built
  · rw [destruct_eq hAt]
    exact h.func
  · rw [destruct_eq hAt]
    exact h.numbered
  · intro m
    rw [destruct_eq hAt]
    show m ∈ s.destroyed ++ [n] ↔ m < s.objects ∧ Function.update s.live n false m = false
    rw [List.mem_append, List.mem_singleton, h.ended]
    rcases update_at s.live n false m with ⟨rfl, hHere⟩ | ⟨hmn, hOther⟩
    · rw [hHere]
      simp [h.lt_objects hAt]
    · rw [hOther]
      simp [hmn]
  · rw [destruct_eq hAt]
    refine List.nodup_append.mpr ⟨h.nodup, List.nodup_singleton n, ?_⟩
    intro m hm m' hm' hEq
    rw [List.mem_singleton] at hm'
    have hDead := ((h.ended m).mp hm).2
    rw [hEq, hm', hLive] at hDead
    cases hDead

-- ---------------------------------------------------------------------------
-- `m_concept` and the lifetime of the tasks
-- ---------------------------------------------------------------------------

theorem Objects.setConcept (h : Objects s) (t : τ) (p : Option τ) : Objects (s.setConcept t p) :=
  ⟨h.fault, h.exclusive, h.located, h.built, h.func, h.numbered, h.ended, h.nodup⟩

omit [DecidableEq τ] in
theorem Objects.setAlive (h : Objects s) (alive : τ → Bool) :
    Objects { s with alive := alive } :=
  ⟨h.fault, h.exclusive, h.located, h.built, h.func, h.numbered, h.ended, h.nodup⟩

end EmbLinux.FixedTask
