import EmbLinux.Lib.Update

/-!
# EmbLinux — the threads inside a critical section

A mutex is the thread that has it locked. `Guards m inside` says that this is the one
thread that stands inside the critical section; it is kept by every step that moves a
thread in only with the mutex free and that frees it when the thread moves out.

* `move` — the invariant of a mutex, for a step that says by `LockMove` what it does to it.
* `Held.move` — the same for a spinlock, which does not say who has it.
-/

namespace EmbLinux

variable {τ : Type*} [DecidableEq τ] {m m' : Option τ} {inside : τ → Bool} {t u : τ} {b : Bool}

/-- The thread that has `m` locked is the one inside. -/
def Guards (m : Option τ) (inside : τ → Bool) : Prop :=
  ∀ t, m = some t ↔ inside t = true

/-- What a step of thread `t` does with the mutex: `b` and `b'` say whether it was
inside, and whether it is. -/
inductive LockMove (t : τ) : Option τ → Option τ → Bool → Bool → Prop
  | keep {m : Option τ} {b : Bool} : LockMove t m m b b
  | lock {b : Bool} : LockMove t none (some t) b true
  | unlock {m : Option τ} : LockMove t m none true false

namespace Guards

section

omit [DecidableEq τ]

/-- One thread at most is inside. -/
theorem unique (h : Guards m inside) (ht : inside t = true) (hu : inside u = true) : t = u := by
  have hLocked := (h t).mpr ht
  rw [(h u).mpr hu] at hLocked
  exact (Option.some.inj hLocked).symm

/-- While one thread is inside no other one is. -/
theorem not_inside (h : Guards m inside) (ht : inside t = true) (hut : u ≠ t) :
    inside u = false := by
  cases hu : inside u with
  | false => rfl
  | true => exact absurd (h.unique hu ht) hut

/-- Nobody is inside while the mutex is free. -/
theorem outside (h : Guards none inside) (t : τ) : inside t = false := by
  cases ht : inside t with
  | false => rfl
  | true => cases (h t).mpr ht

end

/-- Locking and unlocking keep this. -/
theorem move (h : Guards m inside) (hMove : LockMove t m m' (inside t) b) :
    Guards m' (Function.update inside t b) := by
  intro u
  generalize hOld : inside t = b₀ at hMove
  cases hMove with
  | keep =>
    rw [← hOld, Function.update_eq_self]
    exact h u
  | lock =>
    rcases update_at inside t true u with ⟨rfl, hAt⟩ | ⟨hut, hAt⟩ <;> rw [hAt]
    · exact ⟨fun _ => rfl, fun _ => rfl⟩
    · rw [h.outside u]
      simpa using Ne.symm hut
  | unlock =>
    rcases update_at inside t false u with ⟨rfl, hAt⟩ | ⟨hut, hAt⟩ <;> rw [hAt]
    · simp
    · rw [h.not_inside hOld hut]
      simp

/-- The same where the threads inside are read off a program point. -/
theorem move_part {β : Type*} {p : β → Bool} {f g : τ → β} {c : β}
    (h : Guards m fun u => p (f u)) (hMoved : g = Function.update f t c)
    (hMove : LockMove t m m' (p (f t)) (p c)) : Guards m' fun u => p (g u) := by
  rw [hMoved, part_update]
  exact h.move hMove

end Guards

-- ---------------------------------------------------------------------------
-- A lock that is a flag
-- ---------------------------------------------------------------------------

section Flag

variable {flag flag' : Bool} {holds : τ → Bool}

/-- The flag is set while a thread is inside, and one thread at most is. -/
def Held (flag : Bool) (holds : τ → Bool) : Prop :=
  ∃ owner, Guards owner holds ∧ flag = owner.isSome

/-- What a step does with the flag: `b` and `b'` say whether its thread was inside, and
whether it is. -/
inductive FlagMove : Bool → Bool → Bool → Bool → Prop
  | keep {flag b : Bool} : FlagMove flag flag b b
  | set {b : Bool} : FlagMove false true b true
  | clear {flag : Bool} : FlagMove flag false true false

/-- The same for a flag that does not say who holds it. -/
theorem Held.move {β : Type*} {part : β → Bool} {f g : τ → β} {c : β}
    (h : Held flag fun u => part (f u)) (hMoved : g = Function.update f t c)
    (hMove : FlagMove flag flag' (part (f t)) (part c)) : Held flag' fun u => part (g u) := by
  obtain ⟨owner, hGuards, hFlag⟩ := h
  generalize hOld : part (f t) = b at hMove
  generalize hNew : part c = b' at hMove
  cases hMove with
  | keep =>
    refine ⟨owner, hGuards.move_part hMoved ?_, hFlag⟩
    rw [hOld, hNew]
    exact .keep
  | set =>
    obtain rfl : owner = none := by
      cases owner with
      | none => rfl
      | some _ => cases hFlag
    refine ⟨some t, hGuards.move_part hMoved ?_, rfl⟩
    rw [hNew]
    exact .lock
  | clear =>
    refine ⟨none, hGuards.move_part hMoved ?_, rfl⟩
    rw [hOld, hNew]
    exact .unlock

end Flag

-- ---------------------------------------------------------------------------
-- A family of mutexes
-- ---------------------------------------------------------------------------

section Family

variable {ι : Type*} [DecidableEq ι] {locks : ι → Option τ} {before after : ι → Bool} {q : ι}

omit [DecidableEq τ] in
/-- One of the mutexes is locked. -/
theorem LockMove.lock_at (hFree : locks q = none) (hIn : after q = true)
    (hOther : ∀ p, p ≠ q → after p = before p) (p : ι) :
    LockMove t (locks p) (Function.update locks q (some t) p) (before p) (after p) := by
  rcases update_at locks q (some t) p with ⟨rfl, hAt⟩ | ⟨hpq, hAt⟩ <;> rw [hAt]
  · rw [hFree, hIn]
    exact .lock
  · rw [hOther p hpq]
    exact .keep

omit [DecidableEq τ] in
/-- One of the mutexes is unlocked. -/
theorem LockMove.unlock_at (hIn : before q = true) (hOut : after q = false)
    (hOther : ∀ p, p ≠ q → after p = before p) (p : ι) :
    LockMove t (locks p) (Function.update locks q none p) (before p) (after p) := by
  rcases update_at locks q none p with ⟨rfl, hAt⟩ | ⟨hpq, hAt⟩ <;> rw [hAt]
  · rw [hIn, hOut]
    exact .unlock
  · rw [hOther p hpq]
    exact .keep

end Family

end EmbLinux
