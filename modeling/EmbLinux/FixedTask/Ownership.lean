import EmbLinux.FixedTask.Objects
import Mathlib.Data.List.Perm.Basic

/-!
# EmbLinux — the owner of a callable

A callable that is handed to a `FixedTask` is with one task at a time, and what is built in
the storage of the tasks is destroyed once.

* `Owners` — the tasks as a program sees them, and what each operation means for them;
* `Inv` — `m_concept` is set exactly where an object lives in the storage of the task;
* `task_ownership` — the operations do what they mean, nothing is used after it was
  destroyed, and nothing is left behind.

What is assumed of a callable is that it can be moved. The object that it was moved from lives
on without it until it is destroyed, so objects are counted apart from callables.
-/

namespace EmbLinux.FixedTask

variable {τ κ : Type*} [DecidableEq τ] {s s' : State τ κ} {a : Action τ κ} {t u other : τ}
  {n : Nat}

-- ---------------------------------------------------------------------------
-- Tasks and what they hold
-- ---------------------------------------------------------------------------

/-- For each task that exists, its callable if it has one. -/
abbrev Owners (τ κ : Type*) := τ → Option (Option (Callable κ))

/-- What an operation means. The `FixedTask` that a callable moves out of is empty. -/
def Owners.apply (v : Owners τ κ) (callables : Nat) : Action τ κ → Owners τ κ
  | .construct t f => Function.update v t (some (some (callables, f)))
  | .default t => Function.update v t (some none)
  | .moveConstruct t other =>
    Function.update (Function.update v t (v other)) other (some none)
  | .moveAssign t other =>
    if t = other then v
    else Function.update (Function.update v t (v other)) other (some none)
  | .invoke _ => v
  | .destroy t => Function.update v t none

/-- The callable in the object that lives in the storage of a task. -/
def State.held (s : State τ κ) (t : τ) : Option (Callable κ) :=
  (s.objectAt t).bind s.func

/-- Which task has which callable, of the tasks that live. -/
def State.owners (s : State τ κ) : Owners τ κ :=
  fun t => if s.alive t then some (s.held t) else none

/-- The callable that an operation runs. -/
def State.runs (s : State τ κ) : Action τ κ → Option (Callable κ)
  | .invoke t => s.held t
  | _ => none

/-- The ownership of the callables, in a state and over the next operation. -/
structure Contract (s : State τ κ) : Prop where
  unique : Exclusive s.held
  operatorBool : ∀ t, s.alive t = true → s.operatorBool t = (s.held t).isSome
  ended : ∀ t, s.alive t = false → s.objectAt t = none
  noFault : s.fault = false
  once : s.destroyed.Nodup ∧ ∀ n ∈ s.destroyed, n < s.objects
  atEnd : (∀ t, s.alive t = false) → s.destroyed.Perm (List.range s.objects)
  follows : ∀ a s', step s a = some s' →
    s'.owners = s.owners.apply s.callables a ∧ s'.invoked = s.invoked ++ (s.runs a).toList

-- ---------------------------------------------------------------------------
-- The invariant
-- ---------------------------------------------------------------------------

/-- A task that lives points to the object in its own storage, if there is one, and this object
has a callable. -/
structure Inv (s : State τ κ) : Prop where
  objects : Objects s
  /-- `m_concept` points to the task's own storage, exactly if an object lives there. -/
  concept : ∀ t, s.alive t = true → s.concept t = (s.objectAt t).map fun _ => t
  /-- An object lives in the storage of a task that lives, -/
  owner : ∀ t n, s.objectAt t = some n → s.alive t = true
  /-- and has its callable. -/
  content : ∀ t n, s.objectAt t = some n → ∃ c, s.func n = some c

section

omit [DecidableEq τ]

/-- A task has the callable of its object, -/
theorem held_of_objectAt (h : s.objectAt t = some n) : s.held t = s.func n := by
  rw [State.held, h, Option.bind_some]

/-- and none without an object. -/
theorem held_of_empty (h : s.objectAt t = none) : s.held t = none := by
  rw [State.held, h, Option.bind_none]

/-- A storage whose task is gone is empty. -/
theorem Inv.empty_of_dead (h : Inv s) (ht : s.alive t = false) : s.objectAt t = none := by
  by_contra hSome
  obtain ⟨n, hn⟩ := Option.ne_none_iff_exists'.mp hSome
  rw [h.owner t n hn] at ht
  cases ht

/-- What `m_concept` says about the storage. -/
theorem Inv.concept_cases (h : Inv s) (ht : s.alive t = true) :
    (s.concept t = none ∧ s.objectAt t = none) ∨
      ∃ n, s.concept t = some t ∧ s.objectAt t = some n := by
  have hConcept := h.concept t ht
  cases hAt : s.objectAt t with
  | none =>
    rw [hAt] at hConcept
    exact Or.inl ⟨hConcept, rfl⟩
  | some n =>
    rw [hAt] at hConcept
    exact Or.inr ⟨n, hConcept, rfl⟩

/-- A task has a callable exactly if it has an object. -/
theorem Inv.isSome_held (h : Inv s) (t : τ) : (s.held t).isSome = (s.objectAt t).isSome := by
  cases hAt : s.objectAt t with
  | none =>
    rw [held_of_empty hAt]
    rfl
  | some n =>
    obtain ⟨c, hc⟩ := h.content t n hAt
    rw [held_of_objectAt hAt, hc]
    rfl

end

theorem inv_init : Inv (system τ κ).init := by
  refine ⟨objects_init, ?_, ?_, ?_⟩
  · intro t ht
    exact absurd ht (by simp [system])
  · intro t n hAt
    exact absurd hAt (by simp [system, State.objectAt])
  · intro t n hAt
    exact absurd hAt (by simp [system, State.objectAt])

-- ---------------------------------------------------------------------------
-- The special members
-- ---------------------------------------------------------------------------

/-- A task that is new is empty. -/
theorem Inv.enter (h : Inv s) (ht : s.alive t = false) :
    Inv (s.enter t) ∧ (s.enter t).owners = Function.update s.owners t (some none) := by
  have hEmpty := h.empty_of_dead ht
  refine ⟨⟨(h.objects.setAlive _).setConcept t none, ?_, ?_, h.content⟩, ?_⟩
  · intro u hu
    show Function.update s.concept t none u = (s.objectAt u).map _
    rcases update_at s.concept t none u with ⟨rfl, hHere⟩ | ⟨hne, hOther⟩
    · rw [hHere, hEmpty]
      rfl
    · rw [hOther]
      refine h.concept u ?_
      change Function.update s.alive t true u = true at hu
      rwa [Function.update_of_ne hne] at hu
  · intro u n hAt
    show Function.update s.alive t true u = true
    rcases update_at s.alive t true u with ⟨-, hHere⟩ | ⟨-, hOther⟩
    · exact hHere
    · rw [hOther]
      exact h.owner u n hAt
  · funext u
    show (if Function.update s.alive t true u then some (s.held u) else none) = _
    rcases update_at s.alive t true u with ⟨rfl, hHere⟩ | ⟨hne, hOther⟩
    · rw [hHere, Function.update_self, held_of_empty hEmpty]
      rfl
    · rw [hOther, Function.update_of_ne hne]
      rfl

/-- The object in the storage of `t` goes, and `t` is empty or gone. -/
theorem Inv.drop (h : Inv s) (hAt : s.objectAt t = some n) (alive : τ → Bool)
    (concept : τ → Option τ) (hAlive : ∀ u, u ≠ t → alive u = s.alive u)
    (hConcept : ∀ u, u ≠ t → concept u = s.concept u)
    (hHere : alive t = true → concept t = none) :
    Inv { s.destruct t with alive := alive, concept := concept } ∧
      State.owners { s.destruct t with alive := alive, concept := concept } =
        Function.update s.owners t (if alive t then some none else none) := by
  have hObjects := h.objects.destruct hAt
  have hAt' := h.objects.objectAt_destruct hAt
  have hFunc : (s.destruct t).func = s.func := by rw [destruct_eq hAt]
  refine ⟨⟨⟨hObjects.fault, hObjects.exclusive, hObjects.located, hObjects.built, hObjects.func,
    hObjects.numbered, hObjects.ended, hObjects.nodup⟩, ?_, ?_, ?_⟩, ?_⟩
  · intro u hu
    show concept u = ((s.destruct t).objectAt u).map _
    rcases update_cases hAt' u with ⟨rfl, hNone⟩ | ⟨hne, hSame⟩
    · rw [hNone]
      exact hHere hu
    · rw [hSame, hConcept u hne]
      refine h.concept u ?_
      rwa [← hAlive u hne]
  · intro u m hu
    change (s.destruct t).objectAt u = some m at hu
    show alive u = true
    rcases update_cases hAt' u with ⟨-, hNone⟩ | ⟨hne, hSame⟩
    · rw [hNone] at hu
      cases hu
    · rw [hAlive u hne]
      exact h.owner u m (hSame ▸ hu)
  · intro u m hu
    change (s.destruct t).objectAt u = some m at hu
    show ∃ c, (s.destruct t).func m = some c
    rw [hFunc]
    rcases update_cases hAt' u with ⟨-, hNone⟩ | ⟨-, hSame⟩
    · rw [hNone] at hu
      cases hu
    · exact h.content u m (hSame ▸ hu)
  · funext u
    show (if alive u then some (((s.destruct t).objectAt u).bind (s.destruct t).func) else none) = _
    rw [hFunc]
    rcases update_cases hAt' u with ⟨rfl, hNone⟩ | ⟨hne, hSame⟩
    · rw [hNone, Function.update_self]
      rfl
    · rw [hSame, hAlive u hne, Function.update_of_ne hne]
      rfl

/-- The first part of the move assignment leaves `t` empty. -/
theorem Inv.reset (h : Inv s) (ht : s.alive t = true) :
    Inv (s.reset t) ∧ (s.reset t).owners = Function.update s.owners t (some none) ∧
      (s.reset t).concept t = none ∧ (s.reset t).alive = s.alive := by
  rcases h.concept_cases ht with ⟨hConcept, hEmpty⟩ | ⟨n, hConcept, hAt⟩
  · have hReset : s.reset t = s := by rw [State.reset, hConcept]
    rw [hReset]
    refine ⟨h, ?_, hConcept, rfl⟩
    have hHere : s.owners t = some none := by
      rw [State.owners, ht, held_of_empty hEmpty]
      rfl
    rw [← hHere, Function.update_eq_self]
  · have hReset : s.reset t =
        { s.destruct t with alive := s.alive, concept := Function.update s.concept t none } := by
      rw [State.reset, hConcept]
      show (s.destruct t).setConcept t none = _
      rw [destruct_eq hAt]
      rfl
    rw [hReset]
    obtain ⟨hInv, hOwners⟩ := h.drop hAt s.alive (Function.update s.concept t none)
      (fun u _ => rfl) (fun u hu => Function.update_of_ne hu _ _)
      (fun _ => Function.update_self ..)
    rw [ht] at hOwners
    exact ⟨hInv, hOwners, Function.update_self .., rfl⟩

/-- The destructor of a task drops its callable. -/
theorem Inv.destroy (h : Inv s) (ht : s.alive t = true) :
    Inv (s.destroy t) ∧ (s.destroy t).owners = Function.update s.owners t none := by
  rcases h.concept_cases ht with ⟨hConcept, hEmpty⟩ | ⟨n, hConcept, hAt⟩
  · have hDestroy : s.destroy t = { s with alive := Function.update s.alive t false } := by
      rw [State.destroy, hConcept]
    rw [hDestroy]
    refine ⟨⟨h.objects.setAlive _, ?_, ?_, h.content⟩, ?_⟩
    · intro u hu
      change Function.update s.alive t false u = true at hu
      rcases update_at s.alive t false u with ⟨-, hHere⟩ | ⟨-, hOther⟩
      · rw [hHere] at hu
        cases hu
      · exact h.concept u (hOther ▸ hu)
    · intro u n hAt
      show Function.update s.alive t false u = true
      rw [Function.update_of_ne]
      · exact h.owner u n hAt
      · rintro rfl
        change s.objectAt u = some n at hAt
        rw [hEmpty] at hAt
        cases hAt
    · funext u
      show (if Function.update s.alive t false u then some (s.held u) else none) = _
      rcases update_at s.alive t false u with ⟨rfl, hHere⟩ | ⟨hne, hOther⟩
      · rw [hHere, Function.update_self]
        rfl
      · rw [hOther, Function.update_of_ne hne]
        rfl
  · have hDestroy : s.destroy t = { s.destruct t with
        alive := Function.update s.alive t false, concept := s.concept } := by
      rw [State.destroy, hConcept]
      show { s.destruct t with alive := Function.update s.alive t false } = _
      rw [destruct_eq hAt]
    rw [hDestroy]
    obtain ⟨hInv, hOwners⟩ := h.drop hAt (Function.update s.alive t false) s.concept
      (fun u hu => Function.update_of_ne hu _ _) (fun u _ => rfl)
      (fun hAlive => absurd hAlive (by rw [Function.update_self]; simp))
    rw [Function.update_self] at hOwners
    exact ⟨hInv, hOwners⟩

/-- A callable that comes from outside. -/
theorem Inv.construct (h : Inv s) (ht : s.alive t = false) (f : κ) :
    Inv (s.construct t f) ∧
      (s.construct t f).owners = Function.update s.owners t (some (some (s.callables, f))) := by
  obtain ⟨hInv, hOwners⟩ := h.enter ht
  have hEmpty : (s.enter t).objectAt t = none := h.empty_of_dead ht
  have hAlive : (s.enter t).alive t = true := Function.update_self ..
  have hNew : ∀ c, some (s.callables, f) = some c → ∀ m, s.func m ≠ some c := by
    rintro c hc m hFunc
    rw [← Option.some.inj hc] at hFunc
    exact Nat.lt_irrefl _ (h.objects.numbered m _ hFunc)
  have hRaised : Objects { s.enter t with callables := s.callables + 1 } :=
    ⟨hInv.objects.fault, hInv.objects.exclusive, hInv.objects.located, hInv.objects.built,
      hInv.objects.func, fun n c hFunc => Nat.lt_succ_of_lt (hInv.objects.numbered n c hFunc),
      hInv.objects.ended, hInv.objects.nodup⟩
  have hObjects := hRaised.build hEmpty hNew fun c hc => Option.some.inj hc ▸ Nat.lt_succ_self _
  have hAt : (s.construct t f).objectAt = Function.update s.objectAt t (some s.objects) :=
    hRaised.objectAt_build t (some (s.callables, f))
  have hFunc : (s.construct t f).func =
    Function.update s.func s.objects (some (s.callables, f)) := rfl
  have hOld : ∀ u n, s.objectAt u = some n → (s.construct t f).func n = s.func n := by
    intro u n hu
    rw [hFunc, Function.update_of_ne (Nat.ne_of_lt (h.objects.lt_objects hu))]
  refine ⟨⟨hObjects.setConcept t _, ?_, ?_, ?_⟩, ?_⟩
  · intro u hu
    show Function.update (s.enter t).concept t (some t) u = _
    rcases update_cases hAt u with ⟨rfl, hHere⟩ | ⟨hne, hOther⟩
    · rw [hHere, Function.update_self]
      rfl
    · rw [hOther, Function.update_of_ne hne]
      exact hInv.concept u hu
  · intro u n hu
    rcases update_cases hAt u with ⟨rfl, -⟩ | ⟨-, hOther⟩
    · exact hAlive
    · exact hInv.owner u n (hOther ▸ hu)
  · intro u n hu
    rcases update_cases hAt u with ⟨rfl, hHere⟩ | ⟨-, hOther⟩
    · rw [hHere, Option.some.injEq] at hu
      rw [hFunc, hu, Function.update_self]
      exact ⟨_, rfl⟩
    · rw [hOther] at hu
      rw [hOld u n hu]
      exact h.content u n hu
  · have hSame : ∀ u, u ≠ t → (s.construct t f).held u = s.held u := by
      intro u hne
      rw [State.held, hAt, Function.update_of_ne hne]
      cases hu : s.objectAt u with
      | none => rw [held_of_empty hu, Option.bind_none]
      | some n => rw [Option.bind_some, hOld u n hu, held_of_objectAt hu]
    have hThere : (s.construct t f).held t = some (s.callables, f) := by
      rw [State.held, hAt, Function.update_self, Option.bind_some, hFunc, Function.update_self]
    funext u
    show (if (s.enter t).alive u then some ((s.construct t f).held u) else none) = _
    by_cases hu : u = t
    · rw [hu, hAlive, hThere, Function.update_self]
      rfl
    · have hEnter := congrFun hOwners u
      rw [Function.update_of_ne hu] at hEnter
      rw [hSame u hu, Function.update_of_ne hu, ← hEnter]
      rfl

omit [DecidableEq τ] in
/-- A living task without an object owns nothing. -/
theorem owners_of_empty (ht : s.alive t = true) (hEmpty : s.objectAt t = none) :
    s.owners t = some none := by
  rw [State.owners, ht, held_of_empty hEmpty]
  rfl

/-- The callable of `other` moves to `t`, which is empty. -/
theorem Inv.takeFrom (h : Inv s) (hne : t ≠ other) (ht : s.alive t = true)
    (hOther : s.alive other = true) (hEmpty : s.objectAt t = none) :
    Inv (s.takeFrom t other) ∧ (s.takeFrom t other).owners =
      Function.update (Function.update s.owners t (s.owners other)) other (some none) := by
  rcases h.concept_cases hOther with ⟨hConcept, hNothing⟩ | ⟨n, hConcept, hAt⟩
  · -- both are empty
    have hTake : s.takeFrom t other = s := by rw [State.takeFrom, hConcept]
    rw [hTake, owners_of_empty hOther hNothing]
    refine ⟨h, ?_⟩
    conv_lhs => rw [← Function.update_eq_self t s.owners, owners_of_empty ht hEmpty,
      ← Function.update_eq_self other (Function.update s.owners t (some none)),
      Function.update_of_ne hne.symm, owners_of_empty hOther hNothing]
  · obtain ⟨c, hc⟩ := h.content other n hAt
    have hMoved := h.objects.moveTo t hAt hEmpty
    have hAtMoved : (s.moveTo other t).objectAt =
        Function.update s.objectAt t (some s.objects) := by
      rw [moveTo_eq hAt]
      exact (h.objects.moveOut n).objectAt_build t (s.func n)
    have hThere : ((s.moveTo other t).setConcept t (some t)).objectAt other = some n := by
      show (s.moveTo other t).objectAt other = some n
      rw [hAtMoved, Function.update_of_ne hne.symm, hAt]
    have hSet := hMoved.setConcept t (some t)
    have hTake : s.takeFrom t other =
        (((s.moveTo other t).setConcept t (some t)).destruct other).setConcept other none := by
      rw [State.takeFrom, hConcept]
    have hObjects : Objects (s.takeFrom t other) := by
      rw [hTake]
      exact (hSet.destruct hThere).setConcept other none
    have hAt' : (s.takeFrom t other).objectAt =
        Function.update (Function.update s.objectAt t (some s.objects)) other none := by
      rw [hTake, ← hAtMoved]
      exact hSet.objectAt_destruct hThere
    have hAlive : (s.takeFrom t other).alive = s.alive := by
      rw [hTake, destruct_eq hThere, moveTo_eq hAt]
      rfl
    have hConcept' : (s.takeFrom t other).concept =
        Function.update (Function.update s.concept t (some t)) other none := by
      rw [hTake, destruct_eq hThere, moveTo_eq hAt]
      rfl
    have hFunc : (s.takeFrom t other).func =
        Function.update (Function.update s.func n none) s.objects (some c) := by
      rw [hTake, destruct_eq hThere, moveTo_eq hAt, hc]
      rfl
    have hNew : (s.takeFrom t other).func s.objects = some c := by
      rw [hFunc, Function.update_self]
    have hOld : ∀ u m, u ≠ other → s.objectAt u = some m →
        (s.takeFrom t other).func m = s.func m := by
      intro u m hu hm
      have hmn : m ≠ n := by
        rintro rfl
        exact hu (h.objects.exclusive u other m hm hAt)
      rw [hFunc, Function.update_of_ne (Nat.ne_of_lt (h.objects.lt_objects hm)),
        Function.update_of_ne hmn]
    refine ⟨⟨hObjects, ?_, ?_, ?_⟩, ?_⟩
    · intro u hu
      rw [hConcept']
      rcases update_two_cases hAt' u with ⟨rfl, hAtU⟩ | ⟨hu1, rfl, hAtU⟩ | ⟨hu1, hu2, hAtU⟩
      · rw [hAtU, Function.update_self]
        rfl
      · rw [hAtU, Function.update_of_ne hu1, Function.update_self]
        rfl
      · rw [hAtU, Function.update_of_ne hu1, Function.update_of_ne hu2]
        exact h.concept u (hAlive ▸ hu)
    · intro u m hu
      rw [hAlive]
      rcases update_two_cases hAt' u with ⟨rfl, hAtU⟩ | ⟨-, rfl, hAtU⟩ | ⟨-, -, hAtU⟩
      · exact hOther
      · exact ht
      · exact h.owner u m (hAtU ▸ hu)
    · intro u m hu
      rcases update_two_cases hAt' u with ⟨-, hAtU⟩ | ⟨-, -, hAtU⟩ | ⟨hu1, -, hAtU⟩ <;>
        rw [hAtU] at hu
      · cases hu
      · rw [← Option.some.inj hu]
        exact ⟨c, hNew⟩
      · rw [hOld u m hu1 hu]
        exact h.content u m hu
    · funext u
      rw [State.owners, hAlive, State.held]
      rcases update_two_cases hAt' u with ⟨rfl, hAtU⟩ | ⟨hu1, rfl, hAtU⟩ | ⟨hu1, hu2, hAtU⟩
      · rw [hAtU, Function.update_self, hOther]
        rfl
      · rw [hAtU, Function.update_of_ne hu1, Function.update_self, Option.bind_some, hNew, ht,
          State.owners, hOther, held_of_objectAt hAt, hc]
      · rw [hAtU, Function.update_of_ne hu1, Function.update_of_ne hu2]
        cases hm : s.objectAt u with
        | none => rw [State.owners, held_of_empty hm, Option.bind_none]
        | some m => rw [State.owners, held_of_objectAt hm, Option.bind_some, hOld u m hu1 hm]

omit [DecidableEq τ] in
/-- `operator()` runs the callable in the storage, if there is one. -/
theorem Inv.invoke (h : Inv s) (ht : s.alive t = true) :
    s.invoke t = { s with invoked := s.invoked ++ (s.held t).toList } := by
  rcases h.concept_cases ht with ⟨hConcept, hEmpty⟩ | ⟨n, hConcept, hAt⟩
  · rw [State.invoke, hConcept, held_of_empty hEmpty]
    simp
  · obtain ⟨c, hc⟩ := h.content t n hAt
    rw [State.invoke, hConcept]
    show s.invokeAt t = _
    rw [State.invokeAt, hAt, Option.bind_some, hc, held_of_objectAt hAt, hc]
    rfl

-- ---------------------------------------------------------------------------
-- What is invoked
-- ---------------------------------------------------------------------------

/-- Nothing but an invocation invokes. -/
theorem moveTo_invoked (p dest : τ) : (s.moveTo p dest).invoked = s.invoked := by
  unfold State.moveTo
  split <;> rfl

omit [DecidableEq τ] in
theorem destruct_invoked (p : τ) : (s.destruct p).invoked = s.invoked := by
  unfold State.destruct
  split <;> rfl

theorem takeFrom_invoked (t other : τ) : (s.takeFrom t other).invoked = s.invoked := by
  unfold State.takeFrom
  split
  · exact (destruct_invoked _).trans (moveTo_invoked _ _)
  · rfl

theorem reset_invoked (t : τ) : (s.reset t).invoked = s.invoked := by
  unfold State.reset
  split
  · exact destruct_invoked _
  · rfl

theorem destroy_invoked (t : τ) : (s.destroy t).invoked = s.invoked := by
  unfold State.destroy
  split
  · exact destruct_invoked _
  · rfl

-- ---------------------------------------------------------------------------
-- Runs
-- ---------------------------------------------------------------------------

/-- What one operation keeps and does. -/
theorem inv_step (h : Inv s) (hst : step s a = some s') :
    Inv s' ∧ s'.owners = s.owners.apply s.callables a ∧
      s'.invoked = s.invoked ++ (s.runs a).toList := by
  cases a with
  | construct t f =>
    simp only [step, Option.ite_none_left_eq_some, Bool.not_eq_true, Option.some.injEq] at hst
    obtain ⟨ht, rfl⟩ := hst
    obtain ⟨hInv, hOwners⟩ := h.construct ht f
    exact ⟨hInv, hOwners, (List.append_nil _).symm⟩
  | default t =>
    simp only [step, Option.ite_none_left_eq_some, Bool.not_eq_true, Option.some.injEq] at hst
    obtain ⟨ht, rfl⟩ := hst
    obtain ⟨hInv, hOwners⟩ := h.enter ht
    exact ⟨hInv, hOwners, (List.append_nil _).symm⟩
  | moveConstruct t other =>
    simp only [step, Option.ite_none_right_eq_some, Option.some.injEq] at hst
    obtain ⟨⟨ht, hOther⟩, rfl⟩ := hst
    have hne : t ≠ other := by
      rintro rfl
      rw [ht] at hOther
      cases hOther
    obtain ⟨hInv, hOwners⟩ := h.enter ht
    have hAlive : (s.enter t).alive other = true := by
      rw [← hOther]
      exact Function.update_of_ne hne.symm _ _
    obtain ⟨hInv', hOwners'⟩ := hInv.takeFrom hne (Function.update_self ..) hAlive
      (h.empty_of_dead ht)
    refine ⟨hInv', ?_, ?_⟩
    · rw [Owners.apply, State.moveConstruct, hOwners', hOwners, Function.update_of_ne hne.symm,
        Function.update_idem]
    · exact (takeFrom_invoked t other).trans (List.append_nil _).symm
  | moveAssign t other =>
    simp only [step, Option.ite_none_right_eq_some, Option.some.injEq] at hst
    obtain ⟨⟨ht, hOther⟩, rfl⟩ := hst
    unfold State.moveAssign
    by_cases hEq : t = other
    · -- `this == &other`
      rw [if_pos hEq, Owners.apply, if_pos hEq]
      exact ⟨h, rfl, (List.append_nil _).symm⟩
    · rw [if_neg hEq, Owners.apply, if_neg hEq]
      obtain ⟨hInv, hOwners, hConcept, hAlive⟩ := h.reset ht
      have hAliveT : (s.reset t).alive t = true := by rw [hAlive, ht]
      have hEmpty : (s.reset t).objectAt t = none := by
        rcases hInv.concept_cases hAliveT with ⟨-, hEmpty⟩ | ⟨n, hSome, -⟩
        · exact hEmpty
        · exact absurd (hSome.symm.trans hConcept) (by simp)
      obtain ⟨hInv', hOwners'⟩ := hInv.takeFrom hEq hAliveT (by rw [hAlive, hOther]) hEmpty
      refine ⟨hInv', ?_, ?_⟩
      · rw [hOwners', hOwners, Function.update_of_ne (Ne.symm hEq), Function.update_idem]
      · rw [takeFrom_invoked, reset_invoked]
        exact (List.append_nil _).symm
  | invoke t =>
    simp only [step, Option.ite_none_right_eq_some, Option.some.injEq] at hst
    obtain ⟨ht, rfl⟩ := hst
    rw [h.invoke ht]
    exact ⟨⟨⟨h.objects.fault, h.objects.exclusive, h.objects.located, h.objects.built,
      h.objects.func, h.objects.numbered, h.objects.ended, h.objects.nodup⟩, h.concept, h.owner,
      h.content⟩, rfl, rfl⟩
  | destroy t =>
    simp only [step, Option.ite_none_right_eq_some, Option.some.injEq] at hst
    obtain ⟨ht, rfl⟩ := hst
    obtain ⟨hInv, hOwners⟩ := h.destroy ht
    exact ⟨hInv, hOwners, (destroy_invoked t).trans (List.append_nil _).symm⟩

/-- In every state. -/
theorem inv_reachable (h : (system τ κ).Reachable s) : Inv s :=
  h.invariant inv_init fun _ _ _ _ hInv _ hst => (inv_step hInv hst).1

-- ---------------------------------------------------------------------------
-- Ownership
-- ---------------------------------------------------------------------------

omit [DecidableEq τ] in
/-- When no task is left, nothing lives. -/
theorem Inv.destroyed_perm (h : Inv s) (hNone : ∀ t, s.alive t = false) :
    s.destroyed.Perm (List.range s.objects) := by
  refine (List.perm_ext_iff_of_nodup h.objects.nodup List.nodup_range).mpr ?_
  intro n
  rw [h.objects.ended, List.mem_range]
  refine and_iff_left_of_imp fun _ => ?_
  by_contra hLive
  obtain ⟨t, ht⟩ := h.objects.located n (by simpa using hLive)
  rw [h.empty_of_dead (hNone t)] at ht
  cases ht

omit [DecidableEq τ] in
/-- No callable is with two tasks. -/
theorem Inv.exclusive_held (h : Inv s) : Exclusive s.held := by
  intro t u c ht hu
  obtain ⟨n, hn, hc⟩ := Option.bind_eq_some_iff.mp ht
  obtain ⟨m, hm, hc'⟩ := Option.bind_eq_some_iff.mp hu
  rw [h.objects.func n m c hc hc'] at hn
  exact h.objects.exclusive t u m hn hm

/-- **Ownership of the callables**: whatever the order of the operations, a callable is with one
task, a move hands it on, an invocation runs the callable of the task, and each object in the
storage of the tasks is destroyed once. A move of a task to itself is an operation too. A
callable whose move throws ends the program, since `move_to` is `noexcept`, and is excluded. -/
theorem task_ownership (h : (system τ κ).Reachable s) : Contract s := by
  have hInv := inv_reachable h
  refine ⟨hInv.exclusive_held, ?_, fun t ht => hInv.empty_of_dead ht, hInv.objects.fault,
    ⟨hInv.objects.nodup, fun n hn => ((hInv.objects.ended n).mp hn).1⟩, hInv.destroyed_perm, ?_⟩
  · intro t ht
    rw [State.operatorBool, hInv.concept t ht, hInv.isSome_held, Option.isSome_map]
  · intro a s' hst
    exact (inv_step hInv hst).2

/-- A task that is assigned over another, assigned to itself, and run. -/
theorem task_ownership_assigned :
    ∃ s : State (Fin 2) String, (system (Fin 2) String).Reachable s ∧ s.held 0 = some (1, "b") ∧
      s.operatorBool 1 = false ∧ s.invoked = [(1, "b")] ∧ s.destroyed = [0, 1] ∧ Contract s := by
  obtain ⟨s, hs, hHeld, hBool, hInvoked, hDestroyed⟩ := System.exists_reachable_of_exec
    (S := system (Fin 2) String)
    (p := fun s => s.held 0 = some (1, "b") ∧ s.operatorBool 1 = false ∧
      s.invoked = [(1, "b")] ∧ s.destroyed = [0, 1])
    [.construct 0 "a", .construct 1 "b", .moveAssign 0 1, .moveAssign 0 0, .invoke 0, .invoke 1]
    (by decide +kernel)
  exact ⟨s, hs, hHeld, hBool, hInvoked, hDestroyed, task_ownership hs⟩

end EmbLinux.FixedTask
