import EmbLinux.DesignLockFree.Queue.Reclamation
import EmbLinux.DesignLockFree.Stack.Overflow
import EmbLinux.Lib.History

/-!
# EmbLinux — how far the external counts of `lock_free_queue` go

As for the stack, the model is the code as long as no `++external_count` starts from the
largest `int`, and `counted` has a history that counts the successful turns of
`increase_external_count`, here those through `head` and those through `tail` of each node
since its `new`.

A node has its two counts from 1 on until `head` and `tail` move past it, and only a `pop`
that finds a value moves `head`: each `pop` of an empty queue adds to the count for good.
-/

namespace EmbLinux.DesignLockFree.Queue

variable {τ α : Type*} [DecidableEq τ]

/-- The pointer that the next access of a thread adds 1 to, if it is a turn of
`increase_external_count`. -/
def Pc.increases {β : Type*} : Pc β → Option CountedNodePtr
  | .popIncrease old | .pushIncrease _ _ old => some old
  | _ => none

/-- The access that thread `t` makes next does not take `external_count` beyond the
largest `int`, for every thread. -/
def NoOverflow (s : State τ α) : Prop :=
  ∀ t old, (s.pc t).increases = some old → old.externalCount + 1 ≤ intMax

-- ---------------------------------------------------------------------------
-- The history
-- ---------------------------------------------------------------------------

/-- What an action adds to the history. -/
def note (s : State τ α) (a : Action τ α) (u : Uses τ (Nat × Side)) : Uses τ (Nat × Side) :=
  match a with
  | .callPop _ | .callPush _ _ => u
  | .run t spurious fresh =>
    match s.pc t with
    | .popLoad => u.load t ((s.counter .head).ptr, .head)
    | .popIncrease old =>
      if s.counter .head = old then u.use t (old.ptr, .head)
      else u.load t ((s.counter .head).ptr, .head)
    | .popCas old _ =>
      if s.counter .head = old then u else u.load t ((s.counter .head).ptr, .head)
    | .pushLoad _ _ => u.load t ((s.counter .tail).ptr, .tail)
    | .pushIncrease _ _ old =>
      if s.counter .tail = old then u.use t (old.ptr, .tail)
      else u.load t ((s.counter .tail).ptr, .tail)
    | .setNewTail _ old _ =>
      if s.counter .tail = old ∧ spurious = false then u
      else u.load t ((s.counter .tail).ptr, .tail)
    | .pushNew _ | .helpNew _ _ _ => (u.renew (fresh, .head)).renew (fresh, .tail)
    | _ => u

/-- The queue with a count of the uses of each node and side. -/
def counted (τ α : Type*) [DecidableEq τ] :
    System (State τ α × Uses τ (Nat × Side)) (Action τ α) :=
  (system τ α).withHistory (.none τ (Nat × Side)) note

/-- No thread is about to add 1 to a count that has had as many turns as an `int` can
count. -/
def FewUses (x : State τ α × Uses τ (Nat × Side)) : Prop :=
  ∀ t old, (x.1.pc t).increases = some old → 1 + (x.2.loaded t : Int) < intMax

-- ---------------------------------------------------------------------------
-- The counts are the numbers of turns
-- ---------------------------------------------------------------------------

/-- The same while a thread drops a reference before it reads the counter again. -/
def Cont.loaded {β : Type*} : Cont β → Option CountedNodePtr
  | .popRetry old | .pushRetry _ _ old => some old
  | _ => none

/-- The pointer that a thread has loaded and may add 1 to. -/
def Pc.loaded {β : Type*} : Pc β → Option CountedNodePtr
  | .popIncrease old | .pushIncrease _ _ old | .pushData _ _ old | .helpNext _ _ old
  | .helpNew _ old _ | .setNewTail (.help _ _) old _ => some old
  | .freeLoad _ _ k | .freeCas _ _ _ k | .releaseLoad _ k | .releaseCas _ _ k | .delete _ k =>
    k.loaded
  | _ => none

/-- It is the pointer of the exchange that adds 1. -/
theorem Pc.loaded_of_increases {β : Type*} {pc : Pc β} {old : CountedNodePtr}
    (h : pc.increases = some old) : pc.loaded = some old := by
  cases pc with
  | popIncrease | pushIncrease => exact h
  | _ => cases h

/-- An external count is one more than the uses of its node. -/
structure Used (s : State τ α) (u : Uses τ (Nat × Side)) : Prop where
  external : ∀ p side c, s.external p side = some c → c = 1 + u.count (p, side)
  loaded : ∀ t old, (s.pc t).loaded = some old → old.externalCount = 1 + u.loaded t

variable {s s' : State τ α} {u : Uses τ (Nat × Side)} {t : τ} {pc : Pc (Numbered α)}
  {side : Side} {before after : List Nat}

omit [DecidableEq τ] in
/-- In particular that of a counter. -/
theorem Used.counter_count (h : Used s u) (hInv : Inv s before after) (side : Side) :
    (s.counter side).externalCount = 1 + u.count ((s.counter side).ptr, side) := by
  refine h.external _ side _ ?_
  have hAlloc := (hInv.nodes.onChain _ (hInv.nodes.counter_mem side)).1
  rw [hInv.counts.ahead _ side hAlloc (hInv.nodes.counter_ahead side), if_pos rfl]

/-- What is left of a thread's pointer after a step in which it loads none. -/
theorem Used.loaded_move (h : Used s u) (hPc : s'.pc = Function.update s.pc t pc)
    (hLoaded : pc.loaded = none ∨ pc.loaded = (s.pc t).loaded) :
    ∀ v old, (s'.pc v).loaded = some old → old.externalCount = 1 + u.loaded v := by
  refine part_of_update Pc.loaded hPc (fun old hv => ?_) fun v old _ => h.loaded v old
  rcases hLoaded with hNone | hSame
  · rw [hNone] at hv
    cases hv
  · exact h.loaded t old (hSame ▸ hv)

/-- The external counts stay, apart from those that are given up. -/
theorem Used.move (h : Used s u) (hPc : s'.pc = Function.update s.pc t pc)
    (hExternal : ∀ p side c, s'.external p side = some c → s.external p side = some c)
    (hLoaded : pc.loaded = none ∨ pc.loaded = (s.pc t).loaded) : Used s' u :=
  ⟨fun p side c hc => h.external p side c (hExternal p side c hc), h.loaded_move hPc hLoaded⟩

/-- The thread loads `head` or `tail`. -/
theorem Used.load (h : Used s u) (hInv : Inv s before after) (side : Side)
    (hLoaded : pc.loaded = none ∨ pc.loaded = some (s.counter side)) :
    Used (s.setPc t pc) (u.load t ((s.counter side).ptr, side)) := by
  refine ⟨h.external, part_of_update Pc.loaded rfl ?_ ?_⟩
  · intro old hv
    rcases hLoaded with hNone | hSome
    · rw [hNone] at hv
      cases hv
    · rw [hSome] at hv
      cases hv
      rw [Uses.load_self]
      exact h.counter_count hInv side
  · intro v old hvt hv
    rw [Uses.load_of_ne hvt]
    exact h.loaded v old hv

/-- A successful turn of `increase_external_count`. -/
theorem Used.increase (h : Used s u) (hInv : Inv s before after) (side : Side)
    (hPc : s'.pc = Function.update s.pc t pc)
    (hLoaded : pc.loaded = none ∨
      pc.loaded = some ⟨(s.counter side).externalCount + 1, (s.counter side).ptr⟩)
    (hExternal : s'.external = Function.update s.external (s.counter side).ptr
      (Function.update (s.external (s.counter side).ptr) side
        (some ((s.counter side).externalCount + 1)))) :
    Used s' (u.use t ((s.counter side).ptr, side)) := by
  have hCount := h.counter_count hInv side
  refine ⟨?_, ?_⟩
  · intro p side' c hc
    change c = 1 + (Function.update u.count ((s.counter side).ptr, side)
      (u.count ((s.counter side).ptr, side) + 1) (p, side') : Nat)
    by_cases hKey : (p, side') = ((s.counter side).ptr, side)
    · obtain ⟨rfl, rfl⟩ := Prod.mk.inj hKey
      rw [hExternal, Function.update_self, Function.update_self] at hc
      obtain rfl := Option.some.inj hc
      rw [Function.update_self]
      omega
    · rw [Function.update_of_ne hKey]
      refine h.external p side' c ?_
      rw [hExternal] at hc
      rcases update_at s.external (s.counter side).ptr (Function.update
          (s.external (s.counter side).ptr) side (some ((s.counter side).externalCount + 1))) p
        with ⟨rfl, hHere⟩ | ⟨-, hOther⟩
      · rw [hHere, Function.update_of_ne fun hSide => hKey (by rw [hSide])] at hc
        exact hc
      · rwa [hOther] at hc
  · refine part_of_update Pc.loaded hPc (fun old hv => ?_) fun v old hvt hv => ?_
    · rcases hLoaded with hNone | hSome
      · rw [hNone] at hv
        cases hv
      · rw [hSome] at hv
        cases hv
        rw [Uses.use_self]
        change (s.counter side).externalCount + 1 = _
        omega
    · rw [Uses.use_of_ne hvt]
      exact h.loaded v old hv

/-- A node that is allocated again has not been used. -/
theorem Used.alloc (h : Used s u) {p : Nat} (hLoaded : pc.loaded = none ∨
    pc.loaded = (s.pc t).loaded) :
    Used ((s.newNode t p).setPc t pc) ((u.renew (p, .head)).renew (p, .tail)) := by
  refine ⟨?_, ?_⟩
  · intro q side c hc
    change Function.update s.external p (fun _ => some 1) q side = some c at hc
    change c = 1 + (Function.update (Function.update u.count (p, .head) 0) (p, .tail) 0
      (q, side) : Nat)
    rcases update_at s.external p (fun _ => some 1) q with ⟨rfl, hHere⟩ | ⟨hqp, hOther⟩
    · rw [hHere] at hc
      obtain rfl := Option.some.inj hc
      cases side <;> simp
    · have hNe : ∀ side', (q, side) ≠ (p, side') := fun side' hEq => hqp (Prod.mk.inj hEq).1
      rw [hOther] at hc
      rw [Function.update_of_ne (hNe _), Function.update_of_ne (hNe _)]
      exact h.external q side c hc
  · exact h.loaded_move (show ((s.newNode t p).setPc t pc).pc = _ from rfl) hLoaded

/-- The last access to a node: the call goes on, or its `delete` comes first. -/
theorem droppedPc_loaded {β : Type*} (ptr : Nat) (new : NodeCounter) (k : Cont β) :
    (droppedPc ptr new k).loaded = none ∨ (droppedPc ptr new k).loaded = k.loaded := by
  unfold droppedPc
  split
  · exact Or.inr rfl
  · cases k with
    | popReturn | pushReturn => exact Or.inl rfl
    | popRetry | pushRetry => exact Or.inr rfl

/-- One access. -/
theorem used_run (h : Used s u) (hInv : Inv s before after) {spurious : Bool} {fresh : Nat}
    (hst : run s t spurious fresh = some s') : Used s' (note s (.run t spurious fresh) u) := by
  cases hpc : s.pc t with
  | idle last => simp [run, hpc] at hst
  | popLoad =>
    simp only [run, hpc, Option.some.injEq] at hst
    subst hst
    simp only [note, hpc]
    exact h.load hInv .head (Or.inr rfl)
  -- the two exchanges that count are those of `increase_external_count`
  | popIncrease old =>
    simp only [run, hpc, State.increaseExternalCount, Option.some.injEq] at hst
    by_cases hCas : s.counter .head = old
    · subst hCas
      simp only [if_true] at hst
      subst hst
      simp only [note, hpc, if_true]
      exact h.increase hInv .head rfl (Or.inl rfl) rfl
    · simp only [if_neg hCas] at hst
      subst hst
      simp only [note, hpc, if_neg hCas]
      exact h.load hInv .head (Or.inr rfl)
  | popTail old =>
    simp only [run, hpc] at hst
    simp only [note, hpc]
    split at hst <;> cases hst
    · exact h.move rfl (fun _ _ _ => id) (Or.inl rfl)
    · exact h.move rfl (fun _ _ _ => id) (Or.inl rfl)
  | popNext old =>
    simp only [run, hpc, Option.some.injEq] at hst
    subst hst
    simp only [note, hpc]
    exact h.move rfl (fun _ _ _ => id) (Or.inl rfl)
  | popCas old next =>
    simp only [run, hpc] at hst
    by_cases hCas : s.counter .head = old
    · simp only [if_pos hCas, Option.some.injEq] at hst
      subst hst
      simp only [note, hpc, if_pos hCas]
      exact h.move rfl (fun _ _ _ => id) (Or.inl rfl)
    · simp only [if_neg hCas, Option.some.injEq] at hst
      subst hst
      simp only [note, hpc, if_neg hCas]
      exact h.load hInv .head (Or.inr rfl)
  | popData old =>
    simp only [run, hpc, Option.some.injEq] at hst
    subst hst
    simp only [note, hpc]
    exact h.move rfl (fun _ _ _ => id) (Or.inl rfl)
  -- a node at a used address starts at 1 again, and so does its number of uses
  | pushNew value =>
    simp only [run, hpc] at hst
    simp only [note, hpc]
    split at hst <;> cases hst
    exact h.alloc (Or.inl rfl)
  | pushLoad value new =>
    simp only [run, hpc, Option.some.injEq] at hst
    subst hst
    simp only [note, hpc]
    exact h.load hInv .tail (Or.inr rfl)
  | pushIncrease value new old =>
    simp only [run, hpc, State.increaseExternalCount, Option.some.injEq] at hst
    by_cases hCas : s.counter .tail = old
    · subst hCas
      simp only [if_true] at hst
      subst hst
      simp only [note, hpc, if_true]
      exact h.increase hInv .tail rfl (Or.inr rfl) rfl
    · simp only [if_neg hCas] at hst
      subst hst
      simp only [note, hpc, if_neg hCas]
      exact h.load hInv .tail (Or.inr rfl)
  | pushData value new old =>
    simp only [run, hpc] at hst
    simp only [note, hpc]
    split at hst <;> cases hst
    · exact h.move rfl (fun _ _ _ => id) (Or.inl rfl)
    · exact h.move rfl (fun _ _ _ => id) (Or.inr (by rw [hpc]; rfl))
  | pushNext value new old =>
    simp only [run, hpc] at hst
    simp only [note, hpc]
    split at hst <;> cases hst
    · exact h.move rfl (fun _ _ _ => id) (Or.inl rfl)
    · exact h.move rfl (fun _ _ _ => id) (Or.inl rfl)
  | pushDelete value new old next =>
    simp only [run, hpc, Option.some.injEq] at hst
    subst hst
    simp only [note, hpc]
    exact h.move rfl (fun _ _ _ => id) (Or.inl rfl)
  | helpNext value new old =>
    simp only [run, hpc] at hst
    simp only [note, hpc]
    split at hst <;> cases hst
    · exact h.move rfl (fun _ _ _ => id) (Or.inr (by rw [hpc]; rfl))
    · exact h.move rfl (fun _ _ _ => id) (Or.inr (by rw [hpc]; rfl))
  | helpNew value old next =>
    simp only [run, hpc] at hst
    simp only [note, hpc]
    split at hst <;> cases hst
    exact h.alloc (Or.inr (by rw [hpc]; rfl))
  -- a helper that loses has read `tail` anew; the pusher itself goes on to another counter
  | setNewTail pusher old new =>
    simp only [run, hpc] at hst
    by_cases hCas : s.counter .tail = old ∧ spurious = false
    · simp only [if_pos hCas, Option.some.injEq] at hst
      subst hst
      simp only [note, hpc, if_pos hCas]
      cases pusher with
      | finish => exact h.move rfl (fun _ _ _ => id) (Or.inl rfl)
      | help => exact h.move rfl (fun _ _ _ => id) (Or.inr (by rw [hpc]; rfl))
    · simp only [if_neg hCas] at hst
      simp only [note, hpc, if_neg hCas]
      split at hst <;> cases hst
      · cases pusher with
        | finish => exact h.load hInv .tail (Or.inl rfl)
        | help => exact h.load hInv .tail (Or.inr rfl)
      · cases pusher with
        | finish => exact h.load hInv .tail (Or.inl rfl)
        | help => exact h.load hInv .tail (Or.inr rfl)
  | freeLoad side old k =>
    simp only [run, hpc, Option.some.injEq] at hst
    subst hst
    simp only [note, hpc]
    exact h.move rfl (fun _ _ _ => id) (Or.inr (by rw [hpc]; rfl))
  | freeCas side old oldCounter k =>
    simp only [run, hpc] at hst
    simp only [note, hpc]
    split at hst <;> cases hst
    -- closing an external count leaves those that are open as they were
    · refine h.move (t := t) (dropped_pc ..) ?_ ?_
      · rw [(sameNodes_dropped ..).external]
        intro p side' c hc
        change Function.update s.external old.ptr
          (Function.update (s.external old.ptr) side none) p side' = some c at hc
        rcases update_at s.external old.ptr (Function.update (s.external old.ptr) side none) p with
          ⟨rfl, hHere⟩ | ⟨-, hOther⟩
        · rw [hHere] at hc
          rcases update_at (s.external old.ptr) side none side' with ⟨-, hSide⟩ | ⟨-, hSide⟩
          · rw [hSide] at hc
            cases hc
          · rwa [hSide] at hc
        · rwa [hOther] at hc
      · rw [hpc]
        exact droppedPc_loaded ..
    · exact h.move rfl (fun _ _ _ => id) (Or.inr (by rw [hpc]; rfl))
  | releaseLoad ptr k =>
    simp only [run, hpc, Option.some.injEq] at hst
    subst hst
    simp only [note, hpc]
    exact h.move rfl (fun _ _ _ => id) (Or.inr (by rw [hpc]; rfl))
  | releaseCas ptr oldCounter k =>
    simp only [run, hpc] at hst
    simp only [note, hpc]
    split at hst <;> cases hst
    · refine h.move (t := t) (dropped_pc ..) ?_ ?_
      · rw [(sameNodes_dropped ..).external]
        exact fun _ _ _ => id
      · rw [hpc]
        exact droppedPc_loaded ..
    · exact h.move rfl (fun _ _ _ => id) (Or.inr (by rw [hpc]; rfl))
  | delete ptr k =>
    simp only [run, hpc, Option.some.injEq] at hst
    subst hst
    simp only [note, hpc]
    refine h.move (t := t) (resume_pc ..) ?_ ?_
    · rw [(sameNodes_resume ..).external]
      exact fun _ _ _ => id
    · rw [hpc]
      cases k with
      | popReturn | pushReturn => exact Or.inl rfl
      | popRetry | pushRetry => exact Or.inr rfl

/-- Every step keeps it. -/
theorem used_step (h : Used s u) (hInv : Inv s before after) {a : Action τ α}
    (hst : step s a = some s') : Used s' (note s a u) := by
  cases a with
  | callPop t =>
    simp only [step] at hst
    split at hst <;> cases hst
    exact h.move rfl (fun _ _ _ => id) (Or.inl rfl)
  | callPush t value =>
    simp only [step] at hst
    split at hst <;> cases hst
    exact h.move rfl (fun _ _ _ => id) (Or.inl rfl)
  | run t spurious fresh => exact used_run h hInv hst

omit [DecidableEq τ] in
/-- The first node has not been used. -/
theorem used_init : Used (init τ α) (.none τ (Nat × Side)) := by
  refine ⟨?_, ?_⟩
  · intro p side c hc
    change (if p = 1 then some 1 else none) = some c at hc
    split at hc <;> cases hc
    rfl
  · intro v old hv
    cases hv

/-- In every reachable state. -/
theorem used_reachable {x : State τ α × Uses τ (Nat × Side)} (hx : (counted τ α).Reachable x) :
    Used x.1 x.2 := by
  refine hx.invariant (I := fun x => Used x.1 x.2) used_init ?_
  intro x a y hx hUsed _ hst
  obtain ⟨hst, hNote⟩ := System.withHistory_step.mp hst
  obtain ⟨⟨before, after, hInv⟩, -⟩ := inv_reachable hx.of_history
  rw [hNote]
  exact used_step hUsed hInv hst

/-- In every state of every run: no count goes beyond the largest `int` if and only if no
thread is about to add to a count that has had too many turns. -/
theorem noOverflow_iff {x : State τ α × Uses τ (Nat × Side)} (hx : (counted τ α).Reachable x) :
    NoOverflow x.1 ↔ FewUses x := by
  have hCount : ∀ t old, (x.1.pc t).increases = some old →
      old.externalCount = 1 + x.2.loaded t :=
    fun t old hpc => (used_reachable hx).loaded t old (Pc.loaded_of_increases hpc)
  constructor
  · intro h t old hpc
    have hLe := h t old hpc
    have hEq := hCount t old hpc
    omega
  · intro h t old hpc
    have hLt := h t old hpc
    have hEq := hCount t old hpc
    omega

-- ---------------------------------------------------------------------------
-- Polling
-- ---------------------------------------------------------------------------

/-- A consumer that has called `pop` on the new queue `n` times. -/
def polled (n : Nat) : State Unit α :=
  { init Unit α with
    count := Function.update (init Unit α).count 1 ⟨-n, 2⟩
    counter := Function.update (init Unit α).counter .head ⟨n + 1, 1⟩
    external := Function.update (init Unit α).external 1
      (Function.update ((init Unit α).external 1) .head (some (n + 1)))
    pc := fun _ => .idle (if n = 0 then Option.none else some (.popped Option.none)) }

/-- The run of a thread that calls `pop` on an empty queue `n` times. -/
theorem polled_reachable (n : Nat) : (system Unit α).Reachable (polled n) := by
  induction n with
  | zero =>
    have hInit : (polled 0 : State Unit α) = init Unit α := by
      simp [polled, init]
    rw [hInit]
    exact .init
  | succ n ih =>
    have hTaken := ((ih.act (.callPop ()) trivial rfl).act (.run () false 0) trivial rfl).act
      (.run () false 0) trivial (congrArg some (if_pos rfl))
    have hRelease := (hTaken.act (.run () false 0) trivial rfl).act (.run () false 0) trivial rfl
    -- the pointer of `tail` keeps the node
    have hKept : ¬ (-(n : Int) - 1 = 0 ∧ (2 : Fin 4) = 0) := fun h => absurd h.2 (by decide)
    refine hRelease.act (.run () false 0) trivial
      (Eq.trans (if_pos rfl) (congrArg some ((if_neg hKept).trans ?_)))
    have hCount : (-1 : Int) + -n = -n - 1 := by omega
    simp [State.resume, State.setPc, polled, init, hCount]
    exact funext fun _ => Function.update_self ..

end EmbLinux.DesignLockFree.Queue

-- ---------------------------------------------------------------------------
-- Both containers
-- ---------------------------------------------------------------------------

namespace EmbLinux.DesignLockFree

/-- **The external counts**, for any number of threads and runs of any length: no increment
goes beyond the largest `int` in exactly those states in which each thread that is about to
make one has loaded a pointer that had, until then, fewer turns than an `int` can count. -/
theorem external_counts_bounded (τ α : Type*) [DecidableEq τ] :
    (∀ x, (Stack.counted τ α).Reachable x → (Stack.NoOverflow x.1 ↔ Stack.FewUses x)) ∧
      ∀ x, (Queue.counted τ α).Reachable x → (Queue.NoOverflow x.1 ↔ Queue.FewUses x) :=
  ⟨fun _ => Stack.noOverflow_iff, fun _ => Queue.noOverflow_iff⟩

/-- A consumer that has polled an empty stack and an empty queue once and calls `pop`
again. -/
theorem external_counts_bounded_polled_once :
    (∃ x, (Stack.counted Unit Nat).Reachable x ∧ x.1.pc () = .popIncrease ⟨1, 0⟩ ∧
      Stack.NoOverflow x.1) ∧
    ∃ x, (Queue.counted Unit Nat).Reachable x ∧ x.1.pc () = .popIncrease ⟨2, 1⟩ ∧
      Queue.NoOverflow x.1 := by
  obtain ⟨x, hx, hpc, hLoaded⟩ := System.exists_reachable_of_exec (S := Stack.counted Unit Nat)
    (p := fun x => x.1.pc () = .popIncrease ⟨1, 0⟩ ∧ x.2.loaded () = 1)
    [.callPop (), .run () false 0, .run () false 0, .callPop (), .run () false 0]
    (by decide +kernel)
  obtain ⟨y, hy, hpc', hLoaded'⟩ := System.exists_reachable_of_exec (S := Queue.counted Unit Nat)
    (p := fun y => y.1.pc () = .popIncrease ⟨2, 1⟩ ∧ y.2.loaded () = 1)
    (.callPop () :: List.replicate 5 (.run () false 0) ++ [.callPop (), .run () false 0])
    (by decide +kernel)
  refine ⟨⟨x, hx, hpc, ((external_counts_bounded Unit Nat).1 x hx).mpr ?_⟩,
    y, hy, hpc', ((external_counts_bounded Unit Nat).2 y hy).mpr ?_⟩
  · intro t old hOld
    obtain rfl := Stack.Pc.popIncrease.inj (hpc.symm.trans hOld)
    rw [hLoaded]
    decide
  · intro t old _
    rw [hLoaded']
    decide

/-- A consumer that polls an empty stack, or an empty queue, until the count is the
largest `int`: the next `pop` is about to add 1 to it. -/
theorem polling_overflows :
    (∃ s, (Stack.system Unit Nat).Reachable s ∧ s.pc () = .popIncrease ⟨2 ^ 31 - 1, 0⟩ ∧
      ¬ Stack.NoOverflow s) ∧
    ∃ s, (Queue.system Unit Nat).Reachable s ∧ s.pc () = .popIncrease ⟨2 ^ 31 - 1, 1⟩ ∧
      ¬ Queue.NoOverflow s := by
  have hStack := ((Stack.polled_reachable (α := Nat) (2 ^ 31 - 1)).act (.callPop ()) trivial
    rfl).act (.run () false 0) trivial rfl
  have hQueue := ((Queue.polled_reachable (α := Nat) (2 ^ 31 - 2)).act (.callPop ()) trivial
    rfl).act (.run () false 0) trivial rfl
  refine ⟨⟨_, hStack, rfl, ?_⟩, _, hQueue, rfl, ?_⟩
  · intro h
    exact absurd (h () _ rfl) (by decide)
  · intro h
    exact absurd (h () _ rfl) (by decide)

end EmbLinux.DesignLockFree
