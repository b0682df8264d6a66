import EmbLinux.Lib.Linearizable
import EmbLinux.LockFreeStack.Contract

/-!
# EmbLinux — `LockFreeStack` as a bounded stack

A call of `push` that finds `m_free_head` empty returns false, "if the stack is full".
But a call owns its node between its two loops, and then the node is on neither chain:
a `pop` that has its value already keeps its node away from the next `push`.

`stack_linearizable` says that the stack is linearizable to a stack of `Capacity`
elements in every run in which a `push` finds the free chain empty only while no call
owns a node, and `stack_not_linearizable` is a run with one node and three threads.

## Results

* `not_full_of_owned` — while a call owns a node there is room for a value, so a refusal then is
  one that a bounded stack cannot give.
* `run_moves`, `call_moves` — the step lemma.
* `stack_linearizable` — for every capacity, under the condition that no tag repeats as well.
-/

namespace EmbLinux.LockFreeStack

variable {τ α : Type*} [DecidableEq τ] {s s' : State τ α} {a : Action τ α} {t : τ}
  {Capacity : Nat} {l : Head → List Nat} {q q' : Lifo (Numbered α)}

-- ---------------------------------------------------------------------------
-- The abstract stack and the calls
-- ---------------------------------------------------------------------------

/-- A stack of at most `Capacity` elements: `push` returns false exactly when it holds
so many, `pop` returns `std::nullopt` exactly when it holds none. -/
def boundedStack (α : Type*) (Capacity : Nat) : Object (Call α) (Ret α) (List α) where
  init := []
  apply
    | [], .pop => ([], .popped none)
    | v :: rest, .pop => (rest, .popped (some v))
    | q, .push v => if q.length < Capacity then (v :: q, .pushed true) else (q, .pushed false)

/-- Values without the numbers that history adds. -/
def Call.plain : Call (Numbered α) → Call α
  | .pop => .pop
  | .push value => .push value.2

/-- An answer without the number of the value. -/
def Ret.plain : Ret (Numbered α) → Ret α
  | .popped result => .popped (result.map Prod.snd)
  | .pushed ok => .pushed ok

/-- The call that begins with an action. -/
def calls : Action τ α → Option (τ × Call α)
  | .callPop t => some (t, .pop)
  | .callPush t value => some (t, .push value)
  | .run _ _ => none

/-- The return value with which a step ends a call. -/
def rets (_ : State τ α) : Action τ α → State τ α → Option (τ × Ret α)
  | .run t _, s' =>
    match s'.pc t with
    | .idle (some ret) => some (t, ret.plain)
    | _ => none
  | _, _ => none

/-- A `pop` has its effect when it takes a node off `m_head`, a `push` when it puts one
there. -/
def stageAt (s : State τ α) : Pc (Numbered α) → Stage (Call α) (Ret α)
  | .idle _ => .idle
  | .takeLoad call | .takeNext call _ _ | .takeCas call _ _ _ => .pending call.plain
  | .data (.push value) _ | .putLoad (.push value) _ _ | .putStore (.push value) _ _ _ _
  | .putCas (.push value) _ _ _ _ => .pending (.push value.2)
  | pc => .done (.popped ((inHand s pc).map Prod.snd))

/-- What a thread still owes. -/
def stage (s : State τ α) (t : τ) : Stage (Call α) (Ret α) :=
  stageAt s (s.pc t)

/-- No call owns a node. -/
def NoneOwned (s : State τ α) : Prop :=
  ∀ t, owned (s.pc t) = none

/-- The step condition: a `push` that reads an empty free chain does so while no call
is between its two loops. -/
def FullWhenRefused (s : State τ α) : Action τ α → Prop
  | .run t _ => ∀ value, ReadsTake (.push value) (s.pc t) →
      (s.heads .freeHead).index = kNullIndex → NoneOwned s
  | _ => True

-- ---------------------------------------------------------------------------
-- How many elements the stack holds
-- ---------------------------------------------------------------------------

section

omit [DecidableEq τ]

/-- Where a call owns a node, the stack has room for it. -/
theorem Chains.length_lt (h : Chains Capacity s l) {i : Nat} (hOwned : owned (s.pc t) = some i) :
    (l .head).length < Capacity := by
  have hNodup : (i :: l .head).Nodup :=
    List.nodup_cons.mpr ⟨h.owned_free t i .head hOwned, (h.linked .head).nodup⟩
  have hSubset : i :: l .head ⊆ List.range Capacity := by
    intro j hj
    rcases List.mem_cons.mp hj with rfl | hj
    · exact List.mem_range.mpr (h.owned_bound t j hOwned)
    · exact List.mem_range.mpr (h.bound .head j hj)
  have hLength := (List.subperm_of_subset hNodup hSubset).length_le
  rw [List.length_range, List.length_cons] at hLength
  exact hLength

/-- All nodes are on the stack when the free chain is empty and nobody owns one. -/
theorem Chains.le_length (h : Chains Capacity s l) (hNull : (s.heads .freeHead).index = kNullIndex)
    (hNone : NoneOwned s) : Capacity ≤ (l .head).length := by
  have hFree : l .freeHead = [] := by
    have hLinked := h.linked .freeHead
    rw [hNull] at hLinked
    exact hLinked.eq_nil
  have hSubset : List.range Capacity ⊆ l .head := by
    intro i hi
    rcases h.cover i (List.mem_range.mp hi) with ⟨hd, hMem⟩ | ⟨t, ht⟩
    · cases hd with
      | head => exact hMem
      | freeHead =>
        rw [hFree] at hMem
        cases hMem
    · rw [hNone t] at ht
      cases ht
  have hLength := (List.subperm_of_subset List.nodup_range hSubset).length_le
  rwa [List.length_range] at hLength

/-- As many nodes as values. -/
theorem Matches.length_items (h : Matches Capacity s l q) : (l .head).length = q.items.length := by
  have hItems := congrArg List.length h.items
  rwa [List.length_map, List.length_map] at hItems

end

/-- The condition is what makes the answer right: while a call owns a node, the stack
holds fewer than `Capacity` elements. -/
theorem not_full_of_owned (hPos : 0 < Capacity) (hCap : Capacity ≤ kNullIndex)
    (h : (system τ α Capacity).ReachableWhere NoTagRepeat s) (hNot : ¬ NoneOwned s) :
    ∃ items, OnStack s items ∧ items.length < Capacity := by
  obtain ⟨q, -, l, hM⟩ := simulates_lifo hPos hCap h
  obtain ⟨t, ht⟩ := not_forall.mp hNot
  obtain ⟨i, hi⟩ := Option.ne_none_iff_exists'.mp ht
  exact ⟨q.items, hM.onStack, hM.length_items ▸ hM.chains.length_lt hi⟩

-- ---------------------------------------------------------------------------
-- Steps are moves of the abstract stack
-- ---------------------------------------------------------------------------

section

omit [DecidableEq τ]

/-- In its first loop a call is pending. -/
theorem stageAt_of_readsTake {call : Call (Numbered α)} {pc : Pc (Numbered α)}
    (h : ReadsTake call pc) : stageAt s pc = .pending call.plain := by
  cases pc with
  | takeLoad c =>
    obtain rfl : c = call := h
    rfl
  | takeCas c old version next =>
    obtain rfl : c = call := h
    rfl
  | _ => exact h.elim

/-- The stage of the second loop. -/
theorem stageAt_of_readsPut {call : Call (Numbered α)} {node : Nat}
    {result : Option (Numbered α)} {pc : Pc (Numbered α)} {old : TaggedIndex} {version : Nat}
    (h : ReadsPut call node result pc) :
    stageAt s (.putStore call node result old version) = stageAt s pc := by
  cases pc with
  | putLoad c i r =>
    obtain ⟨rfl, rfl, rfl⟩ := h
    cases c <;> rfl
  | putCas c i r old' version' =>
    obtain ⟨rfl, rfl, rfl⟩ := h
    cases c <;> rfl
  | _ => exact h.elim

/-- The stage of a thread is about the node that it owns. -/
theorem stageAt_congr {pc : Pc (Numbered α)}
    (hData : ∀ i, owned pc = some i → s'.data i = s.data i) : stageAt s' pc = stageAt s pc := by
  unfold stageAt
  split <;> first | rfl | rw [inHand_congr hData]

end

/-- A step changes the stage of its own thread only. -/
theorem Chains.stage_step (h : Chains Capacity s l) (he : Effect s t s') :
    stage s' = Function.update (stage s) t (stage s' t) := by
  funext u
  rcases update_at (stage s) t (stage s' t) u with ⟨rfl, hAt⟩ | ⟨hut, hAt⟩ <;> rw [hAt]
  show stageAt s' (s'.pc u) = stageAt s (s.pc u)
  rw [pc_frame he hut]
  exact stageAt_congr (h.data_of_other he hut)

/-- The items of the abstract stack. -/
def Holds (Capacity : Nat) (s : State τ α) (items : List α) : Prop :=
  ∃ q, Refines Capacity s q ∧ items = q.items.map Prod.snd

/-- A thread that makes a step is in a call. -/
theorem run_not_idle {spurious : Bool} (hst : run s t spurious = some s')
    {last : Option (Ret (Numbered α))} : s.pc t ≠ .idle last := by
  intro hpc
  simp [run, hpc] at hst

omit [DecidableEq τ] in
/-- A null head is an empty stack. -/
theorem Matches.items_eq_nil (h : Matches Capacity s l q)
    (hNull : (s.heads .head).index = kNullIndex) : q.items = [] := by
  have hLinked := h.chains.linked .head
  rw [hNull] at hLinked
  have hLength := h.length_items
  rw [hLinked.eq_nil] at hLength
  exact List.eq_nil_of_length_eq_zero hLength.symm

/-- A full stack refuses, -/
theorem boundedStack_full {items : List α} (hFull : Capacity ≤ items.length) (value : α) :
    (boundedStack α Capacity).apply items (.push value) = (items, .pushed false) := by
  cases items with
  | nil => exact if_neg (Nat.not_lt.mpr hFull)
  | cons v rest => exact if_neg (Nat.not_lt.mpr hFull)

/-- and any other one takes the value. -/
theorem boundedStack_push {items : List α} (hRoom : items.length < Capacity) (value : α) :
    (boundedStack α Capacity).apply items (.push value) = (value :: items, .pushed true) := by
  cases items with
  | nil => exact if_pos hRoom
  | cons v rest => exact if_pos hRoom

section

omit [DecidableEq τ]

/-- Between two calls nothing is owed. -/
theorem stage_of_idle {last : Option (Ret (Numbered α))} (h : s.pc t = .idle last) :
    stage s t = .idle := by
  rw [stage, h]
  rfl

/-- A call is answered when its thread is idle again, -/
theorem rets_of_idle {spurious : Bool} {ret : Ret (Numbered α)}
    (h : s'.pc t = .idle (some ret)) : rets s (.run t spurious) s' = some (t, ret.plain) := by
  simp only [rets, h]

/-- and not before. -/
theorem rets_of_busy {spurious : Bool} {pc : Pc (Numbered α)} (h : s'.pc t = pc)
    (hBusy : ∀ last, pc ≠ .idle last) : rets s (.run t spurious) s' = none := by
  simp only [rets, h]
  split
  · next ret => exact absurd rfl (hBusy (some ret))
  · rfl

end

/-- The step lemma: an access is a move of the abstract stack. -/
theorem run_moves {spurious : Bool} {items : List α} (hHolds : Holds Capacity s items)
    (hFresh : TagFresh s t) (hFull : FullWhenRefused s (.run t spurious))
    (hst : run s t spurious = some s') :
    ∃ items', Holds Capacity s' items' ∧
      Moves (boundedStack α Capacity) (stage s) items none (rets s (.run t spurious) s')
        (stage s') items' := by
  obtain ⟨q, ⟨l, hM⟩, rfl⟩ := hHolds
  have he := run_effect hst
  obtain ⟨q', hExec, hRefines⟩ := refines_ops hM he hFresh
  have hStage := hM.chains.stage_step he
  -- the accesses that neither have an effect nor end the call
  have hStay : ∀ {pc : Pc (Numbered α)}, s'.pc t = pc → stackOps (s.pc t) pc = [] →
      (∀ last, pc ≠ .idle last) → stageAt s' pc = stageAt s (s.pc t) →
      ∃ items', Holds Capacity s' items' ∧
        Moves (boundedStack α Capacity) (stage s) (q.items.map Prod.snd) none
          (rets s (.run t spurious) s') (stage s') items' := by
    intro pc hPc hOps hBusy hSame
    rw [hPc, hOps] at hExec
    cases Option.some.inj hExec
    refine ⟨_, ⟨q, hRefines, rfl⟩, ?_⟩
    have hRets : rets s (.run t spurious) s' = none := rets_of_busy hPc hBusy
    have hEq : stage s' = stage s := by
      rw [hStage]
      show Function.update (stage s) t (stageAt s' (s'.pc t)) = stage s
      rw [hPc, hSame]
      exact Function.update_eq_self t (stage s)
    rw [hRets, hEq]
    exact .stay
  cases he with
  | callPop hpc => exact absurd hpc (run_not_idle hst)
  | callPush hpc => exact absurd hpc (run_not_idle hst)
  | @load call hpc hNode =>
    exact hStay (Function.update_self ..) (stackOps_of_readsTake hpc rfl)
      (fun _ hEq => by cases hEq) (stageAt_of_readsTake hpc).symm
  | next hpc =>
    exact hStay (Function.update_self ..) (by rw [hpc]; rfl) (fun _ hEq => by cases hEq)
      (by rw [hpc]; rfl)
  | takePush hpc hHead =>
    exact hStay (Function.update_self ..) (by rw [hpc]; rfl) (fun _ hEq => by cases hEq)
      (by rw [hpc]; rfl)
  | moveOut hpc =>
    exact hStay (Function.update_self ..) (by rw [hpc]; rfl) (fun _ hEq => by cases hEq)
      (by rw [hpc]; rfl)
  | moveIn hpc =>
    exact hStay (Function.update_self ..) (by rw [hpc]; rfl) (fun _ hEq => by cases hEq)
      (by rw [hpc]; rfl)
  | clear hpc =>
    exact hStay (Function.update_self ..) (by rw [hpc]; rfl) (fun _ hEq => by cases hEq)
      (by rw [hpc]; rfl)
  | @reload call node result hpc =>
    exact hStay (Function.update_self ..) (stackOps_of_readsPut hpc (Option.some_ne_none node))
      (fun _ hEq => by cases hEq) (stageAt_of_readsPut hpc)
  | @store call node result old version hpc =>
    exact hStay (Function.update_self ..) (by rw [hpc]; rfl) (fun _ hEq => by cases hEq)
      (by rw [hpc]; cases call <;> rfl)
  | @refuse call hpc hNull =>
    -- the call takes effect and ends at the load of a null head
    have hPending : stage s t = .pending call.plain := stageAt_of_readsTake hpc
    have hItems : (boundedStack α Capacity).apply (q.items.map Prod.snd) call.plain =
        (q.items.map Prod.snd, call.refuse.plain) := by
      cases call with
      | pop =>
        rw [hM.items_eq_nil hNull]
        rfl
      | push value =>
        have hLength := hM.chains.le_length hNull (hFull value hpc hNull)
        rw [hM.length_items] at hLength
        exact boundedStack_full (by rw [List.length_map]; exact hLength) value.2
    have hOps : stackOps (s.pc t) (Function.update s.pc t (.idle (some call.refuse)) t) = [] := by
      rw [Function.update_self]
      exact stackOps_of_readsTake hpc rfl
    cases Option.some.inj (hOps ▸ hExec)
    refine ⟨_, ⟨q, hRefines, rfl⟩, ?_⟩
    have hMove := Moves.effect_ret (O := boundedStack α Capacity) (q := q.items.map Prod.snd)
      hPending
    rw [hItems] at hMove
    rw [hStage, stage_of_idle (Function.update_self ..), rets_of_idle (Function.update_self ..)]
    exact hMove
  | @takePop old version next hpc hHead =>
    -- the exchange of `pop` on `m_head`
    obtain ⟨rest, hl, -⟩ := hM.chains.front_of_cas hpc hFresh hHead
    obtain ⟨x, items, hItems, hTop, -⟩ := hM.top hl
    rw [hpc, show stackOps _ _ = [.pop] from congrArg _ (Function.update_self ..),
      Lifo.exec_pop hItems] at hExec
    cases Option.some.inj hExec
    refine ⟨_, ⟨_, hRefines, rfl⟩, ?_⟩
    have hPending : stage s t = .pending .pop := by
      rw [stage, hpc]
      rfl
    have hMove := Moves.effect_only (O := boundedStack α Capacity) (q := q.items.map Prod.snd)
      hPending
    rw [hItems] at hMove ⊢
    have hTaken : stage { (s.exchange .head next).setPc t (.data .pop old.index) with
        popped := s.popped ++ (s.data old.index).toList } t = .done (.popped (some x.2)) := by
      show stageAt _ (Function.update s.pc t _ t) = _
      rw [Function.update_self]
      show Stage.done (Ret.popped ((s.data old.index).map Prod.snd)) = _
      rw [hTop]
      rfl
    rw [hStage, hTaken]
    rw [show rets s _ _ = none from rets_of_busy (Function.update_self ..) fun _ hEq => by
      cases hEq]
    exact hMove
  | @putPop node result old version hpc hHead =>
    -- the call has its value already
    rw [hpc, show stackOps _ _ = [] from congrArg _ (Function.update_self ..)] at hExec
    cases Option.some.inj hExec
    refine ⟨_, ⟨q, hRefines, rfl⟩, ?_⟩
    have hDone : stage s t = .done (.popped (result.map Prod.snd)) := by
      rw [stage, hpc]
      rfl
    rw [hStage, stage_of_idle (Function.update_self ..), rets_of_idle (Function.update_self ..)]
    exact .ret hDone
  | @putPush value node result old version hpc hHead =>
    -- the exchange of `push` on `m_head`
    have hRoom := hM.chains.length_lt (t := t) (i := node) (by rw [hpc]; rfl)
    rw [hM.length_items, ← List.length_map (f := Prod.snd)] at hRoom
    rw [hpc, show stackOps _ _ = [.push value] from congrArg _ (Function.update_self ..),
      Lifo.exec_push] at hExec
    cases Option.some.inj hExec
    refine ⟨_, ⟨_, hRefines, rfl⟩, ?_⟩
    have hPending : stage s t = .pending (.push value.2) := by
      rw [stage, hpc]
      rfl
    have hMove := Moves.effect_ret (O := boundedStack α Capacity) (q := q.items.map Prod.snd)
      hPending
    rw [boundedStack_push hRoom] at hMove
    rw [hStage, stage_of_idle (Function.update_self ..), rets_of_idle (Function.update_self ..)]
    exact hMove

/-- A call is a call of the object. -/
theorem call_moves (call : Call (Numbered α)) {last : Option (Ret (Numbered α))} {items : List α}
    {answer : Option (τ × Ret α)} (hHolds : Holds Capacity s items) (hpc : s.pc t = .idle last)
    (he : Effect s t s') (hPc : s'.pc t = .takeLoad call) :
    ∃ items', Holds Capacity s' items' ∧
      Moves (boundedStack α Capacity) (stage s) items (some (t, call.plain)) answer
        (stage s') items' := by
  obtain ⟨q, ⟨l, hM⟩, rfl⟩ := hHolds
  have hFresh : TagFresh s t := by
    intro call' old version next hTake
    rw [hpc] at hTake
    cases hTake
  obtain ⟨q', hExec, hRefines⟩ := refines_ops hM he hFresh
  rw [hpc, hPc] at hExec
  cases Option.some.inj hExec
  refine ⟨_, ⟨q, hRefines, rfl⟩, ?_⟩
  have hStage : stage s' t = .pending call.plain := by
    rw [stage, hPc]
    rfl
  rw [hM.chains.stage_step he, hStage]
  exact .call (stage_of_idle hpc)

/-- **Linearizability**, for every capacity that `uint32_t` indices have room for, any number of
threads and every interleaving in which no tag repeats and no `push` finds the free chain empty
while a call owns a node. The second condition excludes a `push` that returns false although
fewer than `Capacity` values are in the stack (`stack_not_linearizable`). -/
theorem stack_linearizable {x : State τ α × Record τ (Call α) (Ret α)} (hPos : 1 ≤ Capacity)
    (hCap : Capacity ≤ 2 ^ 32 - 1)
    (h : ((system τ α Capacity).recorded calls rets).ReachableWhere
      (fun x a => NoTagRepeat x.1 a ∧ FullWhenRefused x.1 a) x) :
    (boundedStack α Capacity).Linearizable x.2.history := by
  refine recorded_linearizable (fun s a => NoTagRepeat s a ∧ FullWhenRefused s a) stage
    (Holds Capacity) ?_ (fun _ => rfl) ?_ h
  · exact ⟨_, matches_init hPos hCap, rfl⟩
  · rintro s a s' items - hHolds hok hst
    cases a with
    | callPop t =>
      simp only [system, step] at hst
      split at hst <;> cases hst
      next last hpc =>
        exact call_moves .pop hHolds hpc (.callPop hpc) (Function.update_self ..)
    | callPush t value =>
      simp only [system, step] at hst
      split at hst <;> cases hst
      next last hpc =>
        exact call_moves (.push (s.calls, value)) hHolds hpc (.callPush hpc)
          (Function.update_self ..)
    | run t spurious => exact run_moves hHolds hok.1 hok.2 hst

/-- The step condition as a check, for two threads. -/
def refusedWhenFull (s : State Bool Nat) : Action Bool Nat → Bool
  | .run t _ =>
    match s.pc t with
    | .takeLoad (.push _) | .takeCas (.push _) _ _ _ =>
      (s.heads .freeHead).index != kNullIndex ||
        ((owned (s.pc false)).isNone && (owned (s.pc true)).isNone)
    | _ => true
  | _ => true

/-- What is evaluated is enough for both conditions. -/
theorem fullWhenRefused_of_check (s : State Bool Nat) (a : Action Bool Nat)
    (h : (expectedIsCurrent s a && refusedWhenFull s a) = true) :
    NoTagRepeat s a ∧ FullWhenRefused s a := by
  obtain ⟨hCurrent, hCheck⟩ := Bool.and_eq_true_iff.mp h
  refine ⟨noTagRepeat_of_current s a hCurrent, ?_⟩
  cases a with
  | run t spurious =>
    intro value hReads hNull u
    have hNone : owned (s.pc false) = none ∧ owned (s.pc true) = none := by
      cases hpc : s.pc t with
      | takeLoad call =>
        rw [hpc] at hReads
        obtain rfl : call = .push value := hReads
        simpa [refusedWhenFull, hpc, hNull] using hCheck
      | takeCas call old version next =>
        rw [hpc] at hReads
        obtain rfl : call = .push value := hReads
        simpa [refusedWhenFull, hpc, hNull] using hCheck
      | _ =>
        rw [hpc] at hReads
        exact hReads.elim
    cases u
    · exact hNone.1
    · exact hNone.2
  | _ => trivial

/-- Two threads on two nodes: two pushes, a third one that is refused, a `pop`. -/
theorem stack_linearizable_two :
    ∃ x : State Bool Nat × Record Bool (Call Nat) (Ret Nat),
      ((system Bool Nat 2).recorded calls rets).ReachableWhere
        (fun x a => NoTagRepeat x.1 a ∧ FullWhenRefused x.1 a) x ∧
      x.2.history = [.call 0 (.push 7), .call 1 (.push 8), .ret 1 (.pushed true),
        .ret 0 (.pushed true), .call 2 (.push 9), .ret 2 (.pushed false), .call 3 .pop,
        .ret 3 (.popped (some 7))] ∧
      (boundedStack Nat 2).Linearizable x.2.history := by
  obtain ⟨x, hx, hp⟩ := System.exists_reachableWhere_of_exec
    (S := (system Bool Nat 2).recorded calls rets)
    (p := fun x => x.2.history = [.call 0 (.push 7), .call 1 (.push 8), .ret 1 (.pushed true),
      .ret 0 (.pushed true), .call 2 (.push 9), .ret 2 (.pushed false), .call 3 .pop,
      .ret 3 (.popped (some 7))])
    (c := fun x a => expectedIsCurrent x.1 a && refusedWhenFull x.1 a)
    (fun x a => fullWhenRefused_of_check x.1 a)
    ([Action.callPush false 7] ++ List.replicate 4 (Action.run false false) ++
      [Action.callPush true 8] ++ List.replicate 7 (Action.run true false) ++
      List.replicate 3 (Action.run false false) ++ [Action.callPush true 9, Action.run true false,
      Action.callPop true] ++ List.replicate 8 (Action.run true false))
    (by decide +kernel)
  exact ⟨x, hx, hp, stack_linearizable (by decide) (by decide) hx⟩

/-- `pop` leaves an empty stack empty. -/
theorem foldl_pop {log : List (Entry (Call α) (Ret α))} (h : ∀ e ∈ log, e.op = .pop) :
    log.foldl (fun q e => ((boundedStack α Capacity).apply q e.op).1) [] = [] := by
  induction log with
  | nil => rfl
  | cons e log ih =>
    rw [List.foldl_cons, h e List.mem_cons_self]
    exact ih fun e' he' => h e' (List.mem_cons_of_mem _ he')

/-- One node: a `pop` has taken it off `m_head` and not put it to `m_free_head` yet. The
next `pop` returns `std::nullopt`, and then a `push` returns false. -/
theorem stack_not_linearizable :
    ∃ x : State Bool Nat × Record Bool (Call Nat) (Ret Nat),
      ((system Bool Nat 1).recorded calls rets).ReachableWhere (fun x a => NoTagRepeat x.1 a) x ∧
      (∀ t, ∃ last, x.1.pc t = .idle last) ∧ ¬ (boundedStack Nat 1).Linearizable x.2.history := by
  obtain ⟨x, hx, hIdle, hHistory⟩ := System.exists_reachableWhere_of_exec
    (S := (system Bool Nat 1).recorded calls rets)
    (p := fun x => (x.1.pc false = .idle (some (.pushed false)) ∧
      x.1.pc true = .idle (some (.popped (some (0, 7))))) ∧
      x.2.history = [.call 0 (.push 7), .ret 0 (.pushed true), .call 1 .pop, .call 2 .pop,
        .ret 2 (.popped none), .call 3 (.push 8), .ret 3 (.pushed false),
        .ret 1 (.popped (some 7))])
    (fun x a => noTagRepeat_of_current x.1 a)
    ([Action.callPush false 7] ++ List.replicate 7 (Action.run false false) ++
      [Action.callPop true] ++ List.replicate 3 (Action.run true false) ++ [Action.callPop false,
      Action.run false false, Action.callPush false 8, Action.run false false] ++
      List.replicate 5 (Action.run true false))
    (by decide +kernel)
  refine ⟨x, hx, ?_, ?_⟩
  · intro t
    cases t
    · exact ⟨_, hIdle.1⟩
    · exact ⟨_, hIdle.2⟩
  rw [hHistory]
  rintro ⟨log, hLog⟩
  obtain ⟨e₃, he₃, hId₃, hResult₃⟩ := hLog.answered 3 (.pushed false) (by simp)
  obtain ⟨e₂, he₂, hId₂, hResult₂⟩ := hLog.answered 2 (.popped none) (by simp)
  obtain ⟨e, hId, hPair⟩ := hLog.realTime 2 (.popped none) 3 (.push 8) (by decide) e₃ he₃ hId₃
  obtain rfl : e = e₂ := hLog.eq_of_id (hPair.subset List.mem_cons_self) he₂ (hId.trans hId₂.symm)
  obtain ⟨e₀, hId₀, hFirst⟩ := hLog.realTime 0 (.pushed true) 2 .pop (by decide) e he₂ hId₂
  obtain ⟨before, between, rest, rfl⟩ := split_of_pair hPair
  have hNodup := hLog.once.of_map
  -- between the two answers there is nothing in the order but the other `pop`
  have hPop : ∀ e' ∈ between, e'.op = .pop := by
    intro e' he'
    have hMem : e' ∈ before ++ e :: (between ++ e₃ :: rest) := by simp [he']
    have hAfter : [e, e'].Sublist (before ++ e :: (between ++ e₃ :: rest)) :=
      List.Sublist.trans (List.Sublist.cons_cons e (List.singleton_sublist.mpr (by simp [he'])))
        (List.sublist_append_right before _)
    have hCalled := hLog.called e' hMem
    simp only [List.mem_cons, Event.call.injEq, reduceCtorEq, List.not_mem_nil, or_false,
      false_or] at hCalled
    rcases hCalled with ⟨hId', -⟩ | ⟨-, hOp⟩ | ⟨-, hOp⟩ | ⟨hId', -⟩
    · -- the first `push` was answered before the second `pop` was called
      obtain rfl : e' = e₀ :=
        hLog.eq_of_id hMem (hFirst.subset List.mem_cons_self) (hId'.trans hId₀.symm)
      exact absurd hAfter (not_sublist_swap hNodup hFirst)
    · exact hOp
    · exact hOp
    · obtain rfl : e' = e₃ := hLog.eq_of_id hMem he₃ (hId'.trans hId₃.symm)
      have hTail := (List.nodup_cons.mp (List.nodup_append'.mp hNodup).2.1).2
      exact absurd List.mem_cons_self (List.disjoint_left.mp (List.nodup_append'.mp hTail).2.2 he')
  have hOp : e.op = .pop := by
    have hCalled := hLog.called e he₂
    rw [hId₂] at hCalled
    simpa using hCalled
  have hOp₃ : e₃.op = .push 8 := by
    have hCalled := hLog.called e₃ he₃
    rw [hId₃] at hCalled
    simpa using hCalled
  have hEmpty : (boundedStack Nat 1).after before = [] := by
    have hLegal := hLog.legal before e _ rfl
    rw [hResult₂, hOp] at hLegal
    cases hAfter : (boundedStack Nat 1).after before with
    | nil => rfl
    | cons v items =>
      rw [hAfter] at hLegal
      cases hLegal
  have hStill : (boundedStack Nat 1).after (before ++ e :: between) = [] := by
    rw [Object.after, List.foldl_append, ← Object.after, hEmpty]
    refine foldl_pop ?_
    intro e' he'
    rcases List.mem_cons.mp he' with rfl | he'
    · exact hOp
    · exact hPop e' he'
  have hLegal := hLog.legal (before ++ e :: between) e₃ rest (by simp)
  rw [hResult₃, hOp₃, hStill] at hLegal
  cases hLegal

end EmbLinux.LockFreeStack
