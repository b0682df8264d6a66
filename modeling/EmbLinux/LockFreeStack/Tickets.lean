import EmbLinux.LockFreeStack.Values

/-!
# EmbLinux — each pushed value is returned at most once

* `PushTickets` — the numbers of the `push` calls identify the values;
* `PopTickets` — a value that was taken off the stack is in the hands of one
  `pop`, or was returned, once.
-/

namespace EmbLinux.LockFreeStack

variable {τ α : Type*} [DecidableEq τ] {s s' : State τ α} {a : Action τ α} {t : τ}
  {Capacity : Nat} {l : Head → List Nat} {q : Lifo (Numbered α)}

-- ---------------------------------------------------------------------------
-- The numbers of the pushes
-- ---------------------------------------------------------------------------

/-- The value that a call brings. -/
def Call.value : Call α → Option α
  | .pop => none
  | .push value => some value

/-- The value of a running `push`. -/
def pending : Pc α → Option α
  | .takeLoad call | .takeNext call _ _ | .takeCas call _ _ _ | .data call _ | .putLoad call _ _
  | .putStore call _ _ _ _ | .putCas call _ _ _ _ => call.value
  | _ => none

/-- It is on its way in the first loop, -/
theorem pending_of_readsTake {call : Call α} {pc : Pc α} (h : ReadsTake call pc) :
    pending pc = call.value := by
  cases pc <;> first | exact h.elim | exact congrArg Call.value h

/-- and in the second one. -/
theorem pending_of_readsPut {call : Call α} {node : Nat} {result : Option α} {pc : Pc α}
    (h : ReadsPut call node result pc) : pending pc = call.value := by
  cases pc <;> first | exact h.elim | exact congrArg Call.value h.1

/-- Each value has its own number, from its call on. -/
structure PushTickets (s : State τ α) : Prop where
  /-- No number is pushed twice. -/
  pushed_nodup : (s.pushed.map Prod.fst).Nodup
  pushed_lt : ∀ x ∈ s.pushed, x.1 < s.calls
  pending_lt : ∀ t x, pending (s.pc t) = some x → x.1 < s.calls
  /-- The number of a running `push` was not pushed before, -/
  pending_new : ∀ t x, pending (s.pc t) = some x → x.1 ∉ s.pushed.map Prod.fst
  /-- and no other call has it. -/
  pending_inj : ∀ t t' x y, pending (s.pc t) = some x → pending (s.pc t') = some y → x.1 = y.1 →
    t = t'

omit [DecidableEq τ] in
/-- No call yet. -/
theorem pushTickets_init : PushTickets (init τ α Capacity) where
  pushed_nodup := List.nodup_nil
  pushed_lt := by simp [init]
  pending_lt := by simp [init, pending]
  pending_new := by simp [init, pending]
  pending_inj := by simp [init, pending]

/-- A step that brings no value and puts none to the stack. -/
theorem PushTickets.move (h : PushTickets s) {pc : Pc (Numbered α)}
    (hPc : s'.pc = Function.update s.pc t pc) (hPushed : s'.pushed = s.pushed)
    (hCalls : s'.calls = s.calls)
    (hPending : ∀ x, pending pc = some x → pending (s.pc t) = some x) :
    PushTickets s' := by
  have hBack : ∀ u x, pending (s'.pc u) = some x → pending (s.pc u) = some x := by
    intro u x hu
    rcases update_cases hPc u with ⟨rfl, hAt⟩ | ⟨-, hAt⟩ <;> rw [hAt] at hu
    · exact hPending x hu
    · exact hu
  refine ⟨?_, ?_, ?_, ?_, ?_⟩
  · rw [hPushed]
    exact h.pushed_nodup
  · rw [hPushed, hCalls]
    exact h.pushed_lt
  · intro u x hu
    rw [hCalls]
    exact h.pending_lt u x (hBack u x hu)
  · intro u x hu
    rw [hPushed]
    exact h.pending_new u x (hBack u x hu)
  · intro u u' x y hu hu'
    exact h.pending_inj u u' x y (hBack u x hu) (hBack u' y hu')

/-- A new call takes the next number. -/
theorem PushTickets.call (h : PushTickets s) {value : α} :
    PushTickets { s.setPc t (.takeLoad (.push (s.calls, value))) with calls := s.calls + 1 } := by
  -- the value of a running `push` is the new one, or an old one of another thread
  have hCases : ∀ u x, pending (Function.update s.pc t (.takeLoad (.push (s.calls, value))) u) =
      some x → (u = t ∧ x = (s.calls, value)) ∨ (u ≠ t ∧ pending (s.pc u) = some x) := by
    intro u x hu
    rcases update_at s.pc t _ u with ⟨hut, hAt⟩ | ⟨hut, hAt⟩ <;> rw [hAt] at hu
    · exact Or.inl ⟨hut, (Option.some.inj hu).symm⟩
    · exact Or.inr ⟨hut, hu⟩
  refine ⟨h.pushed_nodup, ?_, ?_, ?_, ?_⟩
  · intro x hx
    exact Nat.lt_succ_of_lt (h.pushed_lt x hx)
  · intro u x hu
    rcases hCases u x hu with ⟨-, rfl⟩ | ⟨-, hu⟩
    · exact Nat.lt_succ_self _
    · exact Nat.lt_succ_of_lt (h.pending_lt u x hu)
  · intro u x hu hMem
    rcases hCases u x hu with ⟨-, rfl⟩ | ⟨-, hu⟩
    · obtain ⟨y, hy, hEq⟩ := List.mem_map.mp hMem
      have := h.pushed_lt y hy
      rw [hEq] at this
      exact Nat.lt_irrefl _ this
    · exact h.pending_new u x hu hMem
  · intro u u' x y hu hu' hEq
    rcases hCases u x hu with ⟨hut, rfl⟩ | ⟨-, hu⟩ <;>
      rcases hCases u' y hu' with ⟨hut', rfl⟩ | ⟨-, hu'⟩
    · rw [hut, hut']
    · have := h.pending_lt u' y hu'
      rw [← hEq] at this
      exact absurd this (Nat.lt_irrefl _)
    · have := h.pending_lt u x hu
      rw [hEq] at this
      exact absurd this (Nat.lt_irrefl _)
    · exact h.pending_inj u u' x y hu hu' hEq

/-- The exchange of a `push` moves its value to the stack. -/
theorem PushTickets.push (h : PushTickets s) {value : Numbered α} {pc : Pc (Numbered α)}
    (hHere : pending (s.pc t) = some value) (hPc : s'.pc = Function.update s.pc t pc)
    (hPushed : s'.pushed = s.pushed ++ [value]) (hCalls : s'.calls = s.calls)
    (hNone : pending pc = none) : PushTickets s' := by
  have hBack : ∀ u x, pending (s'.pc u) = some x → u ≠ t ∧ pending (s.pc u) = some x := by
    intro u x hu
    rcases update_cases hPc u with ⟨-, hAt⟩ | ⟨hut, hAt⟩ <;> rw [hAt] at hu
    · exact absurd (hNone.symm.trans hu).symm (Option.some_ne_none x)
    · exact ⟨hut, hu⟩
  have hMem : ∀ n, n ∈ s'.pushed.map Prod.fst → n ∈ s.pushed.map Prod.fst ∨ n = value.1 := by
    intro n hn
    rw [hPushed, List.map_append] at hn
    exact (List.mem_append.mp hn).imp_right List.mem_singleton.mp
  refine ⟨?_, ?_, ?_, ?_, ?_⟩
  · -- the number was not pushed before
    rw [hPushed, List.map_append]
    refine List.Nodup.append h.pushed_nodup (List.nodup_singleton _) ?_
    intro n hn hn'
    rw [List.map_singleton, List.mem_singleton] at hn'
    exact h.pending_new t value hHere (hn' ▸ hn)
  · intro x hx
    rw [hPushed] at hx
    rw [hCalls]
    rcases List.mem_append.mp hx with hx | hx
    · exact h.pushed_lt x hx
    · rw [List.mem_singleton.mp hx]
      exact h.pending_lt t value hHere
  · intro u x hu
    rw [hCalls]
    exact h.pending_lt u x (hBack u x hu).2
  · -- nor is it that of another running `push`
    intro u x hu hn
    obtain ⟨hut, hu⟩ := hBack u x hu
    rcases hMem _ hn with hn | hn
    · exact h.pending_new u x hu hn
    · exact hut (h.pending_inj u t x value hu hHere hn)
  · intro u u' x y hu hu'
    exact h.pending_inj u u' x y (hBack u x hu).2 (hBack u' y hu').2

/-- A case for each effect. -/
theorem pushTickets_effect (h : PushTickets s) (he : Effect s t s') : PushTickets s' := by
  cases he with
  | callPush => exact h.call
  | putPush hpc hHead => exact h.push (by rw [hpc]; rfl) rfl rfl rfl rfl
  | load hpc hNode => exact h.move rfl rfl rfl fun x hx => by rwa [pending_of_readsTake hpc]
  | reload hpc => exact h.move rfl rfl rfl fun x hx => by rwa [pending_of_readsPut hpc]
  | next hpc => exact h.move rfl rfl rfl fun x hx => by rwa [hpc]
  | takePop hpc hHead => exact h.move rfl rfl rfl fun x hx => by cases hx
  | takePush hpc hHead => exact h.move rfl rfl rfl fun x hx => by rwa [hpc]
  | moveIn hpc => exact h.move rfl rfl rfl fun x hx => by rwa [hpc]
  | store hpc => exact h.move rfl rfl rfl fun x hx => by rwa [hpc]
  | _ => exact h.move rfl rfl rfl fun x hx => by cases hx

/-- In every state. -/
theorem pushTickets (h : (system τ α Capacity).Reachable s) : PushTickets s := by
  refine h.invariant (I := PushTickets) pushTickets_init ?_
  intro s a s' _ hI _ hst
  obtain ⟨t, he, -⟩ := step_effect hst
  exact pushTickets_effect hI he

-- ---------------------------------------------------------------------------
-- The values that were taken
-- ---------------------------------------------------------------------------

/-- A value that was taken off is with one call until it is returned, and is returned once. -/
structure PopTickets (s : State τ α) : Prop where
  /-- What a `pop` has in hand was taken off the stack, -/
  hand_popped : ∀ t x, inHand s (s.pc t) = some x → x ∈ s.popped
  /-- has not been returned, -/
  hand_new : ∀ t x, inHand s (s.pc t) = some x → x ∉ s.returned
  /-- and is with this call only. -/
  hand_inj : ∀ t t' x, inHand s (s.pc t) = some x → inHand s (s.pc t') = some x → t = t'
  returned_popped : ∀ x ∈ s.returned, x ∈ s.popped
  /-- Nothing is returned twice. -/
  returned_nodup : s.returned.Nodup

section

omit [DecidableEq τ]

/-- Nothing was taken off. -/
theorem popTickets_init : PopTickets (init τ α Capacity) where
  hand_popped := by simp [init, inHand]
  hand_new := by simp [init, inHand]
  hand_inj := by simp [init, inHand]
  returned_popped := by simp [init]
  returned_nodup := List.nodup_nil

/-- A call in its first loop has no value in hand, -/
theorem inHand_of_readsTake {call : Call (Numbered α)} {pc : Pc (Numbered α)}
    (h : ReadsTake call pc) : inHand s pc = none := by
  cases pc <;> first | rfl | exact h.elim

/-- and in its second loop the one of its node. -/
theorem inHand_of_readsPut {call : Call (Numbered α)} {node : Nat} {result : Option (Numbered α)}
    {old : TaggedIndex} {version : Nat} {pc : Pc (Numbered α)} (h : ReadsPut call node result pc) :
    inHand s pc = inHand s (.putStore call node result old version) := by
  cases pc with
  | putLoad c i r =>
    obtain ⟨rfl, rfl, rfl⟩ := h
    cases c <;> rfl
  | putCas c i r old' version' =>
    obtain ⟨rfl, rfl, rfl⟩ := h
    cases c <;> rfl
  | _ => exact h.elim

end

/-- A step of another thread leaves the value in the hands of a `pop`. -/
theorem Chains.inHand_of_other (h : Chains Capacity s l) (he : Effect s t s') {u : τ}
    (hut : u ≠ t) : inHand s' (s'.pc u) = inHand s (s.pc u) := by
  rw [pc_frame he hut]
  exact inHand_congr (h.data_of_other he hut)

/-- A step that neither takes a value nor returns one. -/
theorem PopTickets.move (h : PopTickets s) (hChains : Chains Capacity s l) (he : Effect s t s')
    (hHand : ∀ x, inHand s' (s'.pc t) = some x → inHand s (s.pc t) = some x)
    (hPopped : s'.popped = s.popped) (hReturned : s'.returned = s.returned) : PopTickets s' := by
  have hBack : ∀ u x, inHand s' (s'.pc u) = some x → inHand s (s.pc u) = some x := by
    intro u x hu
    by_cases hut : u = t
    · rw [hut] at hu ⊢
      exact hHand x hu
    · rwa [← hChains.inHand_of_other he hut]
  refine ⟨?_, ?_, ?_, ?_, ?_⟩
  · intro u x hu
    rw [hPopped]
    exact h.hand_popped u x (hBack u x hu)
  · intro u x hu
    rw [hReturned]
    exact h.hand_new u x (hBack u x hu)
  · intro u u' x hu hu'
    exact h.hand_inj u u' x (hBack u x hu) (hBack u' x hu')
  · rw [hPopped, hReturned]
    exact h.returned_popped
  · rw [hReturned]
    exact h.returned_nodup

/-- The exchange of a `pop` takes a value that no `pop` took before. -/
theorem PopTickets.take (h : PopTickets s) (hChains : Chains Capacity s l) (he : Effect s t s')
    {x : Numbered α} (hNew : x ∉ s.popped) (hHand : inHand s' (s'.pc t) = some x)
    (hPopped : s'.popped = s.popped ++ [x]) (hReturned : s'.returned = s.returned) :
    PopTickets s' := by
  -- the value in hand is the one taken now, or was in hand before
  have hCases : ∀ u y, inHand s' (s'.pc u) = some y →
      (u = t ∧ y = x) ∨ (u ≠ t ∧ inHand s (s.pc u) = some y) := by
    intro u y hu
    by_cases hut : u = t
    · rw [hut, hHand] at hu
      exact Or.inl ⟨hut, (Option.some.inj hu).symm⟩
    · rw [hChains.inHand_of_other he hut] at hu
      exact Or.inr ⟨hut, hu⟩
  have hOld : ∀ y ∈ s.popped, y ∈ s'.popped := by
    intro y hy
    rw [hPopped]
    exact List.mem_append_left _ hy
  refine ⟨?_, ?_, ?_, ?_, ?_⟩
  · -- the value is in the history of the exchanges
    intro u y hu
    rcases hCases u y hu with ⟨-, rfl⟩ | ⟨-, hu⟩
    · rw [hPopped]
      exact List.mem_append_right _ (List.mem_singleton_self _)
    · exact hOld y (h.hand_popped u y hu)
  · -- it was not returned, since it was not popped
    intro u y hu hy
    rw [hReturned] at hy
    rcases hCases u y hu with ⟨-, rfl⟩ | ⟨-, hu⟩
    · exact hNew (h.returned_popped y hy)
    · exact h.hand_new u y hu hy
  · -- and nobody else has it
    intro u u' y hu hu'
    rcases hCases u y hu with ⟨hut, hy⟩ | ⟨-, hu⟩ <;>
      rcases hCases u' y hu' with ⟨hut', hy'⟩ | ⟨-, hu'⟩
    · rw [hut, hut']
    · exact absurd (h.hand_popped u' y hu') (hy ▸ hNew)
    · exact absurd (h.hand_popped u y hu) (hy' ▸ hNew)
    · exact h.hand_inj u u' y hu hu'
  · intro y hy
    rw [hReturned] at hy
    exact hOld y (h.returned_popped y hy)
  · rw [hReturned]
    exact h.returned_nodup

/-- The last exchange of a `pop` gives its value to the caller. -/
theorem PopTickets.give (h : PopTickets s) (hChains : Chains Capacity s l) (he : Effect s t s')
    {x : Numbered α} (hHere : inHand s (s.pc t) = some x) (hHand : inHand s' (s'.pc t) = none)
    (hPopped : s'.popped = s.popped) (hReturned : s'.returned = s.returned ++ [x]) :
    PopTickets s' := by
  -- the thread has nothing in hand any more
  have hBack : ∀ u y, inHand s' (s'.pc u) = some y → u ≠ t ∧ inHand s (s.pc u) = some y := by
    intro u y hu
    by_cases hut : u = t
    · rw [hut, hHand] at hu
      cases hu
    · rw [hChains.inHand_of_other he hut] at hu
      exact ⟨hut, hu⟩
  refine ⟨?_, ?_, ?_, ?_, ?_⟩
  · intro u y hu
    rw [hPopped]
    exact h.hand_popped u y (hBack u y hu).2
  · -- who has a value in hand has another one
    intro u y hu hy
    obtain ⟨hut, hu⟩ := hBack u y hu
    rw [hReturned] at hy
    rcases List.mem_append.mp hy with hy | hy
    · exact h.hand_new u y hu hy
    · rw [List.mem_singleton.mp hy] at hu
      exact hut (h.hand_inj u t x hu hHere)
  · intro u u' y hu hu'
    exact h.hand_inj u u' y (hBack u y hu).2 (hBack u' y hu').2
  · intro y hy
    rw [hPopped]
    rw [hReturned] at hy
    rcases List.mem_append.mp hy with hy | hy
    · exact h.returned_popped y hy
    · rw [List.mem_singleton.mp hy]
      exact h.hand_popped t x hHere
  · -- the value was in hand, so it was not returned
    rw [hReturned]
    refine List.Nodup.append h.returned_nodup (List.nodup_singleton _) ?_
    intro y hy hy'
    rw [List.mem_singleton.mp hy'] at hy
    exact h.hand_new t x hHere hy

omit [DecidableEq τ] in
/-- The top of the stack was not popped before. -/
theorem top_not_popped (hq : (Lifo.system (Numbered α)).Reachable q) (hPush : PushTickets s)
    (hM : Matches Capacity s l q) {x : Numbered α} {items : List (Numbered α)}
    (hItems : q.items = x :: items) : x ∉ s.popped := by
  -- the items and what was popped are the pushed values, and these are distinct
  have hPerm := Lifo.pushed_perm hq
  rw [hItems, hM.pushed, hM.popped] at hPerm
  have hNodup : (x :: items ++ s.popped).Nodup := hPerm.nodup_iff.mp hPush.pushed_nodup.of_map
  have hHead : x ∉ items ++ s.popped := (List.nodup_cons.mp hNodup).1
  exact fun hx => hHead (List.mem_append_right _ hx)

/-- A case for each effect: what is taken off was pushed and not taken off before. -/
theorem popTickets_effect (hq : (Lifo.system (Numbered α)).Reachable q) (hPush : PushTickets s)
    (hM : Matches Capacity s l q) (h : PopTickets s) (he : Effect s t s') (hFresh : TagFresh s t) :
    PopTickets s' := by
  have hC := hM.chains
  have hHere : ∀ {pc : Pc (Numbered α)}, s'.pc = Function.update s.pc t pc → s'.pc t = pc := by
    intro pc hPc
    rw [hPc, Function.update_self]
  have hMove : ∀ {pc : Pc (Numbered α)}, s'.pc = Function.update s.pc t pc →
      s'.popped = s.popped → s'.returned = s.returned →
      (∀ x, inHand s' pc = some x → inHand s (s.pc t) = some x) → PopTickets s' := by
    intro pc hPc hPopped hReturned hHand
    refine h.move hC he ?_ hPopped hReturned
    rw [hHere hPc]
    exact hHand
  cases he with
  | @takePop old version next hpc hHead =>
    -- the node in front of the chain holds the top item
    obtain ⟨rest, hl, -⟩ := hC.front_of_cas hpc hFresh hHead
    obtain ⟨x, items, hItems, hTop, -⟩ := hM.top hl
    refine h.take hC (.takePop hpc hHead) (top_not_popped hq hPush hM hItems) ?_ ?_ rfl
    · rw [hHere rfl]
      exact hTop
    · show s.popped ++ (s.data old.index).toList = s.popped ++ [x]
      rw [hTop]
      rfl
  | @putPop node result old version hpc hHead =>
    -- a `pop` with a node has a value
    have hOk := hM.data t
    rw [hpc] at hOk
    obtain ⟨x, rfl⟩ := Option.isSome_iff_exists.mp hOk
    exact h.give hC (.putPop hpc hHead) (by rw [hpc]; rfl) (by rw [hHere rfl]; rfl) rfl rfl
  | moveOut hpc => exact hMove rfl rfl rfl fun x hx => by rwa [hpc]
  | clear hpc => exact hMove rfl rfl rfl fun x hx => by rwa [hpc]
  | reload hpc => exact hMove rfl rfl rfl fun x hx => by rwa [inHand_of_readsPut hpc]
  | @store call node result old version hpc =>
    refine hMove rfl rfl rfl fun x hx => ?_
    rw [hpc]
    cases call <;> exact hx
  | _ => exact hMove rfl rfl rfl fun x hx => by cases hx

/-- A running `pop` carries its value until it returns it. -/
theorem inHand_effect (he : Effect s t s') {x : Numbered α} (hx : inHand s (s.pc t) = some x) :
    inHand s' (s'.pc t) = some x ∨
      (s'.pc t = .idle (some (.popped (some x))) ∧ s'.returned = s.returned ++ [x]) := by
  have hHere : ∀ {pc : Pc (Numbered α)}, s'.pc = Function.update s.pc t pc →
      inHand s' pc = some x → inHand s' (s'.pc t) = some x := by
    intro pc hPc hHand
    rwa [hPc, Function.update_self]
  cases he with
  | refuse hpc hNull =>
    rw [inHand_of_readsTake hpc] at hx
    cases hx
  | load hpc hNode =>
    rw [inHand_of_readsTake hpc] at hx
    cases hx
  | reload hpc =>
    rw [inHand_of_readsPut hpc] at hx
    exact Or.inl (hHere rfl hx)
  | @putPop node result old version hpc hHead =>
    rw [hpc] at hx
    obtain rfl : result = some x := hx
    exact Or.inr ⟨Function.update_self .., rfl⟩
  | moveOut hpc =>
    rw [hpc] at hx
    exact Or.inl (hHere rfl hx)
  | clear hpc =>
    rw [hpc] at hx
    exact Or.inl (hHere rfl hx)
  | @store call node result old version hpc =>
    rw [hpc] at hx
    refine Or.inl (hHere rfl ?_)
    cases call <;> exact hx
  | callPop hpc | callPush hpc | next hpc | takePop hpc | takePush hpc | moveIn hpc | putPush hpc =>
    rw [hpc] at hx
    cases hx

end EmbLinux.LockFreeStack
