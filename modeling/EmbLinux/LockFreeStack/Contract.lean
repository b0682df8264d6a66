import EmbLinux.LockFreeStack.Tickets

/-!
# EmbLinux — the contract of `LockFreeStack`

`stack_contract` holds for every capacity from 1 to `2 ^ 32 - 1`, any number of
threads and every interleaving in which no tag repeats between a load and its
exchange.

The condition `NoTagRepeat` is about a load and the exchange that follows it. The lemmas about the
chains, the values and the numbers (`LockFreeStack.Chains`, `Values` and `Tickets`) are all used
under it.
-/

namespace EmbLinux.LockFreeStack

variable {τ α : Type*} [DecidableEq τ] {s s' : State τ α} {a : Action τ α} {t : τ}
  {Capacity : Nat} {l : Head → List Nat} {q : Lifo (Numbered α)}

/-- The values on the chain of `m_head`, top first. -/
def OnStack (s : State τ α) (items : List (Numbered α)) : Prop :=
  ∃ nodes, Linked s.next kNullIndex (s.heads .head).index nodes ∧
    nodes.map s.data = items.map some

/-- Node `i` is on exactly one chain, or one running call owns it. -/
def InOnePlace (s : State τ α) (l : Head → List Nat) (i : Nat) : Prop :=
  ((∃! h, i ∈ l h) ∧ ∀ t, owned (s.pc t) ≠ some i) ∨
    ((∀ h, i ∉ l h) ∧ ∃! t, owned (s.pc t) = some i)

/-- What `LockFreeStack` promises at every program point. -/
structure StackContract (Capacity : Nat) (s : State τ α) : Prop where
  /-- The chains of both heads end at `kNullIndex` and repeat no node, and every
  index is in exactly one place. -/
  places : ∃ l : Head → List Nat,
    (∀ h, Linked s.next kNullIndex (s.heads h).index (l h) ∧ (l h).Nodup ∧
      ∀ i ∈ l h, i < Capacity) ∧
    ∀ i, i < Capacity → InOnePlace s l i
  /-- The run is a run of a last-in first-out stack. -/
  lifo : ∃ q, (Lifo.system (Numbered α)).Reachable q ∧ OnStack s q.items ∧
    q.pushed = s.pushed ∧ q.popped = s.popped
  /-- The exchange on `m_head` of a `pop` takes the current top. -/
  popTop : ∀ t old version next s', s.pc t = .takeCas .pop old version next →
    s.heads .head = old → TagFresh s t → step s (.run t false) = some s' →
    ∃ x items, OnStack s (x :: items) ∧ OnStack s' items ∧ s'.popped = s.popped ++ [x] ∧
      inHand s' (s'.pc t) = some x
  /-- The `pop` returns what it took. -/
  popReturns : ∀ t x a s', inHand s (s.pc t) = some x → step s a = some s' →
    inHand s' (s'.pc t) = some x ∨
      (s'.pc t = .idle (some (.popped (some x))) ∧ s'.returned = s.returned ++ [x])
  /-- No value is returned twice, and only pushed ones are. -/
  returnedOnce : (s.returned.map Prod.fst).Nodup ∧ ∀ x ∈ s.returned, x ∈ s.pushed
  /-- `pop` returns `std::nullopt` at a load of `m_head` that found it empty. -/
  popEmpty : ∀ t a s', step s a = some s' → s'.pc t ≠ s.pc t →
    s'.pc t = .idle (some (.popped none)) → (s.heads .head).index = kNullIndex ∧ OnStack s []
  /-- `push` returns false at a load of `m_free_head` that found it empty. -/
  pushFull : ∀ t a s', step s a = some s' → s'.pc t ≠ s.pc t →
    s'.pc t = .idle (some (.pushed false)) →
    (s.heads .freeHead).index = kNullIndex ∧
      Linked s.next kNullIndex (s.heads .freeHead).index []

omit [DecidableEq τ] in
/-- The place of a node, for the contract. -/
theorem Chains.inOnePlace (h : Chains Capacity s l) {i : Nat} (hi : i < Capacity) :
    InOnePlace s l i := by
  by_cases hOwned : ∃ t, owned (s.pc t) = some i
  · obtain ⟨t, ht⟩ := hOwned
    refine Or.inr ⟨fun hd => h.owned_free t i hd ht, t, ht, ?_⟩
    intro u hu
    exact h.owned_unique u t i hu ht
  · obtain ⟨hd, hMem⟩ := (h.cover i hi).resolve_right hOwned
    refine Or.inl ⟨⟨hd, hMem, ?_⟩, fun t ht => hOwned ⟨t, ht⟩⟩
    intro hd' hMem'
    by_contra hne
    exact h.not_mem_other hne hMem hMem'

omit [DecidableEq τ] in
/-- The values of the stack are those along the chain. -/
theorem Matches.onStack (h : Matches Capacity s l q) : OnStack s q.items :=
  ⟨l .head, h.chains.linked .head, h.items⟩

/-- An exchange that takes the first node takes the value on top. -/
theorem Matches.popTop (h : Matches Capacity s l q) {old : TaggedIndex} {version next : Nat}
    (hpc : s.pc t = .takeCas .pop old version next) (hHead : s.heads .head = old)
    (hFresh : TagFresh s t) (hst : step s (.run t false) = some s') :
    ∃ x items, OnStack s (x :: items) ∧ OnStack s' items ∧ s'.popped = s.popped ++ [x] ∧
      inHand s' (s'.pc t) = some x := by
  obtain ⟨rest, hl, hRest⟩ := h.chains.front_of_cas hpc hFresh hHead
  obtain ⟨x, items, hItems, hTop, hMap⟩ := h.top hl
  have hHead' : s.heads (Call.pop : Call (Numbered α)).takes = old := hHead
  simp only [step, run, hpc, hHead', and_self, if_true, Option.some.injEq] at hst
  subst hst
  refine ⟨x, items, hItems ▸ h.onStack, ⟨rest, ?_, hMap⟩, ?_, ?_⟩
  · show Linked s.next kNullIndex (Function.update s.heads .head _ .head).index rest
    rw [Function.update_self]
    exact hRest
  · show s.popped ++ (s.data old.index).toList = s.popped ++ [x]
    rw [hTop]
    rfl
  · show inHand _ (Function.update s.pc t (.data .pop old.index) t) = some x
    rw [Function.update_self]
    exact hTop

/-- A call that ends without a node ended at the load of a null head. -/
theorem Matches.refused (h : Matches Capacity s l q) {ret : Ret (Numbered α)}
    (hst : step s a = some s') (hNew : s'.pc t ≠ s.pc t) (hRet : s'.pc t = .idle (some ret))
    (hNone : ret = .popped none ∨ ret = .pushed false) :
    ∃ call : Call (Numbered α), ret = call.refuse ∧ (s.heads call.takes).index = kNullIndex := by
  obtain ⟨u, he, -⟩ := step_effect hst
  obtain rfl : t = u := by
    by_contra htu
    exact hNew (pc_frame he htu)
  have hHere : ∀ {pc : Pc (Numbered α)}, s'.pc = Function.update s.pc t pc →
      pc = .idle (some ret) := by
    intro pc hPc
    rw [hPc, Function.update_self] at hRet
    exact hRet
  cases he with
  | @refuse call hpc hNull =>
    have hEq := hHere rfl
    exact ⟨call, (Option.some.inj (Pc.idle.inj hEq)).symm, hNull⟩
  | @putPop node result old version hpc hHead =>
    -- a `pop` that took a node has a value
    have hOk := h.data t
    rw [hpc] at hOk
    have hSome : result.isSome := hOk
    have hEq := hHere rfl
    cases hEq
    rcases hNone with hNone | hNone
    · cases hNone
      cases hSome
    · cases hNone
  | putPush hpc hHead =>
    have hEq := hHere rfl
    cases hEq
    rcases hNone with hNone | hNone <;> cases hNone
  | _ =>
    have hEq := hHere rfl
    cases hEq

/-- No value is returned twice, in every run without a repeated tag. -/
theorem popTickets (hPos : 0 < Capacity) (hCap : Capacity ≤ kNullIndex)
    (h : (system τ α Capacity).ReachableWhere NoTagRepeat s) : PopTickets s := by
  refine h.invariant (I := PopTickets) popTickets_init ?_
  intro s a s' hReach hPop hok hst
  obtain ⟨q, hq, l, hM⟩ := simulates_lifo hPos hCap hReach
  obtain ⟨t, he, hFresh⟩ := step_effect hst
  exact popTickets_effect hq (pushTickets hReach.reachable) hM hPop he (hFresh hok)

omit [DecidableEq τ] in
/-- What `pop` returned was pushed, and each number at most once. -/
theorem returned_once (hq : (Lifo.system (Numbered α)).Reachable q) (hM : Matches Capacity s l q)
    (hPush : PushTickets s) (hPop : PopTickets s) :
    (s.returned.map Prod.fst).Nodup ∧ ∀ x ∈ s.returned, x ∈ s.pushed := by
  have hPerm := Lifo.pushed_perm hq
  rw [hM.pushed, hM.popped] at hPerm
  have hPushed : ∀ x ∈ s.returned, x ∈ s.pushed := by
    intro x hx
    exact hPerm.mem_iff.mpr (List.mem_append_right _ (hPop.returned_popped x hx))
  refine ⟨hPop.returned_nodup.map_on ?_, hPushed⟩
  intro x hx y hy hEq
  exact List.inj_on_of_nodup_map hPush.pushed_nodup (hPushed x hx) (hPushed y hy) hEq

/-- **The contract of the stack**, for every capacity, any number of threads and every
interleaving in which no tag repeats between a load and its exchange. The exchanges may fail
spuriously. The tags are 32 bits: `aba_free` says in which states the condition can fail, and
`hCap` leaves `kNullIndex` free of the indices. -/
theorem stack_contract (hPos : 1 ≤ Capacity) (hCap : Capacity < 2 ^ 32 - 1)
    (h : (system τ α Capacity).ReachableWhere NoTagRepeat s) : StackContract Capacity s := by
  have hNull : Capacity ≤ kNullIndex := Nat.le_of_lt hCap
  obtain ⟨q, hq, l, hM⟩ := simulates_lifo hPos hNull h
  have hPush := pushTickets h.reachable
  have hPop := popTickets hPos hNull h
  refine ⟨⟨l, ?_, ?_⟩, ⟨q, hq, hM.onStack, hM.pushed, hM.popped⟩, ?_, ?_, ?_, ?_, ?_⟩
  · intro hd
    exact ⟨hM.chains.linked hd, (hM.chains.linked hd).nodup, hM.chains.bound hd⟩
  · intro i hi
    exact hM.chains.inOnePlace hi
  · intro t old version next s' hpc hHead hFresh hst
    exact hM.popTop hpc hHead hFresh hst
  · intro t x a s' hx hst
    obtain ⟨u, he, -⟩ := step_effect hst
    by_cases htu : t = u
    · subst htu
      exact inHand_effect he hx
    · left
      rw [hM.chains.inHand_of_other he htu]
      exact hx
  · exact returned_once hq hM hPush hPop
  · intro t a s' hst hNew hRet
    obtain ⟨call, hCall, hIndex⟩ := hM.refused hst hNew hRet (Or.inl rfl)
    cases call with
    | pop => exact ⟨hIndex, [], hIndex, rfl⟩
    | push value => cases hCall
  · intro t a s' hst hNew hRet
    obtain ⟨call, hCall, hIndex⟩ := hM.refused hst hNew hRet (Or.inr rfl)
    cases call with
    | pop => cases hCall
    | push value => exact ⟨hIndex, hIndex⟩

/-- The expected head is still the current one at the exchange that takes a node. -/
def expectedIsCurrent (s : State τ α) : Action τ α → Bool
  | .run t _ =>
    match s.pc t with
    | .takeCas call _ version _ => s.version call.takes == version
    | _ => true
  | _ => true

omit [DecidableEq τ] in
/-- What is evaluated is enough for the condition. -/
theorem noTagRepeat_of_current (s : State τ α) (a : Action τ α)
    (h : expectedIsCurrent s a = true) : NoTagRepeat s a := by
  cases a with
  | run t spurious =>
    intro call old version next hpc hNe
    simp only [expectedIsCurrent, hpc, beq_iff_eq] at h
    exact absurd h hNe
  | _ => trivial

/-- Two pushes on two nodes, a third that finds no free node, and two pops. -/
theorem stack_contract_two :
    ∃ s : State Bool Nat, (system Bool Nat 2).ReachableWhere NoTagRepeat s ∧
      s.returned = [(1, 8), (0, 7)] ∧ s.pc false = .idle (some (.pushed false)) ∧
      StackContract 2 s := by
  obtain ⟨s, hs, hp⟩ := System.exists_reachableWhere_of_exec (S := system Bool Nat 2)
    (p := fun s => s.returned = [(1, 8), (0, 7)] ∧ s.pc false = .idle (some (.pushed false)))
    noTagRepeat_of_current
    ([Action.callPush false 7] ++ List.replicate 7 (Action.run false false) ++
      [Action.callPush false 8] ++ List.replicate 7 (Action.run false false) ++
      [Action.callPush false 9, Action.run false false, Action.callPop true] ++
      List.replicate 8 (Action.run true false) ++ [Action.callPop true] ++
      List.replicate 8 (Action.run true false))
    (by decide +kernel)
  exact ⟨s, hs, hp.1, hp.2, stack_contract (by decide) (by decide) hs⟩

end EmbLinux.LockFreeStack
