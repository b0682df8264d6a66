import EmbLinux.Lib.Lifo
import EmbLinux.LockFreeStack.Chains

/-!
# EmbLinux — the stack refines an abstract stack

`Matches` relates the nodes on the chain of `m_head` to the items of an abstract
stack: the data of the chain, front first, are the items. The exchange that
takes a node off that chain is the abstract `pop`, the exchange that puts one
there is the abstract `push`, and every other access leaves the items alone.
`simulates_lifo` puts this together for whole runs.
-/

namespace EmbLinux.LockFreeStack

variable {τ α : Type*} [DecidableEq τ] {s s' : State τ α} {a : Action τ α} {t : τ}
  {Capacity : Nat} {l l' : Head → List Nat} {q : Lifo (Numbered α)}

-- ---------------------------------------------------------------------------
-- What a step leaves alone
-- ---------------------------------------------------------------------------

/-- A step moves one thread. -/
theorem pc_frame (he : Effect s t s') {u : τ} (hut : u ≠ t) : s'.pc u = s.pc u := by
  cases he <;> exact Function.update_of_ne hut _ _

/-- A step changes no data but those of the thread's own node. -/
theorem data_frame (he : Effect s t s') {i : Nat} (hi : owned (s.pc t) ≠ some i) :
    s'.data i = s.data i := by
  cases he with
  | @moveIn value node hpc =>
    have hne : i ≠ node := fun hEq => hi (by rw [hpc, hEq]; rfl)
    exact Function.update_of_ne hne _ _
  | @clear node result hpc =>
    have hne : i ≠ node := fun hEq => hi (by rw [hpc, hEq]; rfl)
    exact Function.update_of_ne hne _ _
  | _ => rfl

-- ---------------------------------------------------------------------------
-- Values in the hands of a call
-- ---------------------------------------------------------------------------

/-- The value that a running `pop` took and has not returned yet. -/
def inHand (s : State τ α) : Pc (Numbered α) → Option (Numbered α)
  | .data .pop node => s.data node
  | .clear _ result | .putLoad .pop _ result | .putStore .pop _ result _ _
  | .putCas .pop _ result _ _ => result
  | _ => none

/-- A `pop` with a node has a value, and a `push` with a node has initialized it. -/
def DataOk (s : State τ α) : Pc (Numbered α) → Prop
  | .data .pop node => (s.data node).isSome
  | .clear _ result | .putLoad .pop _ result | .putStore .pop _ result _ _
  | .putCas .pop _ result _ _ => result.isSome
  | .putLoad (.push value) node _ | .putStore (.push value) node _ _ _
  | .putCas (.push value) node _ _ _ => s.data node = some value
  | _ => True

section

omit [DecidableEq τ]

/-- Both depend on the data of the own node only. -/
theorem inHand_congr {pc : Pc (Numbered α)}
    (hData : ∀ i, owned pc = some i → s'.data i = s.data i) : inHand s' pc = inHand s pc := by
  unfold inHand
  split
  · exact hData _ rfl
  all_goals rfl

/-- What a call knows of values is about its own node. -/
theorem dataOk_congr {pc : Pc (Numbered α)}
    (hData : ∀ i, owned pc = some i → s'.data i = s.data i) (h : DataOk s pc) : DataOk s' pc := by
  unfold DataOk at h ⊢
  split <;> first | trivial | exact h | (rw [hData _ rfl]; exact h)

/-- It knows the same throughout the second loop. -/
theorem dataOk_of_readsPut {call : Call (Numbered α)} {node : Nat} {result : Option (Numbered α)}
    {old : TaggedIndex} {version : Nat} {pc : Pc (Numbered α)} (hpc : ReadsPut call node result pc)
    (h : DataOk s pc) : DataOk s (.putStore call node result old version) := by
  cases pc with
  | putLoad c i r =>
    obtain ⟨rfl, rfl, rfl⟩ := hpc
    cases c <;> exact h
  | putCas c i r old' version' =>
    obtain ⟨rfl, rfl, rfl⟩ := hpc
    cases c <;> exact h
  | _ => exact hpc.elim

end

/-- What another thread owns is not what thread `t` owns. -/
theorem Chains.data_of_other (h : Chains Capacity s l) (he : Effect s t s') {u : τ} (hut : u ≠ t) :
    ∀ i, owned (s.pc u) = some i → s'.data i = s.data i := by
  intro i hu
  exact data_frame he fun ht => hut (h.owned_unique u t i hu ht)

-- ---------------------------------------------------------------------------
-- The relation to an abstract stack
-- ---------------------------------------------------------------------------

/-- The values along the chain are those of the stack, and what a call has written to its node
is there. -/
structure Matches (Capacity : Nat) (s : State τ α) (l : Head → List Nat) (q : Lifo (Numbered α)) :
    Prop where
  chains : Chains Capacity s l
  /-- The values along the chain of `m_head` are the items. -/
  items : (l .head).map s.data = q.items.map some
  pushed : q.pushed = s.pushed
  popped : q.popped = s.popped
  /-- A call that owns a node knows its value. -/
  data : ∀ t, DataOk s (s.pc t)

/-- The chains represent the stack. -/
def Refines (Capacity : Nat) (s : State τ α) (q : Lifo (Numbered α)) : Prop :=
  ∃ l, Matches Capacity s l q

/-- The data of the nodes of a step that another thread makes. -/
theorem Matches.dataOk_step (h : Matches Capacity s l q) (he : Effect s t s')
    {pc : Pc (Numbered α)} (hPc : s'.pc = Function.update s.pc t pc) (hOk : DataOk s' pc) :
    ∀ u, DataOk s' (s'.pc u) := by
  intro u
  rcases update_cases hPc u with ⟨-, hAt⟩ | ⟨hut, hAt⟩ <;> rw [hAt]
  · exact hOk
  · exact dataOk_congr (h.chains.data_of_other he hut) (h.data u)

/-- The data on the chain of `m_head` are no thread's own. -/
theorem Matches.map_data (h : Matches Capacity s l q) (he : Effect s t s') :
    (l .head).map s'.data = (l .head).map s.data := by
  refine List.map_congr_left ?_
  intro i hi
  exact data_frame he fun ht => h.chains.owned_free t i .head ht hi

/-- A step that leaves the chain of `m_head`. -/
theorem Matches.stay (h : Matches Capacity s l q) (he : Effect s t s') {pc : Pc (Numbered α)}
    (hPc : s'.pc = Function.update s.pc t pc) (hChains : Chains Capacity s' l')
    (hHead : l' .head = l .head) (hPushed : s'.pushed = s.pushed)
    (hPopped : s'.popped = s.popped) (hOk : DataOk s' pc) : Refines Capacity s' q := by
  refine ⟨l', hChains, ?_, ?_, ?_, h.dataOk_step he hPc hOk⟩
  · rw [hHead, h.map_data he]
    exact h.items
  · rw [hPushed]
    exact h.pushed
  · rw [hPopped]
    exact h.popped

omit [DecidableEq τ] in
/-- The front node of the chain of `m_head` holds the top item. -/
theorem Matches.top (h : Matches Capacity s l q) {node : Nat} {rest : List Nat}
    (hl : l .head = node :: rest) :
    ∃ x items, q.items = x :: items ∧ s.data node = some x ∧ rest.map s.data = items.map some := by
  have hItems := h.items
  rw [hl, List.map_cons] at hItems
  cases hq : q.items with
  | nil =>
    rw [hq] at hItems
    cases hItems
  | cons x items =>
    rw [hq, List.map_cons] at hItems
    obtain ⟨hTop, hRest⟩ := List.cons.inj hItems
    exact ⟨x, items, rfl, hTop, hRest⟩

/-- What an access does to the abstract stack, by where its thread stands before and
after it. -/
def stackOps : Pc (Numbered α) → Pc (Numbered α) → List (Lifo.Op (Numbered α))
  | .takeCas .pop _ _ _, .data _ _ => [.pop]
  | .putCas (.push value) _ _ _ _, .idle _ => [.push value]
  | _, _ => []

/-- A step in the first loop is no operation, if no node is taken. -/
theorem stackOps_of_readsTake {call : Call (Numbered α)} {pc pc' : Pc (Numbered α)}
    (h : ReadsTake call pc) (hOwned : owned pc' = none) : stackOps pc pc' = [] := by
  cases pc with
  | takeLoad c => cases pc' <;> rfl
  | takeCas c old version next => cases c <;> cases pc' <;> first | rfl | cases hOwned
  | _ => exact h.elim

/-- Nor is one in the second loop, as long as the node is still owned. -/
theorem stackOps_of_readsPut {call : Call (Numbered α)} {node : Nat}
    {result : Option (Numbered α)} {pc pc' : Pc (Numbered α)} (h : ReadsPut call node result pc)
    (hOwned : owned pc' ≠ none) : stackOps pc pc' = [] := by
  cases pc with
  | putLoad c i r => cases pc' <;> rfl
  | putCas c i r old version => cases c <;> cases pc' <;> first | rfl | exact absurd rfl hOwned
  | _ => exact h.elim

/-- The step lemma of the refinement. -/
theorem refines_ops (h : Matches Capacity s l q) (he : Effect s t s') (hFresh : TagFresh s t) :
    ∃ q', (Lifo.system (Numbered α)).exec q (stackOps (s.pc t) (s'.pc t)) = some q' ∧
      Refines Capacity s' q' := by
  have hData := h.data t
  -- the accesses that leave the chains and the history
  have hStay : ∀ {pc : Pc (Numbered α)}, s'.pc = Function.update s.pc t pc →
      s'.heads = s.heads → s'.next = s.next → s'.version = s.version →
      s'.pushed = s.pushed → s'.popped = s.popped → owned pc = owned (s.pc t) →
      ReadOk Capacity s pc → DataOk s' pc → stackOps (s.pc t) pc = [] →
      ∃ q', (Lifo.system (Numbered α)).exec q (stackOps (s.pc t) (s'.pc t)) = some q' ∧
        Refines Capacity s' q' := by
    intro pc hPc hHeads hNext hVersion hPushed hPopped hOwned hRead hOk hOps
    rw [hPc, Function.update_self, hOps]
    exact ⟨q, rfl, h.stay he hPc (h.chains.move hPc hHeads hNext hVersion hOwned hRead) rfl
      hPushed hPopped hOk⟩
  cases he with
  | callPop hpc =>
    exact hStay rfl rfl rfl rfl rfl rfl (by rw [hpc]; rfl) trivial trivial (by rw [hpc]; rfl)
  | callPush hpc =>
    exact hStay rfl rfl rfl rfl rfl rfl (by rw [hpc]; rfl) trivial trivial (by rw [hpc]; rfl)
  | refuse hpc hNull =>
    exact hStay rfl rfl rfl rfl rfl rfl (owned_of_readsTake hpc).symm trivial trivial
      (stackOps_of_readsTake hpc rfl)
  | load hpc hNode =>
    refine hStay rfl rfl rfl rfl rfl rfl (owned_of_readsTake hpc).symm ?_ trivial
      (stackOps_of_readsTake hpc rfl)
    exact ⟨h.chains.head_lt hNode, Nat.le_refl _, fun _ => rfl⟩
  | next hpc =>
    have hRead := h.chains.read t
    rw [hpc] at hRead
    refine hStay rfl rfl rfl rfl rfl rfl (by rw [hpc]; rfl) ?_ trivial (by rw [hpc]; rfl)
    exact ⟨hRead.1, hRead.2.1, fun hNow => ⟨hRead.2.2 hNow, rfl⟩⟩
  | moveOut hpc =>
    rw [hpc] at hData
    exact hStay rfl rfl rfl rfl rfl rfl (by rw [hpc]; rfl) trivial hData (by rw [hpc]; rfl)
  | moveIn hpc =>
    exact hStay rfl rfl rfl rfl rfl rfl (by rw [hpc]; rfl) trivial (Function.update_self ..)
      (by rw [hpc]; rfl)
  | clear hpc =>
    rw [hpc] at hData
    exact hStay rfl rfl rfl rfl rfl rfl (by rw [hpc]; rfl) trivial hData (by rw [hpc]; rfl)
  | @reload call node result hpc =>
    refine hStay rfl rfl rfl rfl rfl rfl (owned_of_readsPut hpc).symm trivial ?_
      (stackOps_of_readsPut hpc (Option.some_ne_none node))
    exact dataOk_of_readsPut hpc hData
  | @store call node result old version hpc =>
    rw [hpc] at hData
    refine ⟨q, ?_, h.stay (.store hpc) rfl (h.chains.store hpc rfl rfl rfl rfl) rfl rfl rfl ?_⟩
    · rw [hpc]
      rfl
    · cases call <;> exact hData
  | @takePush value old version next hpc hHead =>
    -- `push` takes from the free chain, `pop` puts there: the stack rests
    obtain ⟨rest, hl, hRest⟩ := h.chains.front_of_cas hpc hFresh hHead
    have hOther : Head.head ≠ (Call.push value).takes := fun hEq => by cases hEq
    refine ⟨q, ?_, h.stay (.takePush hpc hHead) rfl
      (h.chains.take hpc hl hRest rfl rfl rfl rfl) (Function.update_of_ne hOther _ _) rfl rfl
      trivial⟩
    rw [hpc]
    rfl
  | @putPop node result old version hpc hHead =>
    have hOther : Head.head ≠ (Call.pop : Call (Numbered α)).puts := fun hEq => by cases hEq
    refine ⟨q, ?_, h.stay (.putPop hpc hHead) rfl (h.chains.put hpc hHead rfl rfl rfl rfl)
      (Function.update_of_ne hOther _ _) rfl rfl trivial⟩
    rw [hpc]
    rfl
  | @takePop old version next hpc hHead =>
    -- the exchange of `pop` on `m_head`
    obtain ⟨rest, hl, hRest⟩ := h.chains.front_of_cas hpc hFresh hHead
    obtain ⟨x, items, hItems, hTop, hMap⟩ := h.top hl
    refine ⟨{ q with items := items, popped := q.popped ++ [x] }, ?_, _,
      h.chains.take hpc hl hRest rfl rfl rfl rfl, hMap, h.pushed, ?_,
      h.dataOk_step (.takePop hpc hHead) rfl ?_⟩
    · show (Lifo.system (Numbered α)).exec q (stackOps (s.pc t) (Function.update s.pc t _ t)) = _
      rw [hpc, Function.update_self]
      exact Lifo.exec_pop hItems
    · show q.popped ++ [x] = s.popped ++ (s.data old.index).toList
      rw [h.popped, hTop]
      rfl
    · show (s.data old.index).isSome
      rw [hTop]
      rfl
  | @putPush value node result old version hpc hHead =>
    -- the exchange of `push` on `m_head`
    rw [hpc] at hData
    refine ⟨{ q with items := value :: q.items, pushed := q.pushed ++ [value] }, ?_, _,
      h.chains.put hpc hHead rfl rfl rfl rfl, ?_, ?_, h.popped,
      h.dataOk_step (.putPush hpc hHead) rfl trivial⟩
    · show (Lifo.system (Numbered α)).exec q (stackOps (s.pc t) (Function.update s.pc t _ t)) = _
      rw [hpc, Function.update_self]
      exact Lifo.exec_push q value
    · show s.data node :: (l .head).map s.data = some value :: q.items.map some
      rw [h.items, show s.data node = some value from hData]
    · show q.pushed ++ [value] = s.pushed ++ [value]
      rw [h.pushed]

/-- One step of the code is the operations of its exchange on the abstract stack. -/
theorem refines_effect (h : Matches Capacity s l q) (he : Effect s t s') (hFresh : TagFresh s t) :
    ∃ ops q', (Lifo.system (Numbered α)).exec q ops = some q' ∧ Refines Capacity s' q' := by
  obtain ⟨q', hExec, hRefines⟩ := refines_ops h he hFresh
  exact ⟨_, q', hExec, hRefines⟩

omit [DecidableEq τ] in
/-- A stack of a capacity that its indices can name starts with both chains in order. -/
theorem matches_init (hPos : 0 < Capacity) (hCap : Capacity ≤ kNullIndex) :
    Refines Capacity (init τ α Capacity) (Lifo.system (Numbered α)).init :=
  ⟨_, chains_init hPos hCap, rfl, rfl, rfl, fun _ => trivial⟩

/-- **Refinement.** In every run without a repeated tag, the stack is related to a
reachable abstract stack. -/
theorem simulates_lifo (hPos : 0 < Capacity) (hCap : Capacity ≤ kNullIndex)
    (h : (system τ α Capacity).ReachableWhere NoTagRepeat s) :
    ∃ q, (Lifo.system (Numbered α)).Reachable q ∧ Refines Capacity s q := by
  refine h.simulate (R := Refines Capacity) (matches_init hPos hCap) ?_
  intro s a s' q _ hR hok hst
  obtain ⟨l, hMatches⟩ := hR
  obtain ⟨t, he, hFresh⟩ := step_effect hst
  exact refines_effect hMatches he (hFresh hok)

end EmbLinux.LockFreeStack
