import EmbLinux.DesignLockFree.Queue.Reclamation
import EmbLinux.Lib.Fifo

/-!
# EmbLinux — the queue refines an abstract queue

`Values s before q` — the data of the nodes from `head` up to the tail node are the
items of an abstract queue. A `push` puts its value into the tail node first; the value
joins the items when a thread moves `tail` past the node, and a `pop` takes it when it
moves `head` past it.

This needs that no `push` exchanges the data of a node that `head` has passed
(`FreshData`): `pop` leaves `nullptr` there, which is what `push` takes for a node
without a value. `stale_value` says what becomes of such a value.
-/

namespace EmbLinux.DesignLockFree.Queue

variable {τ α : Type*} [DecidableEq τ] {s s' : State τ α} {a : Action τ α} {t : τ}
  {before after : List Nat} {q : Fifo (Numbered α)}

/-- The step condition: a `push` that finds no value in the node that it holds puts its
own there only if `head` has not passed the node. -/
def FreshData (s : State τ α) : Action τ α → Prop
  | .run t _ _ => ∀ value new old, s.pc t = .pushData value new old → s.data old.ptr = none →
      s.passed old.ptr .head = false
  | _ => True

/-- A `push` that has put its value into a node, and the node, until it leaves
`set_new_tail`. -/
def Pc.finishing {β : Type*} : Pc β → Option (β × Nat)
  | .pushNext value _ old | .pushDelete value _ old _ | .setNewTail (.finish value) old _ =>
    some (value, old.ptr)
  | _ => none

/-- The value is in the tail node, or `tail` has moved past its node. -/
def Placed (s : State τ α) (value : Numbered α) (p : Nat) : Prop :=
  (p = (s.counter .tail).ptr ∧ s.data p = some value) ∨
    (s.passed p .tail = true ∧ value ∈ s.pushed)

/-- What a thread relies on about the values. -/
def ValueOk (s : State τ α) : Pc (Numbered α) → Prop
  | .popTail old => old.ptr = (s.counter .head).ptr ∨ s.passed old.ptr .head = true
  | .popData old => s.data old.ptr ≠ none
  | .pushNext value _ old | .pushDelete value _ old _ | .setNewTail (.finish value) old _ =>
    Placed s value old.ptr
  | .helpNext _ _ old | .helpNew _ old _ | .setNewTail (.help _ _) old _ =>
    old.ptr = (s.counter .tail).ptr → s.data old.ptr ≠ none
  | .freeLoad _ _ k | .freeCas _ _ _ k | .releaseLoad _ k | .releaseCas _ _ k | .delete _ k =>
    ∀ value, k = .pushReturn value → value ∈ s.pushed
  | _ => True

/-- The nodes before `tail` hold the values of the queue in order. -/
structure Values (s : State τ α) (before : List Nat) (q : Fifo (Numbered α)) : Prop where
  /-- The nodes before the tail node have the items in order. -/
  items : before.map s.data = q.items.map some
  pushed : q.pushed = s.pushed
  popped : q.popped = s.popped
  /-- The nodes ahead of the tail node have no value. -/
  ahead : ∀ p, s.allocated p = true → s.passed p .tail = false → p ≠ (s.counter .tail).ptr →
    s.data p = none
  /-- What the threads know of the values. -/
  pcs : ∀ t, ValueOk s (s.pc t)
  /-- The value in the tail node is the one of a running `push`. -/
  filling : ∀ value, s.data (s.counter .tail).ptr = some value →
    ∃ t, (s.pc t).finishing = some (value, (s.counter .tail).ptr)
  /-- A value is in the tail node for one `push`. -/
  finishUnique : ∀ t u value p p', (s.pc t).finishing = some (value, p) →
    (s.pc u).finishing = some (value, p') → t = u

/-- What a step does to the abstract queue, by where its thread stands before and
after it. -/
def fifoOps (s : State τ α) : Pc (Numbered α) → Pc (Numbered α) → List (Fifo.Op (Numbered α))
  | .popCas _ _, .popData _ => [.pop]
  | .setNewTail _ _ _, .freeLoad _ _ _ => (s.data (s.counter .tail).ptr).toList.map .push
  | _, _ => []

/-- A queue without a bound. -/
abbrev unbounded (α : Type*) : System (Fifo α) (Fifo.Op α) :=
  Fifo.system α fun _ => true

omit [DecidableEq τ] in
/-- The exchange of `head` is the queue's pop, -/
theorem exec_popCas {old next old' : CountedNodePtr} {x : Numbered α} {items : List (Numbered α)}
    (hExec : (unbounded (Numbered α)).exec q (fifoOps s (s.pc t) (s'.pc t)) = some q')
    (hpc : s.pc t = .popCas old next) (hpc' : s'.pc t = .popData old')
    (hItems : q.items = x :: items) :
    q' = { q with items := items, popped := q.popped ++ [x] } := by
  rw [hpc, hpc', fifoOps, Fifo.exec_pop hItems] at hExec
  exact (Option.some.inj hExec).symm

omit [DecidableEq τ] in
/-- and that of `tail` its push. -/
theorem exec_moveTail {pusher : Pusher (Numbered α)} {old new old' : CountedNodePtr} {side : Side}
    {k : Cont (Numbered α)} {x : Numbered α}
    (hExec : (unbounded (Numbered α)).exec q (fifoOps s (s.pc t) (s'.pc t)) = some q')
    (hpc : s.pc t = .setNewTail pusher old new) (hpc' : s'.pc t = .freeLoad side old' k)
    (hx : s.data (s.counter .tail).ptr = some x) :
    q' = { q with items := q.items ++ [x], pushed := q.pushed ++ [x] } := by
  have hPush : (unbounded (Numbered α)).exec q [.push x] =
      some { q with items := q.items ++ [x], pushed := q.pushed ++ [x] } := Fifo.exec_push rfl
  rw [hpc, hpc', fifoOps, hx] at hExec
  exact (Option.some.inj (hPush.symm.trans hExec)).symm

-- ---------------------------------------------------------------------------
-- What the threads rely on
-- ---------------------------------------------------------------------------

section

omit [DecidableEq τ]

/-- What a thread may rely on depends on the values of its own node only. -/
theorem ValueOk.congr {pc : Pc (Numbered α)} (h : ValueOk s pc)
    (hHead : ∀ p, pc.role.held = some p →
      p = (s.counter .head).ptr ∨ s.passed p .head = true →
      p = (s'.counter .head).ptr ∨ s'.passed p .head = true)
    (hPop : ∀ old, pc = .popData old → s'.data old.ptr ≠ none)
    (hPlaced : ∀ p value, pc.role.held = some p → Placed s value p → Placed s' value p)
    (hTail : ∀ p, pc.role.held = some p → (p = (s.counter .tail).ptr → s.data p ≠ none) →
      p = (s'.counter .tail).ptr → s'.data p ≠ none)
    (hPushed : ∀ value ∈ s.pushed, value ∈ s'.pushed) : ValueOk s' pc := by
  cases pc with
  | popTail old => exact hHead _ rfl h
  | popData old => exact hPop old rfl
  | pushNext value new old => exact hPlaced _ _ rfl h
  | pushDelete value new old next => exact hPlaced _ _ rfl h
  | setNewTail pusher old new =>
    cases pusher with
    | finish value => exact hPlaced _ _ rfl h
    | help value newNext => exact hTail _ rfl h
  | helpNext value new old => exact hTail _ rfl h
  | helpNew value old next => exact hTail _ rfl h
  | freeLoad side old k => exact fun value hk => hPushed value (h value hk)
  | freeCas side old counter k => exact fun value hk => hPushed value (h value hk)
  | releaseLoad p k => exact fun value hk => hPushed value (h value hk)
  | releaseCas p counter k => exact fun value hk => hPushed value (h value hk)
  | delete p k => exact fun value hk => hPushed value (h value hk)
  | _ => trivial

/-- A step that changes none of what `ValueOk` reads. -/
theorem ValueOk.same {pc : Pc (Numbered α)} (h : ValueOk s pc) (hData : s'.data = s.data)
    (hPassed : s'.passed = s.passed) (hPushed : s'.pushed = s.pushed)
    (hCounter : ∀ side, (s'.counter side).ptr = (s.counter side).ptr) : ValueOk s' pc := by
  refine h.congr ?_ ?_ ?_ ?_ ?_
  · intro p _ hp
    rw [hCounter, hPassed]
    exact hp
  · rintro old rfl
    rw [hData]
    exact h
  · intro p value _ hp
    rw [Placed, hCounter, hData, hPassed, hPushed]
    exact hp
  · intro p _ hp
    rw [hCounter, hData]
    exact hp
  · rw [hPushed]
    exact fun _ hv => hv

/-- A node that `tail` has passed and `head` has not has a value. -/
theorem Nodes.mem_before (h : Nodes s before after) {p : Nat} (hAlloc : s.allocated p = true)
    (hPub : s.published p = true) (hHead : s.passed p .head = false)
    (hTail : s.passed p .tail = true) : p ∈ before := by
  have hMem : p ∈ s.chain before after := by
    by_contra hOut
    rw [h.behind p hAlloc hPub hOut .head] at hHead
    cases hHead
  refine (List.mem_append.mp hMem).resolve_right ?_
  intro hAhead
  rw [h.tailAhead p hAhead] at hTail
  cases hTail

/-- The node that becomes the tail is ahead of the tail. -/
theorem Inv.new_ahead (h : Inv s before after) {pusher : Pusher (Numbered α)}
    {new : CountedNodePtr} (hpc : s.pc t = .setNewTail pusher (s.counter .tail) new) :
    s.allocated new.ptr = true ∧ s.passed new.ptr .tail = false ∧
      new.ptr ≠ (s.counter .tail).ptr := by
  have hKnows := h.knows t
  rw [hpc] at hKnows
  have hAfter := h.nodes.after_eq.2 (hKnows.1 ▸ hKnows.2)
  rw [← hKnows.1] at hAfter
  have hNodup := h.nodes.nodup
  have hMem : new.ptr ∈ after := by
    rw [hAfter]
    exact List.mem_cons_self
  refine ⟨(h.nodes.onChain _ (List.mem_append_right _ (List.mem_cons_of_mem _ hMem))).1,
    h.nodes.tailAhead _ (List.mem_cons_of_mem _ hMem), ?_⟩
  intro hEq
  rw [State.chain] at hNodup
  exact (List.nodup_cons.mp (List.nodup_append'.mp hNodup).2.1).1 (hEq ▸ hMem)

/-- Nobody holds a node ahead of the tail. -/
theorem Inv.not_held_ahead (h : Inv s before after) {p : Nat} (hHeld : (s.role t).held = some p)
    (hAhead : s.passed p .tail = false) : p = (s.counter .tail).ptr := by
  obtain ⟨-, -, hAt⟩ := h.nodes.held t p hHeld
  refine hAt.resolve_right ?_
  rw [hAhead]
  exact Bool.false_ne_true

end

namespace Values

section

omit [DecidableEq τ]

/-- Every node before `tail` has a value. -/
theorem data_of_mem (h : Values s before q) {p : Nat} (hp : p ∈ before) : s.data p ≠ none := by
  intro hNone
  have hMem : none ∈ before.map s.data := List.mem_map.mpr ⟨p, hp, hNone⟩
  rw [h.items] at hMem
  obtain ⟨v, -, hv⟩ := List.mem_map.mp hMem
  cases hv

/-- A `push` that finds no value in its node, which `head` has not passed, is at the
tail node. -/
theorem at_tail (h : Values s before q) (hNodes : Nodes s before after) {p : Nat}
    (hHeld : (s.role t).held = some p) (hData : s.data p = none)
    (hHead : s.passed p .head = false) : p = (s.counter .tail).ptr := by
  obtain ⟨hAlloc, hPub, hAt⟩ := hNodes.held t p hHeld
  refine hAt.resolve_right fun hTail => ?_
  exact h.data_of_mem (hNodes.mem_before hAlloc hPub hHead hTail) hData

/-- A thread that moves `tail` on holds the node its value is in. -/
theorem placed (h : Values s before q) {value : Numbered α} {p : Nat}
    (hFinishing : (s.pc t).finishing = some (value, p)) :
    (s.role t).held = some p ∧ Placed s value p := by
  have hOk := h.pcs t
  rw [State.role]
  cases hpc : s.pc t with
  | setNewTail pusher old new =>
    rw [hpc] at hFinishing hOk
    cases pusher with
    | finish value' =>
      cases hFinishing
      exact ⟨rfl, hOk⟩
    | help value' newNext => cases hFinishing
  | pushNext value' new old =>
    rw [hpc] at hFinishing hOk
    cases hFinishing
    exact ⟨rfl, hOk⟩
  | pushDelete value' new old next =>
    rw [hpc] at hFinishing hOk
    cases hFinishing
    exact ⟨rfl, hOk⟩
  | _ =>
    rw [hpc] at hFinishing
    cases hFinishing

end

/-- A step that leaves the data and the order of the nodes. -/
theorem keep (h : Values s before q) {pc : Pc (Numbered α)}
    (hPc : s'.pc = Function.update s.pc t pc) (hData : s'.data = s.data)
    (hPassed : s'.passed = s.passed) (hPushed : s'.pushed = s.pushed)
    (hPopped : s'.popped = s.popped)
    (hCounter : ∀ side, (s'.counter side).ptr = (s.counter side).ptr)
    (hAllocated : ∀ p, s'.allocated p = true → s.allocated p = true) (hOk : ValueOk s pc)
    (hFinish : ∀ x, pc.finishing = some x → (s.pc t).finishing = some x)
    (hFinish' : ∀ value, (s.pc t).finishing = some (value, (s.counter .tail).ptr) →
      pc.finishing = some (value, (s.counter .tail).ptr)) : Values s' before q := by
  have hOld : ∀ u x, (s'.pc u).finishing = some x → (s.pc u).finishing = some x := by
    intro u x hu
    rcases update_cases hPc u with ⟨rfl, hAt⟩ | ⟨-, hAt⟩ <;> rw [hAt] at hu
    · exact hFinish x hu
    · exact hu
  refine ⟨?_, h.pushed.trans hPushed.symm, h.popped.trans hPopped.symm, ?_, ?_, ?_, ?_⟩
  · rw [hData]
    exact h.items
  · rw [hData, hPassed, hCounter]
    intro p hp
    exact h.ahead p (hAllocated p hp)
  · intro u
    rcases update_cases hPc u with ⟨rfl, hAt⟩ | ⟨-, hAt⟩ <;> rw [hAt]
    · exact hOk.same hData hPassed hPushed hCounter
    · exact (h.pcs u).same hData hPassed hPushed hCounter
  · rw [hData, hCounter]
    intro value hValue
    obtain ⟨u, hu⟩ := h.filling value hValue
    refine ⟨u, ?_⟩
    rcases update_cases hPc u with ⟨rfl, hAt⟩ | ⟨-, hAt⟩ <;> rw [hAt]
    · exact hFinish' value hu
    · exact hu
  · intro u v value p p' hu hv
    exact h.finishUnique u v value p p' (hOld u _ hu) (hOld v _ hv)

/-- A new node has no value. -/
theorem alloc (h : Values s before q) (hNodes : Nodes s before after) {p : Nat}
    {pc : Pc (Numbered α)} (hFree : s.allocated p = false) (hOk : ValueOk s pc)
    (hHeld : pc.role.held = (s.role t).held) (hNone : (s.pc t).finishing = none)
    (hNone' : pc.finishing = none) :
    Values ((s.newNode t p).setPc t pc) before q := by
  have hNe : ∀ q, s.allocated q = true → q ≠ p := by
    rintro q hq rfl
    rw [hFree] at hq
    cases hq
  have hData : ∀ q, q ≠ p → ((s.newNode t p).setPc t pc).data q = s.data q :=
    fun q hq => Function.update_of_ne hq ..
  have hPassed : ∀ q, q ≠ p → ((s.newNode t p).setPc t pc).passed q = s.passed q :=
    fun q hq => Function.update_of_ne hq ..
  have hTail := hNe _ (hNodes.onChain _ (tail_mem_chain s before after)).1
  have hFinishing : ∀ u, (((s.newNode t p).setPc t pc).pc u).finishing = (s.pc u).finishing :=
    observe_update Pc.finishing rfl (hNone'.trans hNone.symm)
  -- what the other nodes are to a thread stays
  have hOthers : ∀ {pc' : Pc (Numbered α)}, ValueOk s pc' →
      (∀ r, pc'.role.held = some r → r ≠ p) → ValueOk ((s.newNode t p).setPc t pc) pc' := by
    intro pc' hOk' hHeld'
    refine hOk'.congr ?_ ?_ ?_ ?_ fun _ hv => hv
    · intro r hr hAt
      rw [hPassed r (hHeld' r hr)]
      exact hAt
    · rintro old rfl
      rw [hData _ (hHeld' _ rfl)]
      exact hOk'
    · intro r value hr hPlaced
      rw [Placed, hData r (hHeld' r hr), hPassed r (hHeld' r hr)]
      exact hPlaced
    · intro r hr hAt
      rw [hData r (hHeld' r hr)]
      exact hAt
  refine ⟨?_, h.pushed, h.popped, ?_, ?_, ?_, ?_⟩
  · rw [← h.items]
    refine List.map_congr_left ?_
    intro q hq
    exact hData q (hNe q (hNodes.onChain q (List.mem_append_left _ hq)).1)
  · intro q hAlloc hAhead hNotTail
    by_cases hqp : q = p
    · rw [hqp]
      exact Function.update_self ..
    · rw [hPassed q hqp] at hAhead
      rw [hData q hqp]
      refine h.ahead q ?_ hAhead hNotTail
      replace hAlloc : Function.update s.allocated p true q = true := hAlloc
      rwa [Function.update_of_ne hqp] at hAlloc
  · intro u
    show ValueOk _ (Function.update s.pc t pc u)
    rcases update_at s.pc t pc u with ⟨rfl, hAt⟩ | ⟨-, hAt⟩ <;> rw [hAt]
    · exact hOthers hOk fun r hr => hNe r (hNodes.held u r (hHeld ▸ hr)).1
    · exact hOthers (h.pcs u) fun r hr => hNe r (hNodes.held u r hr).1
  · simp only [hFinishing]
    intro value hValue
    exact h.filling value ((hData _ hTail).symm.trans hValue)
  · simp only [hFinishing]
    exact h.finishUnique

/-- A `pop` takes its value out of the node that `head` has passed. -/
theorem popData (h : Values s before q) (hInv : Inv s before after) {old : CountedNodePtr}
    (hpc : s.pc t = .popData old) :
    Values { s.setPc t (.freeLoad .head old (.popReturn (s.data old.ptr))) with
      data := Function.update s.data old.ptr none } before q := by
  have hClosing : (s.role t).closing = some (.head, old) := by
    rw [State.role, hpc]
    rfl
  obtain ⟨hHeld, -, hPassHead⟩ := hInv.counts.closing t .head old hClosing
  obtain ⟨hAlloc, hPub, -⟩ := hInv.nodes.held t old.ptr hHeld
  have hOff : old.ptr ∉ s.chain before after := by
    intro hMem
    rw [(hInv.nodes.onChain _ hMem).2.2] at hPassHead
    cases hPassHead
  have hNotTail : old.ptr ≠ (s.counter .tail).ptr :=
    fun hEq => hOff (hEq ▸ tail_mem_chain s before after)
  have hPassTail := hInv.nodes.behind _ hAlloc hPub hOff .tail
  have hOther : ∀ p, p ≠ old.ptr → Function.update s.data old.ptr none p = s.data p :=
    fun p hp => Function.update_of_ne hp ..
  have hFinishing := observe_update Pc.finishing (g := (s.setPc t
    (.freeLoad .head old (.popReturn (s.data old.ptr)))).pc) rfl (by rw [hpc]; rfl)
  refine ⟨?_, h.pushed, h.popped, ?_, ?_, ?_, ?_⟩
  · rw [← h.items]
    refine List.map_congr_left ?_
    intro p hp
    exact hOther p fun hEq => hOff (hEq ▸ List.mem_append_left _ hp)
  · intro p hAllocP hAhead hNe
    have hp : p ≠ old.ptr := by
      rintro rfl
      cases hPassTail.symm.trans hAhead
    exact (hOther p hp).trans (h.ahead p hAllocP hAhead hNe)
  · intro u
    show ValueOk _ (Function.update s.pc t _ u)
    rcases update_at s.pc t (.freeLoad .head old (.popReturn (s.data old.ptr))) u with
      ⟨rfl, hAt⟩ | ⟨hut, hAt⟩ <;> rw [hAt]
    · intro value hk
      cases hk
    · refine (h.pcs u).congr (fun _ _ hAt => hAt) ?_ ?_ ?_ fun _ hv => hv
      · -- only one `pop` moved `head` past the node
        intro old' hpc'
        have hne : old'.ptr ≠ old.ptr := by
          intro hEq
          refine hut (hInv.counts.closingUnique u t .head old' old ?_ hClosing hEq)
          rw [State.role, hpc']
          rfl
        have hOk := h.pcs u
        rw [hpc'] at hOk
        exact fun hNone => hOk ((hOther _ hne).symm.trans hNone)
      · rintro p value - (⟨rfl, hValue⟩ | hPlaced)
        · exact Or.inl ⟨rfl, (hOther _ hNotTail.symm).trans hValue⟩
        · exact Or.inr hPlaced
      · rintro p - hp rfl
        exact fun hNone => hp rfl ((hOther _ hNotTail.symm).symm.trans hNone)
  · simp only [hFinishing]
    intro value hValue
    exact h.filling value ((hOther _ hNotTail.symm).symm.trans hValue)
  · simp only [hFinishing]
    exact h.finishUnique

/-- A `push` puts its value into the tail node. -/
theorem pushData (h : Values s before q) (hInv : Inv s before after) {value : Numbered α}
    {new old : CountedNodePtr} (hpc : s.pc t = .pushData value new old)
    (hData : s.data old.ptr = none) (hFresh : s.passed old.ptr .head = false)
    (hNew : ∀ u p, (s.pc u).finishing ≠ some (value, p)) :
    Values { s.setPc t (.pushNext value new old) with
      data := Function.update s.data old.ptr (some value) } before q := by
  have hHeld : (s.role t).held = some old.ptr := by
    rw [State.role, hpc]
    rfl
  have hTail := h.at_tail hInv.nodes hHeld hData hFresh
  have hOff : old.ptr ∉ before := fun hMem => h.data_of_mem hMem hData
  have hOther : ∀ p, p ≠ old.ptr → Function.update s.data old.ptr (some value) p = s.data p :=
    fun p hp => Function.update_of_ne hp ..
  have hHere : Function.update s.data old.ptr (some value) (s.counter .tail).ptr = some value := by
    rw [← hTail, Function.update_self]
  have hFinishing : ∀ u x, ((Function.update s.pc t (.pushNext value new old)) u).finishing =
      some x → (u = t ∧ x = (value, old.ptr)) ∨ (s.pc u).finishing = some x := by
    intro u x hu
    rcases update_at s.pc t (.pushNext value new old) u with ⟨rfl, hAt⟩ | ⟨-, hAt⟩ <;>
      rw [hAt] at hu
    · exact Or.inl ⟨rfl, (Option.some.inj hu).symm⟩
    · exact Or.inr hu
  refine ⟨?_, h.pushed, h.popped, ?_, ?_, ?_, ?_⟩
  · rw [← h.items]
    refine List.map_congr_left ?_
    intro p hp
    exact hOther p fun hEq => hOff (hEq ▸ hp)
  · intro p hAllocP hAhead hNe
    exact (hOther p fun hEq => hNe (hEq.trans hTail)).trans (h.ahead p hAllocP hAhead hNe)
  · intro u
    show ValueOk _ (Function.update s.pc t _ u)
    rcases update_at s.pc t (.pushNext value new old) u with ⟨rfl, hAt⟩ | ⟨-, hAt⟩ <;> rw [hAt]
    · exact Or.inl ⟨hTail, Function.update_self ..⟩
    · refine (h.pcs u).congr (fun _ _ hAt => hAt) ?_ ?_ ?_ fun _ hv => hv
      · intro old' hpc'
        have hOk := h.pcs u
        rw [hpc'] at hOk
        have hne : old'.ptr ≠ old.ptr := fun hEq => hOk (by rw [hEq]; exact hData)
        exact fun hNone => hOk ((hOther _ hne).symm.trans hNone)
      · rintro p value' - (⟨rfl, hValue⟩ | hPlaced)
        · rw [← hTail, hData] at hValue
          cases hValue
        · exact Or.inr hPlaced
      · rintro p - - rfl
        exact fun hNone => Option.some_ne_none value (hHere.symm.trans hNone)
  · intro value' hValue
    obtain rfl : value = value' := Option.some.inj (hHere.symm.trans hValue)
    refine ⟨t, ?_⟩
    show (Function.update s.pc t (.pushNext value new old) t).finishing =
      some (value, (s.counter .tail).ptr)
    rw [Function.update_self, ← hTail]
    rfl
  · intro u v value' p p' hu hv
    rcases hFinishing u _ hu with ⟨rfl, hEq⟩ | hu <;>
      rcases hFinishing v _ hv with ⟨hvt, hEq'⟩ | hv
    · exact hvt.symm
    · cases hEq
      exact absurd hv (hNew v p')
    · cases hEq'
      exact absurd hu (hNew u p)
    · exact h.finishUnique u v value' p p' hu hv

omit [DecidableEq τ] in
/-- `passed` grows only. -/
theorem passed_move (s : State τ α) (side : Side) (old new : CountedNodePtr) {p : Nat}
    {side' : Side} (h : s.passed p side' = true) : (s.move side old new).passed p side' = true := by
  show Function.update s.passed old.ptr _ p side' = true
  rcases update_at s.passed old.ptr (Function.update (s.passed old.ptr) side true) p with
    ⟨rfl, hAt⟩ | ⟨-, hAt⟩ <;> rw [hAt]
  · rcases update_at (s.passed old.ptr) side true side' with ⟨-, hAt'⟩ | ⟨-, hAt'⟩ <;> rw [hAt']
    exact h
  · exact h

/-- A `pop` takes the front item. -/
theorem moveHead (h : Values s before q) (hInv : Inv s before after) {next : CountedNodePtr}
    (hpc : s.pc t = .popCas (s.counter .head) next) :
    ∃ x items, q.items = x :: items ∧ s.data (s.counter .head).ptr = some x ∧
      Values { (s.move .head (s.counter .head) next).setPc t (.popData (s.counter .head)) with
        popped := s.popped ++ (s.data (s.counter .head).ptr).toList } before.tail
        { q with items := items, popped := q.popped ++ [x] } := by
  have hKnows := hInv.knows t
  rw [hpc] at hKnows
  obtain ⟨hAlloc, hPub, hAhead⟩ := hInv.nodes.onChain _ hInv.nodes.head_mem
  obtain ⟨rest, rfl⟩ : ∃ rest, before = (s.counter .head).ptr :: rest := by
    have hMem := hInv.nodes.mem_before hAlloc hPub hAhead hKnows.1
    cases before with
    | nil => cases hMem
    | cons p rest => exact ⟨rest, by rw [hInv.nodes.linked.1]⟩
  have hItems := h.items
  rw [List.map_cons] at hItems
  obtain ⟨x, items, hq, hTop, hRest⟩ : ∃ x items, q.items = x :: items ∧
      s.data (s.counter .head).ptr = some x ∧ rest.map s.data = items.map some := by
    cases hq : q.items with
    | nil =>
      rw [hq] at hItems
      cases hItems
    | cons x items =>
      rw [hq, List.map_cons] at hItems
      obtain ⟨hTop, hRest⟩ := List.cons.inj hItems
      exact ⟨x, items, rfl, hTop, hRest⟩
  have hTailSame : Function.update s.counter .head next .tail = s.counter .tail :=
    Function.update_of_ne (by decide) ..
  have hFinishing : ∀ u, (Function.update s.pc t (.popData (s.counter .head)) u).finishing =
      (s.pc u).finishing := observe_update Pc.finishing rfl (by rw [hpc]; rfl)
  refine ⟨x, items, hq, hTop, hRest, ?_, ?_, ?_, ?_, ?_, ?_⟩
  · exact h.pushed
  · show q.popped ++ [x] = s.popped ++ (s.data (s.counter .head).ptr).toList
    rw [h.popped, hTop]
    rfl
  · intro p hAllocP hAheadP hNe
    refine h.ahead p hAllocP ?_ ?_
    · by_contra hNot
      cases (passed_move s .head (s.counter .head) next (Bool.not_eq_false _ ▸ hNot)).symm.trans
        hAheadP
    · intro hEq
      refine hNe (hEq.trans ?_)
      show _ = (Function.update s.counter .head next .tail).ptr
      rw [hTailSame]
  · intro u
    show ValueOk _ (Function.update s.pc t _ u)
    rcases update_at s.pc t (.popData (s.counter .head)) u with ⟨rfl, hAt⟩ | ⟨-, hAt⟩ <;> rw [hAt]
    · intro hNone
      cases hTop.symm.trans hNone
    · refine (h.pcs u).congr ?_ ?_ ?_ ?_ fun _ hv => hv
      · rintro p - (rfl | hPass)
        · right
          show Function.update s.passed _ _ _ Side.head = true
          rw [Function.update_self, Function.update_self]
        · exact Or.inr (passed_move s _ _ next hPass)
      · intro old hpc'
        have hOk := h.pcs u
        rw [hpc'] at hOk
        exact hOk
      · rintro p value - (⟨hp, hValue⟩ | ⟨hPass, hMem⟩)
        · refine Or.inl ⟨hp.trans ?_, hValue⟩
          show _ = (Function.update s.counter .head next .tail).ptr
          rw [hTailSame]
        · exact Or.inr ⟨passed_move s _ _ next hPass, hMem⟩
      · intro p _ hp hEq
        refine hp (hEq.trans ?_)
        show (Function.update s.counter .head next .tail).ptr = _
        rw [hTailSame]
  · intro value hValue
    replace hValue : s.data (Function.update s.counter .head next .tail).ptr = some value := hValue
    show ∃ u, (Function.update s.pc t _ u).finishing =
      some (value, (Function.update s.counter .head next .tail).ptr)
    simp only [hFinishing]
    rw [hTailSame] at hValue ⊢
    exact h.filling value hValue
  · intro u v value p p' hu hv
    exact h.finishUnique u v value p p' ((hFinishing u).symm.trans hu)
      ((hFinishing v).symm.trans hv)

omit [DecidableEq τ] in
/-- A thread that makes the successor of its node the tail sees a value in the node. -/
theorem tail_value (h : Values s before q) (hInv : Inv s before after)
    {pusher : Pusher (Numbered α)} {new : CountedNodePtr}
    (hpc : s.pc t = .setNewTail pusher (s.counter .tail) new) :
    ∃ x, s.data (s.counter .tail).ptr = some x ∧ ∀ value, pusher = .finish value → value = x := by
  have hOk := h.pcs t
  rw [hpc] at hOk
  cases pusher with
  | finish value =>
    rcases hOk with ⟨-, hValue⟩ | ⟨hPass, -⟩
    · refine ⟨value, hValue, ?_⟩
      intro value' hEq
      cases hEq
      rfl
    · rw [hInv.nodes.counter_ahead .tail] at hPass
      cases hPass
  | help value newNext =>
    obtain ⟨x, hx⟩ := Option.ne_none_iff_exists'.mp (hOk rfl)
    refine ⟨x, hx, ?_⟩
    intro value' hEq
    cases hEq

/-- The value in the tail node joins the items. -/
theorem moveTail (h : Values s before q) (hInv : Inv s before after)
    {pusher : Pusher (Numbered α)} {new : CountedNodePtr}
    (hpc : s.pc t = .setNewTail pusher (s.counter .tail) new) :
    ∃ x, s.data (s.counter .tail).ptr = some x ∧ s.data new.ptr = none ∧
      Values { (s.move .tail (s.counter .tail) new).setPc t
          (.freeLoad .tail (s.counter .tail) (pusher.cont (s.counter .tail))) with
        pushed := s.pushed ++ (s.data (s.counter .tail).ptr).toList }
        (before ++ [(s.counter .tail).ptr])
        { q with items := q.items ++ [x], pushed := q.pushed ++ [x] } := by
  obtain ⟨x, hx, hOwn⟩ := h.tail_value hInv hpc
  have hNewTail : Function.update s.counter .tail new .tail = new := Function.update_self ..
  have hHeadSame : Function.update s.counter .tail new .head = s.counter .head :=
    Function.update_of_ne (by decide) ..
  have hNewAhead := hInv.new_ahead hpc
  have hPassed : Function.update s.passed (s.counter .tail).ptr
      (Function.update (s.passed (s.counter .tail).ptr) .tail true) (s.counter .tail).ptr .tail =
        true := by
    rw [Function.update_self, Function.update_self]
  have hFinishing : ∀ u y, (Function.update s.pc t
      (.freeLoad .tail (s.counter .tail) (pusher.cont (s.counter .tail))) u).finishing = some y →
      (s.pc u).finishing = some y := by
    intro u y hu
    rcases update_at s.pc t
      (.freeLoad .tail (s.counter .tail) (pusher.cont (s.counter .tail))) u with
        ⟨rfl, hAt⟩ | ⟨-, hAt⟩ <;> rw [hAt] at hu
    · cases hu
    · exact hu
  have hPushed : ∀ value ∈ s.pushed,
      value ∈ s.pushed ++ (s.data (s.counter .tail).ptr).toList :=
    fun value hv => List.mem_append_left _ hv
  have hNow : x ∈ s.pushed ++ (s.data (s.counter .tail).ptr).toList := by
    rw [hx]
    exact List.mem_append_right _ List.mem_cons_self
  have hNewNone := h.ahead _ hNewAhead.1 hNewAhead.2.1 hNewAhead.2.2
  refine ⟨x, hx, hNewNone, ?_, ?_, h.popped, ?_, ?_, ?_, ?_⟩
  · show (before ++ [(s.counter .tail).ptr]).map s.data = (q.items ++ [x]).map some
    rw [List.map_append, List.map_append, h.items, List.map_singleton, List.map_singleton, hx]
  · show q.pushed ++ [x] = s.pushed ++ (s.data (s.counter .tail).ptr).toList
    rw [h.pushed, hx]
    rfl
  · intro p hAllocP hAheadP hNe
    refine h.ahead p hAllocP ?_ ?_
    · by_contra hNot
      cases (passed_move s .tail (s.counter .tail) new (Bool.not_eq_false _ ▸ hNot)).symm.trans
        hAheadP
    · rintro rfl
      cases hPassed.symm.trans hAheadP
  · intro u
    show ValueOk _ (Function.update s.pc t _ u)
    rcases update_at s.pc t (.freeLoad .tail (s.counter .tail) (pusher.cont (s.counter .tail))) u
      with ⟨rfl, hAt⟩ | ⟨-, hAt⟩ <;> rw [hAt]
    · intro value hk
      cases pusher with
      | finish value' =>
        cases hk
        rw [hOwn value rfl]
        exact hNow
      | help value' newNext => cases hk
    · refine (h.pcs u).congr ?_ ?_ ?_ ?_ hPushed
      · rintro p - (hp | hPass)
        · refine Or.inl (hp.trans ?_)
          show _ = (Function.update s.counter .tail new .head).ptr
          rw [hHeadSame]
        · exact Or.inr (passed_move s _ _ new hPass)
      · intro old hpc'
        have hOk := h.pcs u
        rw [hpc'] at hOk
        exact hOk
      · rintro p value - (⟨rfl, hValue⟩ | ⟨hPass, hMem⟩)
        · obtain rfl : x = value := Option.some.inj (hx.symm.trans hValue)
          exact Or.inr ⟨hPassed, hNow⟩
        · exact Or.inr ⟨passed_move s _ _ new hPass, hPushed value hMem⟩
      · -- nobody holds the new tail node yet
        intro p hp _ hEq
        replace hEq : p = (Function.update s.counter .tail new .tail).ptr := hEq
        rw [hNewTail] at hEq
        refine absurd ?_ hNewAhead.2.2
        rw [← hEq]
        exact hInv.not_held_ahead hp (hEq ▸ hNewAhead.2.1)
  · intro value hValue
    replace hValue : s.data (Function.update s.counter .tail new .tail).ptr = some value := hValue
    rw [hNewTail, hNewNone] at hValue
    cases hValue
  · intro u v value p p' hu hv
    exact h.finishUnique u v value p p' (hFinishing u _ hu) (hFinishing v _ hv)

end Values

-- ---------------------------------------------------------------------------
-- Steps that leave the values alone
-- ---------------------------------------------------------------------------

omit [DecidableEq τ] in
/-- A quiet step relies on nothing new. -/
theorem Quiet.valueOk {pc pc' : Pc (Numbered α)} (h : Quiet s pc pc') (hOk : ValueOk s pc) :
    ValueOk s pc' := by
  cases h with
  | again h => cases h <;> trivial
  | popEmpty hEq =>
    intro value hk
    cases hk
  | popFail hNe =>
    intro value hk
    cases hk
  | pushTaken hData => exact fun _ => hData
  | pushHelped hNext => exact hOk
  | helpHelped hNext => exact hOk
  | @tailSame pusher old new hEq =>
    cases pusher with
    | finish value =>
      show Placed s value (s.counter .tail).ptr
      rw [hEq]
      exact hOk
    | help value newNext =>
      show _ → s.data (s.counter .tail).ptr ≠ none
      rw [hEq]
      exact fun _ => hOk hEq.symm
  | @tailMoved pusher old new hNe =>
    intro value hk
    cases pusher with
    | finish value' =>
      cases hk
      have hPlaced : Placed s value old.ptr := hOk
      exact (hPlaced.resolve_left fun hAt => hNe hAt.1.symm).2
    | help value' newNext => cases hk
  | freeCounter hpc =>
    rcases hpc with rfl | ⟨counter, rfl⟩ <;> exact hOk
  | releaseCounter hpc =>
    rcases hpc with rfl | ⟨counter, rfl⟩ <;> exact hOk
  | _ => trivial

omit [DecidableEq τ] in
/-- It is no operation. -/
theorem Quiet.fifoOps {pc pc' : Pc (Numbered α)} (h : Quiet s pc pc') :
    fifoOps s pc pc' = [] := by
  cases h with
  | again h => cases h <;> rfl
  | freeCounter hpc =>
    rcases hpc with rfl | ⟨counter, rfl⟩ <;> rfl
  | releaseCounter hpc =>
    rcases hpc with rfl | ⟨counter, rfl⟩ <;> rfl
  | _ => rfl

/-- Neither program point has a value in the node. -/
theorem finishing_none {pc pc' : Pc (Numbered α)} {p : Nat} (h : pc.finishing = none)
    (h' : pc'.finishing = none) : (∀ x, pc'.finishing = some x → pc.finishing = some x) ∧
      ∀ value, pc.finishing = some (value, p) → pc'.finishing = some (value, p) := by
  rw [h, h']
  exact ⟨fun _ hx => hx, fun _ hx => hx⟩

section

omit [DecidableEq τ]

/-- It leaves whose value is in the tail node. -/
theorem Quiet.finishing {pc pc' : Pc (Numbered α)} (h : Quiet s pc pc') :
    (∀ x, pc'.finishing = some x → pc.finishing = some x) ∧
      ∀ value, pc.finishing = some (value, (s.counter .tail).ptr) →
        pc'.finishing = some (value, (s.counter .tail).ptr) := by
  cases h with
  | again h => cases h <;> exact finishing_none rfl rfl
  | pushHelped hNext => exact ⟨fun x hx => hx, fun value hx => hx⟩
  | @tailSame pusher old new hEq =>
    cases pusher with
    | finish value =>
      have hSame : (Pc.setNewTail (.finish value) (s.counter .tail) new).finishing =
          (Pc.setNewTail (.finish value) old new).finishing := by
        show some (value, (s.counter .tail).ptr) = some (value, old.ptr)
        rw [hEq]
      rw [hSame]
      exact ⟨fun x hx => hx, fun value' hx => hx⟩
    | help value newNext => exact finishing_none rfl rfl
  | @tailMoved pusher old new hNe =>
    refine ⟨?_, ?_⟩
    · intro x hx
      cases hx
    intro value hx
    cases pusher with
    | finish value' =>
      replace hx : some (value', old.ptr) = some (value, (s.counter .tail).ptr) := hx
      exact absurd (Prod.mk.inj (Option.some.inj hx)).2.symm hNe
    | help value' newNext => cases hx
  | freeCounter hpc =>
    rcases hpc with rfl | ⟨counter, rfl⟩ <;> exact finishing_none rfl rfl
  | releaseCounter hpc =>
    rcases hpc with rfl | ⟨counter, rfl⟩ <;> exact finishing_none rfl rfl
  | _ => exact finishing_none rfl rfl

/-- The same for a step on a counter, -/
theorem Increases.values {side : Side} {pc : Pc (Numbered α)}
    {again after : CountedNodePtr → Pc (Numbered α)} {c : Int}
    (h : Increases side (s.counter side) pc again after) :
    ValueOk s (after ⟨c, (s.counter side).ptr⟩) ∧
      (after ⟨c, (s.counter side).ptr⟩).finishing = pc.finishing ∧
      fifoOps s pc (after ⟨c, (s.counter side).ptr⟩) = [] := by
  cases h
  · exact ⟨Or.inl rfl, rfl, rfl⟩
  · exact ⟨trivial, rfl, rfl⟩

/-- for the one that links a node, -/
theorem Links.values {old new : CountedNodePtr} {pc pc' : Pc (Numbered α)}
    (h : Links old new pc pc') (hOk : ValueOk s pc) :
    ValueOk s pc' ∧ pc'.finishing = pc.finishing ∧ fifoOps s pc pc' = [] := by
  cases h <;> exact ⟨hOk, rfl, rfl⟩

/-- and for `new`. -/
theorem Allocates.values {p : Nat} {pc pc' : Pc (Numbered α)} (h : Allocates p pc pc')
    (hOk : ValueOk s pc) : ValueOk s pc' ∧ pc.finishing = none ∧ pc'.finishing = none ∧
      fifoOps s pc pc' = [] := by
  cases h
  · exact ⟨trivial, rfl, rfl, rfl⟩
  · exact ⟨hOk, rfl, rfl, rfl⟩

/-- A node that is there after a `delete` was there before. -/
theorem allocated_of_delete {p r : Nat} (h : (s.deleteNode p).allocated r = true) :
    s.allocated r = true := by
  replace h : Function.update s.allocated p false r = true := h
  rcases update_at s.allocated p false r with ⟨-, hAt⟩ | ⟨-, hAt⟩ <;> rw [hAt] at h
  · cases h
  · exact h

end

/-- Going on after the counts leaves the values, -/
theorem resume_values (s : State τ α) (t : τ) (k : Cont (Numbered α)) :
    (s.resume t k).data = s.data ∧ (s.resume t k).pushed = s.pushed ∧
      (s.resume t k).popped = s.popped := by
  cases k <;> exact ⟨rfl, rfl, rfl⟩

/-- and so does dropping a reference. -/
theorem dropped_values (s : State τ α) (t : τ) (p : Nat) (new : NodeCounter)
    (k : Cont (Numbered α)) : (s.dropped t p new k).data = s.data ∧
      (s.dropped t p new k).pushed = s.pushed ∧ (s.dropped t p new k).popped = s.popped := by
  unfold State.dropped
  split
  · exact ⟨rfl, rfl, rfl⟩
  · exact resume_values s t k

omit [DecidableEq τ] in
/-- A thread that goes on relies on nothing. -/
theorem Cont.pc_valueOk (k : Cont (Numbered α)) : ValueOk s k.pc ∧ k.pc.finishing = none := by
  cases k <;> exact ⟨trivial, rfl⟩

omit [DecidableEq τ] in
/-- A thread that drops its node goes on without a node. -/
theorem droppedPc_valueOk (p : Nat) (new : NodeCounter) {k : Cont (Numbered α)}
    (hk : ∀ value, k = .pushReturn value → value ∈ s.pushed) :
    ValueOk s (droppedPc p new k) ∧ (droppedPc p new k).finishing = none := by
  unfold droppedPc
  split
  · exact ⟨hk, rfl⟩
  · exact k.pc_valueOk

/-- A thread drops its node. -/
theorem Values.dropped (h : Values s before q) {s₁ : State τ α} {p : Nat} {new : NodeCounter}
    {k : Cont (Numbered α)} (hPc : s₁.pc = s.pc) (hData : s₁.data = s.data)
    (hPassed : s₁.passed = s.passed) (hPushed : s₁.pushed = s.pushed)
    (hPopped : s₁.popped = s.popped) (hCounter : s₁.counter = s.counter)
    (hAllocated : s₁.allocated = s.allocated) (hNone : (s.pc t).finishing = none)
    (hk : ∀ value, k = .pushReturn value → value ∈ s.pushed) :
    Values (s₁.dropped t p new k) before q := by
  obtain ⟨hDataEq, hPushedEq, hPoppedEq⟩ := dropped_values s₁ t p new k
  have hSame := sameNodes_dropped s₁ t p new k
  obtain ⟨hOk, hNone'⟩ := droppedPc_valueOk p new hk
  have hPcEq : (s₁.dropped t p new k).pc = Function.update s.pc t (droppedPc p new k) := by
    rw [dropped_pc, hPc]
  refine h.keep hPcEq (hDataEq.trans hData) (hSame.passed.trans hPassed)
    (hPushedEq.trans hPushed) (hPoppedEq.trans hPopped) ?_ ?_ hOk ?_ ?_
  · intro side
    rw [hSame.counter, hCounter]
  · intro r hr
    rwa [hSame.allocated, hAllocated] at hr
  · intro x hx
    rw [hNone'] at hx
    cases hx
  · intro value hx
    rw [hNone] at hx
    cases hx

/-- The step lemma of the refinement. -/
theorem values_effect (h : Values s before q) (hInv : Inv s before after) (he : Effect s t s')
    (hFresh : ∀ value new old, s.pc t = .pushData value new old → s.data old.ptr = none →
      s.passed old.ptr .head = false)
    (hNew : ∀ value new old, s.pc t = .pushData value new old →
      ∀ u p, (s.pc u).finishing ≠ some (value, p)) :
    ∃ q', (unbounded (Numbered α)).exec q (fifoOps s (s.pc t) (s'.pc t)) = some q' ∧
      Values s' (shift s before (s.pc t) (s'.pc t)) q' := by
  have hHere : ∀ pc : Pc (Numbered α), Function.update s.pc t pc t = pc :=
    fun pc => Function.update_self ..
  have hOk := h.pcs t
  -- the accesses after which the thread knows the same values
  have hStay : ∀ {pc : Pc (Numbered α)}, s'.pc = Function.update s.pc t pc →
      s'.data = s.data → s'.passed = s.passed → s'.pushed = s.pushed → s'.popped = s.popped →
      (∀ side, (s'.counter side).ptr = (s.counter side).ptr) → s'.allocated = s.allocated →
      ValueOk s pc → pc.finishing = (s.pc t).finishing → Values s' before q := by
    intro pc hPc hData hPassed hPushed hPopped hCounter hAllocated hOk' hFinishing
    refine h.keep hPc hData hPassed hPushed hPopped hCounter ?_ hOk' ?_ ?_
    · intro p hp
      exact hAllocated ▸ hp
    · intro x hx
      exact hFinishing ▸ hx
    · intro value hx
      exact hFinishing.trans hx
  cases he with
  | @quiet pc hQuiet =>
    refine ⟨q, ?_, ?_⟩
    · rw [show (s.setPc t pc).pc t = pc from hHere pc, hQuiet.fifoOps]
      rfl
    · rw [show (s.setPc t pc).pc t = pc from hHere pc, hQuiet.shift]
      exact h.keep rfl rfl rfl rfl rfl (fun _ => rfl) (fun _ hp => hp) (hQuiet.valueOk hOk)
        hQuiet.finishing.1 hQuiet.finishing.2
  | callPush hpc =>
    refine ⟨q, ?_, ?_⟩ <;> rw [hpc]
    · rfl
    · exact hStay rfl rfl rfl rfl rfl (fun _ => rfl) rfl trivial (by rw [hpc]; rfl)
  | @increase side again aft hInc =>
    obtain ⟨hOk', hFinishing, hOps⟩ := hInc.values (c := (s.counter side).externalCount + 1)
    refine ⟨q, ?_, ?_⟩
    · show (unbounded (Numbered α)).exec q (fifoOps s _ (Function.update s.pc t _ t)) = _
      rw [hHere, hOps]
      rfl
    · show Values _ (shift s before _ (Function.update s.pc t _ t)) _
      rw [hHere, hInc.shift]
      refine hStay rfl rfl rfl rfl rfl ?_ rfl hOk' hFinishing
      intro side'
      show (Function.update s.counter side _ side').ptr = (s.counter side').ptr
      rcases update_at s.counter side
        ⟨(s.counter side).externalCount + 1, (s.counter side).ptr⟩ side' with
          ⟨rfl, hAt⟩ | ⟨-, hAt⟩ <;> rw [hAt]
  | popCas hpc =>
    obtain ⟨x, items, hItems, -, hValues⟩ := h.moveHead hInv hpc
    refine ⟨{ q with items := items, popped := q.popped ++ [x] }, ?_, ?_⟩
    · show (unbounded (Numbered α)).exec q (fifoOps s _ (Function.update s.pc t _ t)) = _
      rw [hHere, hpc]
      exact Fifo.exec_pop hItems
    · show Values _ (shift s before _ (Function.update s.pc t _ t)) _
      rw [hHere, hpc]
      exact hValues
  | popData hpc =>
    refine ⟨q, ?_, ?_⟩ <;> rw [hpc]
    · rfl
    · exact h.popData hInv hpc
  | @pushData value new old hpc hData =>
    refine ⟨q, ?_, ?_⟩ <;> rw [hpc]
    · rfl
    · exact h.pushData hInv hpc hData (hFresh value new old hpc hData) (hNew value new old hpc)
  | @alloc p pc hAllocates hZero hFree =>
    obtain ⟨hOk', hNone, hNone', hOps⟩ := hAllocates.values hOk
    refine ⟨q, ?_, ?_⟩
    · rw [show ((s.newNode t p).setPc t pc).pc t = pc from hHere pc, hOps]
      rfl
    · rw [show ((s.newNode t p).setPc t pc).pc t = pc from hHere pc, hAllocates.shift]
      exact h.alloc hInv.nodes hFree hOk' hAllocates.role.2.1 hNone hNone'
  | @link old new pc hLinks hNext =>
    obtain ⟨hOk', hFinishing, hOps⟩ := hLinks.values hOk
    refine ⟨q, ?_, ?_⟩
    · rw [show ((s.link old.ptr new).setPc t pc).pc t = pc from hHere pc, hOps]
      rfl
    · rw [show ((s.link old.ptr new).setPc t pc).pc t = pc from hHere pc, hLinks.shift]
      exact hStay rfl rfl rfl rfl rfl (fun _ => rfl) rfl hOk' hFinishing
  | @discard value new old next hpc =>
    rw [hpc] at hOk
    refine ⟨q, ?_, ?_⟩ <;> rw [hpc]
    · rfl
    · refine h.keep (t := t) rfl rfl rfl rfl rfl (fun _ => rfl) (fun _ => allocated_of_delete) hOk
        ?_ ?_ <;> rw [hpc]
      · exact fun _ hx => hx
      · exact fun _ hx => hx
  | moveTail hpc =>
    obtain ⟨x, hx, -, hValues⟩ := h.moveTail hInv hpc
    refine ⟨{ q with items := q.items ++ [x], pushed := q.pushed ++ [x] }, ?_, ?_⟩
    · show (unbounded (Numbered α)).exec q (fifoOps s _ (Function.update s.pc t _ t)) = _
      rw [hHere, hpc]
      show (unbounded (Numbered α)).exec q ((s.data (s.counter .tail).ptr).toList.map .push) = _
      rw [hx]
      exact Fifo.exec_push rfl
    · show Values _ (shift s before _ (Function.update s.pc t _ t)) _
      rw [hHere, hpc]
      exact hValues
  | close hpc =>
    rw [hpc] at hOk
    refine ⟨q, ?_, ?_⟩ <;> rw [hpc]
    · rfl
    · exact h.dropped rfl rfl rfl rfl rfl rfl rfl (by rw [hpc]; rfl) hOk
  | release hpc =>
    rw [hpc] at hOk
    refine ⟨q, ?_, ?_⟩ <;> rw [hpc]
    · rfl
    · exact h.dropped rfl rfl rfl rfl rfl rfl rfl (by rw [hpc]; rfl) hOk
  | @delete p k hpc =>
    obtain ⟨hData, hPushed, hPopped⟩ := resume_values (s.deleteNode p) t k
    have hSame := sameNodes_resume (s.deleteNode p) t k
    obtain ⟨hOk', hNone⟩ := k.pc_valueOk (s := s)
    refine ⟨q, ?_, ?_⟩ <;> rw [hpc]
    · rfl
    · refine h.keep (resume_pc (s.deleteNode p) t k) hData hSame.passed hPushed hPopped ?_ ?_ hOk'
        ?_ ?_
      · intro side
        rw [hSame.counter]
        rfl
      · intro r hr
        rw [hSame.allocated] at hr
        exact allocated_of_delete hr
      · intro x hx
        rw [hNone] at hx
        cases hx
      · intro value hx
        rw [hpc] at hx
        cases hx

end EmbLinux.DesignLockFree.Queue
