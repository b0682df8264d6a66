import EmbLinux.DesignLockFree.Stack.Reclamation
import EmbLinux.Lib.Lifo
import EmbLinux.Lib.Placement

/-!
# EmbLinux — the values of `lock_free_stack`

`Values s l q` — the data of the nodes on the stack are the items of an abstract stack.
`Tickets s q place` — a numbered value is with the `push` that brings it, on the stack,
in the hands of one `pop`, or returned, and in exactly one of these places.
-/

namespace EmbLinux.DesignLockFree.Stack

variable {τ α : Type*} [DecidableEq τ] {s s' : State τ α} {a : Action τ α} {t : τ}
  {l l' : List Nat} {q q' : Lifo (Numbered α)}

-- ---------------------------------------------------------------------------
-- The abstract stack
-- ---------------------------------------------------------------------------

/-- What a thread relies on about the values. -/
def ValueOk (s : State τ α) : Pc (Numbered α) → Prop
  | .pushLoad data p | .pushCas data p => s.data p = some data
  | .popSwap old => s.data old.ptr ≠ none
  | .popAdd _ res | .delete _ (.popReturn res) => res ≠ none
  | _ => True

/-- The nodes of the chain hold the values of the stack in order. -/
structure Values (s : State τ α) (l : List Nat) (q : Lifo (Numbered α)) : Prop where
  items : l.map s.data = q.items.map some
  pcs : ∀ t, ValueOk s (s.pc t)

/-- What a step does to the abstract stack, by where its thread stands before and after
it. -/
def stackOps {β : Type*} : Pc β → Pc β → List (Lifo.Op β)
  | .popCas _ _, .popSwap _ => [.pop]
  | .pushCas data _, .idle _ => [.push data]
  | _, _ => []

omit [DecidableEq τ] in
/-- What a thread may rely on depends on the nodes it owns or has popped only. -/
theorem ValueOk.congr {pc : Pc (Numbered α)} (h : ValueOk s pc)
    (hOwned : ∀ p, pc.role.owned = some p → s'.data p = s.data p)
    (hClosing : ∀ old, pc.role.closing = some old → s'.data old.ptr = s.data old.ptr) :
    ValueOk s' pc := by
  cases pc with
  | pushLoad data p => exact (hOwned p rfl).trans h
  | pushCas data p => exact (hOwned p rfl).trans h
  | popSwap old =>
    show s'.data old.ptr ≠ none
    rw [hClosing old rfl]
    exact h
  | popAdd old res => exact h
  | delete p k =>
    cases k with
    | popReturn res => exact h
    | popRetry old => trivial
  | _ => trivial

omit [DecidableEq τ] in
/-- A quiet step relies on nothing new and is no operation. -/
theorem Quiet.valueOk {pc pc' : Pc (Numbered α)} (h : Quiet s pc pc') :
    ValueOk s pc' ∧ stackOps pc pc' = [] := by
  cases h <;> exact ⟨trivial, rfl⟩

/-- What a step does to the data: the other threads keep theirs. -/
theorem data_frame (hInv : Inv s l) (he : Effect s t s') {u : τ} (hut : u ≠ t) {p : Nat}
    (hp : s.owned u = some p ∨ ∃ old, s.closing u = some old ∧ old.ptr = p) :
    s'.data p = s.data p := by
  have hAlloc : s.allocated p = true := by
    rcases hp with hOwned | ⟨old, hClosing, rfl⟩
    · exact (hInv.nodes.owned u p hOwned).2.1
    · exact (hInv.nodes.held u _ (hInv.counts.closing u old hClosing).1).2.1
  cases he with
  | @popSwap old hpc =>
    obtain ⟨hRef, hClosing, -, -⟩ := role_at hpc
    refine Function.update_of_ne ?_ ..
    rintro rfl
    rcases hp with hOwned | ⟨old', hClosing', hEq⟩
    · exact (hInv.nodes.held t _ hRef).2.2 u hOwned
    · exact hut (hInv.counts.closingUnique u t old' old hClosing' hClosing hEq)
  | @alloc data r hpc hZero hFree =>
    refine Function.update_of_ne ?_ ..
    rintro rfl
    rw [hAlloc] at hFree
    cases hFree
  | @delete r k hpc => cases k <;> rfl
  | _ => rfl

/-- The thread that moved, and the others. -/
theorem Values.move (h : Values s l q) (hInv : Inv s l) (he : Effect s t s')
    (hItems : l'.map s'.data = q'.items.map some) (hOwn : ValueOk s' (s'.pc t)) :
    Values s' l' q' := by
  refine ⟨hItems, ?_⟩
  intro u
  by_cases hut : u = t
  · rw [hut]
    exact hOwn
  · rw [pc_frame he hut]
    exact (h.pcs u).congr (fun p hp => data_frame hInv he hut (Or.inl hp))
      fun old hOld => data_frame hInv he hut (Or.inr ⟨old, hOld, rfl⟩)

omit [DecidableEq τ] in
/-- A `pop` takes the top item. -/
theorem Values.top (h : Values s l q) (hInv : Inv s l) (hPtr : s.head.ptr ≠ 0) :
    ∃ x items, q.items = x :: items ∧ s.data s.head.ptr = some x ∧
      l.tail.map s.data = items.map some := by
  obtain ⟨rest, rfl, -, -, -, -⟩ := hInv.nodes.head_cons hPtr
  have hItems := h.items
  rw [List.map_cons] at hItems
  cases hq : q.items with
  | nil =>
    rw [hq] at hItems
    cases hItems
  | cons x items =>
    rw [hq, List.map_cons] at hItems
    obtain ⟨hTop, hRest⟩ := List.cons.inj hItems
    exact ⟨x, items, rfl, hTop, hRest⟩

/-- The step lemma of the refinement. -/
theorem values_effect (h : Values s l q) (hInv : Inv s l) (he : Effect s t s') :
    ∃ q', (Lifo.system (Numbered α)).exec q (stackOps (s.pc t) (s'.pc t)) = some q' ∧
      Values s' (shift l (s.pc t) (s'.pc t)) q' := by
  have hHere : ∀ pc : Pc (Numbered α), Function.update s.pc t pc t = pc :=
    fun pc => Function.update_self ..
  have hOk := h.pcs t
  -- the accesses that leave the nodes of the stack and their data
  have hStay : ∀ {pc pc' : Pc (Numbered α)}, s.pc t = pc → s'.pc t = pc' →
      shift l pc pc' = l → stackOps pc pc' = [] → (∀ p ∈ l, s'.data p = s.data p) →
      ValueOk s' pc' →
      ∃ q', (Lifo.system (Numbered α)).exec q (stackOps (s.pc t) (s'.pc t)) = some q' ∧
        Values s' (shift l (s.pc t) (s'.pc t)) q' := by
    intro pc pc' hpc hpc' hShift hOps hData hOk'
    rw [hpc, hpc', hShift, hOps]
    refine ⟨q, rfl, h.move hInv he ?_ (hpc' ▸ hOk')⟩
    rw [← h.items]
    exact List.map_congr_left hData
  cases he with
  | @quiet pc hQuiet =>
    obtain ⟨hOk', hOps⟩ := hQuiet.valueOk
    exact hStay rfl (hHere pc) hQuiet.shift hOps (fun _ _ => rfl)
      (hOk'.congr (fun _ _ => rfl) fun _ _ => rfl)
  | callPush hpc => exact hStay hpc (hHere _) rfl rfl (fun _ _ => rfl) trivial
  | empty hpc hNull => exact hStay hpc (hHere _) rfl rfl (fun _ _ => rfl) trivial
  | increase hpc hPtr => exact hStay hpc (hHere _) rfl rfl (fun _ _ => rfl) trivial
  | @popCas next hpc =>
    have hPtr := (hInv.nodes.held t _ (role_at hpc).1).1
    obtain ⟨x, items, hItems, hTop, hRest⟩ := h.top hInv hPtr
    refine ⟨{ q with items := items, popped := q.popped ++ [x] }, ?_, ?_⟩
    · show (Lifo.system (Numbered α)).exec q (stackOps (s.pc t) (Function.update s.pc t _ t)) = _
      rw [hHere, hpc]
      exact Lifo.exec_pop hItems
    · show Values _ (shift l (s.pc t) (Function.update s.pc t _ t)) _
      rw [hHere, hpc]
      refine h.move hInv (.popCas hpc) hRest ?_
      show ValueOk _ (Function.update s.pc t _ t)
      rw [hHere]
      exact fun hNone => Option.some_ne_none x (hTop.symm.trans hNone)
  | @popSwap old hpc =>
    obtain ⟨-, hClosing, -, -⟩ := role_at hpc
    obtain ⟨-, -, hOff⟩ := hInv.counts.closing t old hClosing
    rw [hpc] at hOk
    refine hStay hpc (hHere _) rfl rfl ?_ hOk
    intro p hp
    have hne : p ≠ old.ptr := fun hEq => hOff (hEq ▸ hp)
    exact Function.update_of_ne hne ..
  | closeLast hpc hLast =>
    rw [hpc] at hOk
    exact hStay hpc (hHere _) rfl rfl (fun _ _ => rfl) hOk
  | close hpc hNot => exact hStay hpc (hHere _) rfl rfl (fun _ _ => rfl) trivial
  | releaseLast hpc hLast => exact hStay hpc (hHere _) rfl rfl (fun _ _ => rfl) trivial
  | release hpc hNot => exact hStay hpc (hHere _) rfl rfl (fun _ _ => rfl) trivial
  | @delete p k hpc =>
    cases k <;> exact hStay hpc (hHere _) rfl rfl (fun _ _ => rfl) trivial
  | @alloc data p hpc hZero hFree =>
    refine hStay hpc (hHere _) rfl rfl ?_ (Function.update_self ..)
    intro r hr
    have hne : r ≠ p := by
      rintro rfl
      rw [hInv.nodes.onChain r hr] at hFree
      cases hFree
    exact Function.update_of_ne hne ..
  | @storeNext data p hpc =>
    have hData : s.data p = some data := by
      rcases hpc with hpc | hpc <;> rw [hpc] at hOk <;> exact hOk
    have hShift : shift l (s.pc t) (.pushCas data p) = l := by
      rcases hpc with hpc | hpc <;> rw [hpc] <;> rfl
    have hOps : stackOps (s.pc t) (.pushCas data p) = [] := by
      rcases hpc with hpc | hpc <;> rw [hpc] <;> rfl
    exact hStay rfl (hHere _) hShift hOps (fun _ _ => rfl) hData
  | @pushCas data p hpc hHead =>
    rw [hpc] at hOk
    refine ⟨{ q with items := data :: q.items, pushed := q.pushed ++ [data] }, ?_, ?_⟩
    · show (Lifo.system (Numbered α)).exec q (stackOps (s.pc t) (Function.update s.pc t _ t)) = _
      rw [hHere, hpc]
      exact Lifo.exec_push q data
    · show Values _ (shift l (s.pc t) (Function.update s.pc t _ t)) _
      rw [hHere, hpc]
      refine h.move hInv (.pushCas hpc hHead) ?_ ?_
      · show s.data p :: l.map s.data = some data :: q.items.map some
        rw [h.items, show s.data p = some data from hOk]
      · show ValueOk _ (Function.update s.pc t _ t)
        rw [hHere]
        trivial

-- ---------------------------------------------------------------------------
-- Each value is in one place
-- ---------------------------------------------------------------------------

/-- Where a value is, once its `push` was called. -/
inductive Place (τ : Type*)
  | pushing (t : τ)
  | stored
  | popping (t : τ)
  | returned

/-- The value of a running `push` that is not on the stack yet. -/
def Pc.pushing {β : Type*} : Pc β → Option β
  | .pushNew data | .pushLoad data _ | .pushCas data _ => some data
  | _ => none

/-- The value that a running `pop` took and has not returned yet. -/
def inHand (s : State τ α) : Pc (Numbered α) → Option (Numbered α)
  | .popSwap old => s.data old.ptr
  | .popAdd _ res | .delete _ (.popReturn res) => res
  | _ => none

/-- The values at each place. -/
def queues (s : State τ α) (q : Lifo (Numbered α)) : Place τ → List (Numbered α)
  | .pushing t => (s.pc t).pushing.toList
  | .stored => q.items
  | .popping t => (inHand s (s.pc t)).toList
  | .returned => s.returned

/-- Every value handed to `push` has exactly one place. -/
structure Tickets (s : State τ α) (q : Lifo (Numbered α))
    (place : Numbered α → Option (Place τ)) : Prop where
  placement : Placement (queues s q) place
  bound : ∀ x, place x ≠ none → x.1 < s.calls

omit [DecidableEq τ] in
/-- What is taken depends on the popped node only, -/
theorem inHand_congr {pc : Pc (Numbered α)}
    (h : ∀ old, pc.role.closing = some old → s'.data old.ptr = s.data old.ptr) :
    inHand s' pc = inHand s pc := by
  cases pc with
  | popSwap old => exact h old rfl
  | delete p k => cases k <;> rfl
  | _ => rfl

/-- which nobody else writes. -/
theorem hand_frame (hInv : Inv s l) (he : Effect s t s') {u : τ} (hut : u ≠ t) :
    inHand s' (s'.pc u) = inHand s (s.pc u) := by
  rw [pc_frame he hut]
  exact inHand_congr fun old hOld => data_frame hInv he hut (Or.inr ⟨old, hOld, rfl⟩)

namespace Tickets

variable {place : Numbered α → Option (Place τ)}

/-- A step after which every value is where it was. -/
theorem keep (h : Tickets s q place) (hInv : Inv s l) (he : Effect s t s')
    (hPushing : (s'.pc t).pushing = (s.pc t).pushing)
    (hHand : inHand s' (s'.pc t) = inHand s (s.pc t)) (hReturned : s'.returned = s.returned)
    (hCalls : s'.calls = s.calls) : Tickets s' q place := by
  have hSame : queues s' q = queues s q := by
    funext k
    cases k with
    | pushing u =>
      by_cases hut : u = t
      · rw [hut, queues, hPushing, queues]
      · rw [queues, pc_frame he hut, queues]
    | stored => rfl
    | popping u =>
      by_cases hut : u = t
      · rw [hut, queues, hHand, queues]
      · rw [queues, hand_frame hInv he hut, queues]
    | returned => exact hReturned
  refine ⟨?_, ?_⟩
  · rw [hSame]
    exact h.placement
  · rw [hCalls]
    exact h.bound

/-- A value moves from one place to another, in a step of `t`. -/
theorem move (h : Tickets s q place) (hInv : Inv s l) (he : Effect s t s') {x : Numbered α}
    {k j : Place τ} (hne : k ≠ j) (hLeave : queues s q k = x :: queues s' q' k)
    (hEnter : (queues s' q' j).Perm (x :: queues s q j))
    (hPushing : Place.pushing t ≠ k → (s'.pc t).pushing = (s.pc t).pushing)
    (hHand : Place.popping t ≠ k → Place.popping t ≠ j →
      inHand s' (s'.pc t) = inHand s (s.pc t))
    (hItems : Place.stored ≠ k → Place.stored ≠ j → q'.items = q.items)
    (hReturned : Place.returned ≠ j → s'.returned = s.returned) (hCalls : s'.calls = s.calls) :
    ∃ place', Tickets s' q' place' := by
  classical
  refine ⟨Function.update place x (some j), h.placement.move hne ?_ hEnter ?_, ?_⟩
  · rw [hLeave]
  · intro i hik hij
    cases i with
    | pushing u =>
      by_cases hut : u = t
      · subst hut
        rw [queues, hPushing hik, queues]
      · rw [queues, pc_frame he hut, queues]
    | stored => exact hItems hik hij
    | popping u =>
      by_cases hut : u = t
      · subst hut
        rw [queues, hHand hik hij, queues]
      · rw [queues, hand_frame hInv he hut, queues]
    | returned => exact hReturned hij
  · rw [hCalls]
    intro y hy
    rcases update_at place x (some j) y with ⟨rfl, -⟩ | ⟨-, hAt⟩
    · refine h.bound y ?_
      have hMem : y ∈ queues s q k := by
        rw [hLeave]
        exact List.mem_cons_self
      rw [h.placement.place_of_mem hMem]
      exact Option.some_ne_none k
    · exact h.bound y (hAt ▸ hy)

/-- A `pop` returns its value. -/
theorem give (h : Tickets s q place) (hInv : Inv s l) (he : Effect s t s')
    {res : Option (Numbered α)} (hBefore : inHand s (s.pc t) = res)
    (hPushing : (s'.pc t).pushing = (s.pc t).pushing) (hAfter : inHand s' (s'.pc t) = none)
    (hReturned : s'.returned = s.returned ++ res.toList) (hCalls : s'.calls = s.calls) :
    ∃ place', Tickets s' q place' := by
  cases res with
  | none =>
    refine ⟨place, h.keep hInv he hPushing ?_ (hReturned.trans (List.append_nil _)) hCalls⟩
    rw [hAfter, hBefore]
  | some x =>
    refine h.move hInv he (x := x) (k := .popping t) (j := .returned) (fun hEq => by cases hEq)
      ?_ ?_ (fun _ => hPushing) (fun hNe => absurd rfl hNe) (fun _ _ => rfl)
      (fun hNe => absurd rfl hNe) hCalls
    · rw [queues, hBefore, queues, hAfter]
      rfl
    · rw [queues, hReturned]
      exact List.perm_append_singleton x s.returned

/-- A `push` is called. -/
theorem call (h : Tickets s q place) (hInv : Inv s l) (he : Effect s t s') {data : α}
    {last : Option (Ret (Numbered α))} (hpc : s.pc t = .idle last)
    (hPc : s'.pc t = .pushNew (s.calls, data)) (hReturned : s'.returned = s.returned)
    (hCalls : s'.calls = s.calls + 1) : ∃ place', Tickets s' q place' := by
  classical
  have hFresh : place (s.calls, data) = none := by
    by_contra hPlace
    exact absurd (h.bound _ hPlace) (Nat.lt_irrefl _)
  refine ⟨Function.update place (s.calls, data) (some (.pushing t)),
    h.placement.add hFresh ?_ ?_, ?_⟩
  · rw [queues, hPc, queues, hpc]
    exact List.Perm.refl _
  · intro k hk
    cases k with
    | pushing u => rw [queues, pc_frame he (fun hut => hk (hut ▸ rfl)), queues]
    | stored => rfl
    | popping u =>
      by_cases hut : u = t
      · rw [hut, queues, hPc, queues, hpc]
        rfl
      · rw [queues, hand_frame hInv he hut, queues]
    | returned => exact hReturned
  · rw [hCalls]
    intro y hy
    rcases update_at place (s.calls, data) (some (.pushing t)) y with ⟨rfl, -⟩ | ⟨-, hAt⟩
    · exact Nat.lt_succ_self _
    · exact Nat.lt_succ_of_lt (h.bound y (hAt ▸ hy))

end Tickets

omit [DecidableEq τ] in
/-- A quiet step moves no value. -/
theorem Quiet.places {pc pc' : Pc (Numbered α)} (h : Quiet s pc pc') :
    pc'.pushing = pc.pushing ∧ inHand s pc' = inHand s pc := by
  cases h <;> exact ⟨rfl, rfl⟩

/-- The step lemma of the numbers. -/
theorem tickets_effect {place : Numbered α → Option (Place τ)} (h : Tickets s q place)
    (hValues : Values s l q) (hInv : Inv s l) (he : Effect s t s')
    (hExec : (Lifo.system (Numbered α)).exec q (stackOps (s.pc t) (s'.pc t)) = some q') :
    ∃ place', Tickets s' q' place' := by
  have hHere : ∀ pc : Pc (Numbered α), Function.update s.pc t pc t = pc :=
    fun pc => Function.update_self ..
  -- the accesses after which the value of the thread is where it was
  have hStay : ∀ {pc pc' : Pc (Numbered α)}, s.pc t = pc → s'.pc t = pc' → stackOps pc pc' = [] →
      pc'.pushing = pc.pushing → inHand s' pc' = inHand s pc → s'.returned = s.returned →
      s'.calls = s.calls → ∃ place', Tickets s' q' place' := by
    intro pc pc' hpc hpc' hOps hPushing hHand hReturned hCalls
    rw [hpc, hpc', hOps] at hExec
    cases Option.some.inj hExec
    refine ⟨place, h.keep hInv he ?_ ?_ hReturned hCalls⟩
    · rw [hpc, hpc', hPushing]
    · rw [hpc, hpc', hHand]
  -- a `pop` that returns
  have hGive : ∀ {pc : Pc (Numbered α)} {res : Option (Numbered α)}, s.pc t = pc →
      s'.pc t = .idle (some (.popped res)) → stackOps pc (.idle (some (.popped res))) = [] →
      pc.pushing = none → inHand s pc = res → s'.returned = s.returned ++ res.toList →
      s'.calls = s.calls → ∃ place', Tickets s' q' place' := by
    intro pc res hpc hpc' hOps hPushing hBefore hReturned hCalls
    rw [hpc, hpc', hOps] at hExec
    cases Option.some.inj hExec
    refine h.give hInv he (hpc ▸ hBefore) ?_ ?_ hReturned hCalls
    · rw [hpc, hpc', hPushing]
      rfl
    · rw [hpc']
      rfl
  cases he with
  | @quiet pc hQuiet =>
    obtain ⟨hPushing, hHand⟩ := hQuiet.places
    exact hStay rfl (hHere pc) hQuiet.valueOk.2 hPushing
      ((inHand_congr fun _ _ => rfl).trans hHand) rfl rfl
  | callPush hpc =>
    rw [hpc] at hExec
    obtain rfl : q = q' := Option.some.inj hExec
    exact h.call hInv (.callPush hpc) hpc (hHere _) rfl rfl
  | empty hpc hNull =>
    exact hGive hpc (hHere _) rfl rfl rfl (List.append_nil _).symm rfl
  | increase hpc hPtr => exact hStay hpc (hHere _) rfl rfl rfl rfl rfl
  | @popCas next hpc =>
    have hPtr := (hInv.nodes.held t _ (role_at hpc).1).1
    obtain ⟨x, items, hItems, hTop, -⟩ := hValues.top hInv hPtr
    have hPop : (Lifo.system (Numbered α)).exec q [.pop] =
        some { q with items := items, popped := q.popped ++ [x] } := Lifo.exec_pop hItems
    rw [hpc] at hExec
    replace hExec : (Lifo.system (Numbered α)).exec q
      (stackOps _ (Function.update s.pc t (.popSwap s.head) t)) = some q' := hExec
    rw [hHere] at hExec
    obtain rfl := Option.some.inj (hPop.symm.trans hExec)
    refine h.move hInv (.popCas hpc) (x := x) (k := .stored) (j := .popping t)
      (fun hEq => by cases hEq) hItems ?_ (fun _ => ?_) (fun _ hNe => absurd rfl hNe)
      (fun hNe => absurd rfl hNe) (fun _ => rfl) rfl
    · show (inHand _ (Function.update s.pc t _ t)).toList.Perm (x :: (inHand s (s.pc t)).toList)
      rw [hHere, hpc]
      show (s.data s.head.ptr).toList.Perm [x]
      rw [hTop]
      exact List.Perm.refl _
    · show (Function.update s.pc t _ t).pushing = _
      rw [hHere, hpc]
      rfl
  | popSwap hpc => exact hStay hpc (hHere _) rfl rfl rfl rfl rfl
  | closeLast hpc hLast => exact hStay hpc (hHere _) rfl rfl rfl rfl rfl
  | close hpc hNot => exact hGive hpc (hHere _) rfl rfl rfl rfl rfl
  | releaseLast hpc hLast => exact hStay hpc (hHere _) rfl rfl rfl rfl rfl
  | release hpc hNot => exact hStay hpc (hHere _) rfl rfl rfl rfl rfl
  | @delete p k hpc =>
    cases k with
    | popReturn res => exact hGive hpc (hHere _) rfl rfl rfl rfl rfl
    | popRetry old => exact hStay hpc (hHere _) rfl rfl rfl rfl rfl
  | alloc hpc hZero hFree => exact hStay hpc (hHere _) rfl rfl rfl rfl rfl
  | storeNext hpc =>
    rcases hpc with hpc | hpc
    · exact hStay hpc (hHere _) rfl rfl rfl rfl rfl
    · exact hStay hpc (hHere _) rfl rfl rfl rfl rfl
  | @pushCas data p hpc hHead =>
    rw [hpc] at hExec
    replace hExec : (Lifo.system (Numbered α)).exec q
      (stackOps _ (Function.update s.pc t (.idle (some .pushed)) t)) = some q' := hExec
    rw [hHere] at hExec
    obtain rfl := Option.some.inj ((Lifo.exec_push q data).symm.trans hExec)
    refine h.move hInv (.pushCas hpc hHead) (x := data) (k := .pushing t) (j := .stored)
      (fun hEq => by cases hEq) ?_ (List.Perm.refl _) (fun hNe => absurd rfl hNe)
      (fun _ _ => ?_) (fun _ hNe => absurd rfl hNe) (fun _ => rfl) rfl
    · show (s.pc t).pushing.toList = data :: (Function.update s.pc t _ t).pushing.toList
      rw [hHere, hpc]
      rfl
    · show inHand _ (Function.update s.pc t _ t) = _
      rw [hHere, hpc]
      rfl

end EmbLinux.DesignLockFree.Stack
