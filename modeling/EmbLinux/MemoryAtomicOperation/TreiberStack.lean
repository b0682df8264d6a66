import EmbLinux.Lib.Chain
import EmbLinux.Lib.Exclusive
import EmbLinux.Lib.Linearizable
import Mathlib.Data.Fintype.Basic

/-!
# EmbLinux — `treiberStack.cpp`

The `LockFreeStack` that deletes a node as soon as it is popped. A step is one access to
`head`, to a node, or one `new` or `delete`, in a sequentially consistent memory. `new`
takes any free address, so an address can come back, and `compare_exchange_weak` may fail
spuriously. A thread that is about to access a node that is not allocated is at a `Fault`:
it has no next step.

* `treiber_stack_contract` — as long as no two calls of `pop` overlap, as in `main`, the
  stack is linearizable, no freed node is accessed and none is lost;
* `overlapping_pops_fault` — two calls of `pop` that do overlap can always lead to an access
  to a freed node.

## Results

* `run_effect` — what one access does; everything else is derived from it.
* `effect_moves`, `step_moves` — the step lemma: the invariant and the stack of the callers.
* `pop_alone` — what a `pop` does that nobody disturbs.
* `inv_reachable` — no fault and no leak, in every run without overlapping pops.
-/

namespace EmbLinux.MemoryAtomicOperation.TreiberStack

-- ---------------------------------------------------------------------------
-- The stack
-- ---------------------------------------------------------------------------

/-- `Node` -/
structure Node (α : Type*) where
  data : α
  next : Nat

/-- The null pointer. -/
def nullptr : Nat := 0

/-- The two calls. -/
inductive Op (α : Type*)
  | push (data : α)
  | pop
  deriving DecidableEq

/-- What they return. -/
inductive Ret (α : Type*)
  | pushed
  | popped (result : Option α)
  deriving DecidableEq

/-- Where a thread stands: before `new`, before the load or at the exchange of `push`; before
the load, the read of `old_head->next`, the exchange, the read of the data or the `delete`
of `pop`; at the return. -/
inductive Pc (α : Type*)
  | idle
  | create (data : α)
  | load (data : α) (node : Nat)
  | pushCas (data : α) (node : Nat)
  | popLoad
  | popNext (old : Nat)
  | popCas (old next : Nat)
  | popData (old : Nat)
  | popDelete (old : Nat) (result : α)
  | ret (answer : Ret α)
  deriving DecidableEq

/-- The allocated nodes, `head`, and where each thread stands. -/
structure State (τ α : Type*) where
  heap : Nat → Option (Node α)
  head : Nat
  pc : τ → Pc α

/-- `address` is what `new` returns, `spurious` is whether an exchange fails without cause. -/
inductive Action (τ α : Type*)
  | call (t : τ) (op : Op α)
  | run (t : τ) (address : Nat) (spurious : Bool)

variable {τ α : Type*} [DecidableEq τ]

def State.setPc (s : State τ α) (t : τ) (pc : Pc α) : State τ α :=
  { s with pc := Function.update s.pc t pc }

/-- An allocation, a deletion or an assignment. -/
def State.store (s : State τ α) (node : Nat) (n : Option (Node α)) : State τ α :=
  { s with heap := Function.update s.heap node n }

/-- `old_head` has been loaded: the test of the loop of `pop`. -/
def State.testOld (s : State τ α) (t : τ) : State τ α :=
  s.setPc t (if s.head = nullptr then .ret (.popped none) else .popNext s.head)

/-- The next access of a thread. `new` returns any address that is not in use, which may be one
that was freed. -/
def run (s : State τ α) (t : τ) (address : Nat) (spurious : Bool) : Option (State τ α) :=
  match s.pc t with
  | .idle => none
  | .create data =>
    if address ≠ nullptr ∧ (s.heap address).isNone then
      some ((s.store address (some ⟨data, nullptr⟩)).setPc t (.load data address))
    else none
  | .load data node =>
    (s.heap node).map fun n =>
      (s.store node (some ⟨n.data, s.head⟩)).setPc t (.pushCas data node)
  | .pushCas _ node =>
    (s.heap node).map fun n =>
      if s.head = n.next ∧ spurious = false then
        { s.setPc t (.ret .pushed) with head := node }
      else s.store node (some ⟨n.data, s.head⟩)
  | .popLoad => some (s.testOld t)
  | .popNext old => (s.heap old).map fun n => s.setPc t (.popCas old n.next)
  | .popCas old next =>
    if s.head = old ∧ spurious = false then
      some { s.setPc t (.popData old) with head := next }
    else some (s.testOld t)
  | .popData old => (s.heap old).map fun n => s.setPc t (.popDelete old n.data)
  | .popDelete old result =>
    (s.heap old).map fun _ => (s.store old none).setPc t (.ret (.popped (some result)))
  | .ret _ => some (s.setPc t .idle)

/-- The first program point of a call. -/
def Op.start : Op α → Pc α
  | .push data => .create data
  | .pop => .popLoad

/-- A call, or the next access of a thread. -/
def step (s : State τ α) : Action τ α → Option (State τ α)
  | .call t op =>
    match s.pc t with
    | .idle => some (s.setPc t op.start)
    | _ => none
  | .run t address spurious => run s t address spurious

/-- An empty stack and no nodes. -/
def system (τ α : Type*) [DecidableEq τ] : System (State τ α) (Action τ α) where
  init := ⟨fun _ => none, nullptr, fun _ => .idle⟩
  step := step

/-- The node that a thread is about to access. -/
def Pc.accesses : Pc α → Option Nat
  | .load _ node | .pushCas _ node => some node
  | .popNext old | .popData old | .popDelete old _ => some old
  | _ => none

/-- The thread is about to access a node that is not allocated. -/
def Fault (s : State τ α) (t : τ) : Prop :=
  ∃ node, (s.pc t).accesses = some node ∧ s.heap node = none

/-- The thread is in `pop`. -/
def Pc.isPopping : Pc α → Bool
  | .popLoad | .popNext _ | .popCas _ _ | .popData _ | .popDelete _ _ => true
  | _ => false

/-- `pop` is called only when no other call of it is under way. -/
def NoOverlap (s : State τ α) : Action τ α → Prop
  | .call _ .pop => ∀ u, (s.pc u).isPopping = false
  | _ => True

instance [Fintype τ] (s : State τ α) (a : Action τ α) : Decidable (NoOverlap s a) :=
  match a with
  | .call _ .pop => inferInstanceAs (Decidable (∀ u, (s.pc u).isPopping = false))
  | .call _ (.push _) => .isTrue trivial
  | .run _ _ _ => .isTrue trivial

-- ---------------------------------------------------------------------------
-- The steps
-- ---------------------------------------------------------------------------

/-- What the step of a thread does, that is in a call. -/
inductive Effect (s : State τ α) (t : τ) : State τ α → Prop
  | create {data : α} {node : Nat} (hpc : s.pc t = .create data) (hNull : node ≠ nullptr)
      (hFree : s.heap node = none) :
      Effect s t ((s.store node (some ⟨data, nullptr⟩)).setPc t (.load data node))
  | load {data : α} {node : Nat} {n : Node α} (hpc : s.pc t = .load data node)
      (hNode : s.heap node = some n) :
      Effect s t ((s.store node (some ⟨n.data, s.head⟩)).setPc t (.pushCas data node))
  | pushAgain {data : α} {node : Nat} {n : Node α} (hpc : s.pc t = .pushCas data node)
      (hNode : s.heap node = some n) : Effect s t (s.store node (some ⟨n.data, s.head⟩))
  | push {data : α} {node : Nat} {n : Node α} (hpc : s.pc t = .pushCas data node)
      (hNode : s.heap node = some n) (hHead : s.head = n.next) :
      Effect s t { s.setPc t (.ret .pushed) with head := node }
  | empty (hpc : s.pc t = .popLoad ∨ ∃ old next, s.pc t = .popCas old next)
      (hNull : s.head = nullptr) : Effect s t (s.setPc t (.ret (.popped none)))
  | old (hpc : s.pc t = .popLoad ∨ ∃ old next, s.pc t = .popCas old next)
      (hSome : s.head ≠ nullptr) : Effect s t (s.setPc t (.popNext s.head))
  | next {old : Nat} {n : Node α} (hpc : s.pc t = .popNext old) (hNode : s.heap old = some n) :
      Effect s t (s.setPc t (.popCas old n.next))
  | pop {old next : Nat} (hpc : s.pc t = .popCas old next) (hHead : s.head = old) :
      Effect s t { s.setPc t (.popData old) with head := next }
  | data {old : Nat} {n : Node α} (hpc : s.pc t = .popData old) (hNode : s.heap old = some n) :
      Effect s t (s.setPc t (.popDelete old n.data))
  | delete {old : Nat} {result : α} (hpc : s.pc t = .popDelete old result)
      (hLive : (s.heap old).isSome = true) :
      Effect s t ((s.store old none).setPc t (.ret (.popped (some result))))
  | ret {answer : Ret α} (hpc : s.pc t = .ret answer) : Effect s t (s.setPc t .idle)

variable {s s' : State τ α} {t u : τ} {a : Action τ α}

/-- The test of `old_head` for the null pointer ends the call or goes on to its `next`. -/
theorem testOld_effect (hpc : s.pc t = .popLoad ∨ ∃ old next, s.pc t = .popCas old next) :
    Effect s t (s.testOld t) := by
  unfold State.testOld
  split
  · next hNull => exact .empty hpc hNull
  · next hSome => exact .old hpc hSome

/-- What one access does. -/
theorem run_effect {address : Nat} {spurious : Bool} (hst : run s t address spurious = some s') :
    Effect s t s' := by
  unfold run at hst
  split at hst
  · simp at hst
  · next data hpc =>
    split at hst
    · next hNew =>
      obtain rfl := Option.some.inj hst
      exact .create hpc hNew.1 (Option.isNone_iff_eq_none.mp hNew.2)
    · simp at hst
  · next data node hpc =>
    obtain ⟨n, hNode, rfl⟩ := Option.map_eq_some_iff.mp hst
    exact .load hpc hNode
  · next data node hpc =>
    obtain ⟨n, hNode, rfl⟩ := Option.map_eq_some_iff.mp hst
    split
    · next hSame => exact .push hpc hNode hSame.1
    · exact .pushAgain hpc hNode
  · next hpc =>
    obtain rfl := Option.some.inj hst
    exact testOld_effect (Or.inl hpc)
  · next old hpc =>
    obtain ⟨n, hNode, rfl⟩ := Option.map_eq_some_iff.mp hst
    exact .next hpc hNode
  · next old next hpc =>
    split at hst
    · next hSame =>
      obtain rfl := Option.some.inj hst
      exact .pop hpc hSame.1
    · obtain rfl := Option.some.inj hst
      exact testOld_effect (Or.inr ⟨old, next, hpc⟩)
  · next old hpc =>
    obtain ⟨n, hNode, rfl⟩ := Option.map_eq_some_iff.mp hst
    exact .data hpc hNode
  · next old result hpc =>
    obtain ⟨n, hNode, rfl⟩ := Option.map_eq_some_iff.mp hst
    exact .delete hpc (by rw [hNode]; rfl)
  · next answer hpc =>
    obtain rfl := Option.some.inj hst
    exact .ret hpc

-- ---------------------------------------------------------------------------
-- The nodes
-- ---------------------------------------------------------------------------

/-- The successor of a node. -/
def State.next (s : State τ α) (node : Nat) : Nat :=
  ((s.heap node).map Node.next).getD nullptr

/-- The node that only this thread can access. -/
def Pc.owned : Pc α → Option Nat
  | .load _ node | .pushCas _ node => some node
  | .popData old | .popDelete old _ => some old
  | _ => none

/-- A node with these data is allocated. -/
def State.Has (s : State τ α) (node : Nat) (data : α) : Prop :=
  ∃ n, s.heap node = some n ∧ n.data = data

/-- What a thread knows of the nodes. -/
def ReadOk (s : State τ α) (l : List Nat) : Pc α → Prop
  | .load data node | .pushCas data node => s.Has node data
  | .popNext old => old ∈ l
  | .popCas old next => old ∈ l ∧ s.next old = next
  | .popDelete old result => s.Has old result
  | _ => True

/-- The nodes `l` of the stack, and those that the threads own. -/
structure Inv (s : State τ α) (l : List Nat) : Prop where
  chain : Linked s.next nullptr s.head l
  null : s.heap nullptr = none
  /-- What is allocated is on the stack or with one call, -/
  live : ∀ i, (s.heap i).isSome = true ↔ i ∈ l ∨ ∃ t, (s.pc t).owned = some i
  /-- and not with both. -/
  apart : ∀ t i, (s.pc t).owned = some i → i ∉ l
  exclusive : Exclusive fun t => (s.pc t).owned
  /-- One thread at most is in `pop`. -/
  single : ∀ t u, (s.pc t).isPopping = true → (s.pc u).isPopping = true → t = u
  /-- What a thread has read of `head` and of nodes. -/
  reads : ∀ t, ReadOk s l (s.pc t)

variable {l l' : List Nat} {i : Nat} {pc : Pc α}

omit [DecidableEq τ] in
/-- Under the invariant no thread is about to access a node that is gone. -/
theorem Inv.noFault (h : Inv s l) (t : τ) : ¬ Fault s t := by
  rintro ⟨node, hAccess, hFreed⟩
  have hLive : (s.heap node).isSome = true := by
    rw [h.live]
    have hRead := h.reads t
    cases hpc : s.pc t <;> rw [hpc] at hAccess hRead <;> simp only [Pc.accesses] at hAccess
    case popNext old =>
      obtain rfl := Option.some.inj hAccess
      exact Or.inl hRead
    case load | pushCas | popData | popDelete =>
      exact Or.inr ⟨t, by rw [hpc]; exact hAccess⟩
    all_goals simp at hAccess
  simp [hFreed] at hLive

/-- A step of one thread changes what it owns itself. -/
theorem owned_update (s : State τ α) (t : τ) (pc : Pc α) :
    (fun u => (Function.update s.pc t pc u).owned) =
      Function.update (fun u => (s.pc u).owned) t pc.owned :=
  part_update Pc.owned s.pc t pc

/-- Who is in `pop` after a step of thread `t`. -/
theorem Inv.single_update (h : Inv s l)
    (hPop : pc.isPopping = true → ∀ u, u ≠ t → (s.pc u).isPopping = false) (u v : τ)
    (hu : (Function.update s.pc t pc u).isPopping = true)
    (hv : (Function.update s.pc t pc v).isPopping = true) : u = v := by
  rcases update_at s.pc t pc u with ⟨hut, hAtU⟩ | ⟨hut, hAtU⟩ <;> rw [hAtU] at hu <;>
    rcases update_at s.pc t pc v with ⟨hvt, hAtV⟩ | ⟨hvt, hAtV⟩ <;> rw [hAtV] at hv
  · exact hut.trans hvt.symm
  · simp [hPop hu v hvt] at hv
  · simp [hPop hv u hut] at hu
  · exact h.single u v hu hv

omit [DecidableEq τ] in
/-- A thread that is in `pop` is the only one. -/
theorem Inv.others (h : Inv s l) (hPop : (s.pc t).isPopping = true) (u : τ) (hut : u ≠ t) :
    (s.pc u).isPopping = false := by
  by_contra hu
  exact hut (h.single u t (by simpa using hu) hPop)

/-- A step that leaves the memory as it is. -/
theorem Inv.move (h : Inv s l) (hOwned : pc.owned = (s.pc t).owned)
    (hPop : pc.isPopping = true → ∀ u, u ≠ t → (s.pc u).isPopping = false)
    (hRead : ReadOk s l pc) : Inv (s.setPc t pc) l := by
  have hSame : (fun u => ((s.setPc t pc).pc u).owned) = fun u => (s.pc u).owned := by
    show (fun u => (Function.update s.pc t pc u).owned) = _
    rw [owned_update, hOwned, Function.update_eq_self]
  refine ⟨h.chain, h.null, ?_, ?_, ?_, h.single_update hPop, ?_⟩
  · intro i
    rw [show (∃ u, ((s.setPc t pc).pc u).owned = some i) ↔ ∃ u, (s.pc u).owned = some i from
      exists_congr fun u => by rw [congrFun hSame u]]
    exact h.live i
  · intro u i hu
    exact h.apart u i (by rw [← congrFun hSame u]; exact hu)
  · rw [hSame]
    exact h.exclusive
  · exact forall_of_update rfl h.reads hRead

omit [DecidableEq τ] in
/-- What a thread has read is still so if the nodes on its way are untouched. -/
theorem ReadOk.congr {k : List Nat} (h : ReadOk s l pc)
    (hMem : ∀ i ∈ l, i ∈ k ∧ s'.heap i = s.heap i)
    (hOwned : ∀ i, pc.owned = some i → s'.heap i = s.heap i) : ReadOk s' k pc := by
  cases pc with
  | load data node | pushCas data node | popDelete node data =>
    obtain ⟨n, hn, hData⟩ := h
    exact ⟨n, by rw [hOwned node rfl, hn], hData⟩
  | popNext old => exact (hMem old h).1
  | popCas old next =>
    refine ⟨(hMem old h.1).1, ?_⟩
    unfold State.next
    rw [(hMem old h.1).2]
    exact h.2
  | idle | create | popLoad | popData | ret => trivial

omit [DecidableEq τ] in
/-- What a thread outside of `pop` knows does not depend on the stack. -/
theorem ReadOk.outside (h : ReadOk s l pc) (hPop : pc.isPopping = false) : ReadOk s l' pc := by
  cases pc <;> first | exact h | simp [Pc.isPopping] at hPop

/-- A step that stores to a node that is not in the stack, and is new or owned by the
thread. -/
theorem Inv.store (h : Inv s l) {n : Option (Node α)} (hNull : i ≠ nullptr) (hOut : i ∉ l)
    (hOthers : ∀ u, u ≠ t → (s.pc u).owned ≠ some i)
    (hOld : ∀ j, (s.pc t).owned = some j → j = i)
    (hNew : pc.owned = if n.isSome then some i else none)
    (hPop : pc.isPopping = true → ∀ u, u ≠ t → (s.pc u).isPopping = false)
    (hRead : ReadOk (s.store i n) l pc) : Inv ((s.store i n).setPc t pc) l := by
  have hHeap : ∀ j, j ≠ i → (s.store i n).heap j = s.heap j :=
    fun j hj => Function.update_of_ne hj ..
  have hChain : ∀ j ∈ l, (s.store i n).heap j = s.heap j :=
    fun j hj => hHeap j fun hji => hOut (hji ▸ hj)
  have hOwned := owned_update s t pc
  refine ⟨?_, ?_, ?_, ?_, ?_, h.single_update hPop, ?_⟩
  · refine h.chain.congr ?_
    intro j hj
    show (((s.store i n).heap j).map Node.next).getD nullptr = _
    rw [hChain j hj]
    rfl
  · exact (hHeap nullptr (Ne.symm hNull)).trans h.null
  · intro j
    show ((Function.update s.heap i n) j).isSome = true ↔
      j ∈ l ∨ ∃ u, (Function.update s.pc t pc u).owned = some j
    by_cases hji : j = i
    · subst hji
      rw [Function.update_self]
      constructor
      · intro hSome
        exact Or.inr ⟨t, by rw [Function.update_self, hNew, if_pos hSome]⟩
      · rintro (hMem | ⟨u, hu⟩)
        · exact absurd hMem hOut
        · rcases update_at s.pc t pc u with ⟨-, hAt⟩ | ⟨hut, hAt⟩ <;> rw [hAt] at hu
          · rw [hNew] at hu
            by_contra hNone
            simp [hNone] at hu
          · exact absurd hu (hOthers u hut)
    · rw [Function.update_of_ne hji, h.live j]
      refine or_congr_right ⟨?_, ?_⟩
      · rintro ⟨u, hu⟩
        have hut : u ≠ t := by
          rintro rfl
          exact hji (hOld j hu)
        exact ⟨u, by rw [Function.update_of_ne hut]; exact hu⟩
      · rintro ⟨u, hu⟩
        rcases update_at s.pc t pc u with ⟨-, hAt⟩ | ⟨-, hAt⟩ <;> rw [hAt] at hu
        · rw [hNew] at hu
          split at hu
          · exact absurd (Option.some.inj hu).symm hji
          · simp at hu
        · exact ⟨u, hu⟩
  · intro u j hu
    rcases update_cases hOwned u with ⟨-, hAt⟩ | ⟨-, hAt⟩
    · have hEq := hAt.symm.trans hu
      rw [hNew] at hEq
      split at hEq
      · exact (Option.some.inj hEq) ▸ hOut
      · simp at hEq
    · exact h.apart u j (hAt.symm.trans hu)
  · show Exclusive fun u => (Function.update s.pc t pc u).owned
    rw [hOwned, hNew]
    split
    · have hDrop := h.exclusive.drop (i := t)
      have hPut := hDrop.put (i := t) (b := i) ?_
      · rwa [Function.update_idem] at hPut
      · intro u hu
        rcases update_at (fun u => (s.pc u).owned) t none u with ⟨-, hAt⟩ | ⟨hut, hAt⟩ <;>
          rw [hAt] at hu
        · simp at hu
        · exact hOthers u hut hu
    · exact h.exclusive.drop
  · intro u
    show ReadOk (s.store i n) l (Function.update s.pc t pc u)
    rcases update_at s.pc t pc u with ⟨-, hAt⟩ | ⟨hut, hAt⟩ <;> rw [hAt]
    · exact hRead
    · refine (h.reads u).congr (fun j hj => ⟨hj, hChain j hj⟩) ?_
      intro j hj
      refine hHeap j ?_
      rintro rfl
      exact hOthers u hut hj

/-- A successful exchange of `push`: the node is the first of the stack. -/
theorem Inv.push (h : Inv s l) {data : α} {node : Nat} {n : Node α}
    (hpc : s.pc t = .pushCas data node) (hNode : s.heap node = some n) (hHead : s.head = n.next) :
    Inv { s.setPc t (.ret .pushed) with head := node } (node :: l) := by
  have hOwns : (s.pc t).owned = some node := by rw [hpc]; rfl
  have hOwned := owned_update s t (.ret .pushed)
  have hOther : ∀ u, u ≠ t → (s.pc u).owned ≠ some node :=
    fun u hut hu => hut (h.exclusive u t node hu hOwns)
  refine ⟨?_, h.null, ?_, ?_, ?_, h.single_update (by simp [Pc.isPopping]), ?_⟩
  · refine Linked.cons ?_ ?_
    · rintro rfl
      simp [h.null] at hNode
    · have hNext : s.next node = s.head := by
        rw [State.next, hNode, hHead]
        rfl
      show Linked s.next nullptr (s.next node) l
      rw [hNext]
      exact h.chain
  · intro i
    show (s.heap i).isSome = true ↔
      i ∈ node :: l ∨ ∃ u, (Function.update s.pc t (.ret .pushed) u).owned = some i
    rw [h.live i, List.mem_cons]
    constructor
    · rintro (hMem | ⟨u, hu⟩)
      · exact Or.inl (Or.inr hMem)
      · by_cases hut : u = t
        · rw [hut, hOwns] at hu
          exact Or.inl (Or.inl (Option.some.inj hu).symm)
        · exact Or.inr ⟨u, by rw [Function.update_of_ne hut]; exact hu⟩
    · rintro ((rfl | hMem) | ⟨u, hu⟩)
      · exact Or.inr ⟨t, hOwns⟩
      · exact Or.inl hMem
      · rcases update_at s.pc t (.ret .pushed) u with ⟨-, hAt⟩ | ⟨-, hAt⟩ <;> rw [hAt] at hu
        · simp [Pc.owned] at hu
        · exact Or.inr ⟨u, hu⟩
  · intro u i hu
    rcases update_at s.pc t (.ret .pushed) u with ⟨-, hAt⟩ | ⟨hut, hAt⟩ <;>
      simp only [State.setPc, hAt] at hu
    · simp [Pc.owned] at hu
    · rw [List.mem_cons, not_or]
      exact ⟨fun hEq => hOther u hut (hEq ▸ hu), h.apart u i hu⟩
  · show Exclusive fun u => (Function.update s.pc t (.ret .pushed) u).owned
    rw [hOwned]
    exact h.exclusive.drop
  · refine forall_of_update (p := ReadOk _ (node :: l)) rfl ?_ trivial
    intro u
    exact (h.reads u).congr (fun i hi => ⟨List.mem_cons_of_mem _ hi, rfl⟩) fun _ _ => rfl

/-- A successful exchange of `pop` takes the first node off. -/
theorem Inv.pop (h : Inv s l) {old next : Nat} (hpc : s.pc t = .popCas old next)
    (hHead : s.head = old) : ∃ rest, l = old :: rest ∧
      Inv { s.setPc t (.popData old) with head := next } rest := by
  obtain ⟨hMem, hNext⟩ : old ∈ l ∧ s.next old = next := by
    have hRead := h.reads t
    rwa [hpc] at hRead
  obtain ⟨rest, rfl, hRest⟩ := h.chain.eq_cons (hHead ▸ h.chain.ne_stop hMem)
  have hOut : s.head ∉ rest := (List.nodup_cons.mp h.chain.nodup).1
  subst hHead
  have hOwned := owned_update s t (.popData s.head)
  have hSelf : (s.pc t).owned = none := by rw [hpc]; rfl
  refine ⟨rest, rfl, ?_, h.null, ?_, ?_, ?_, h.single_update ?_, ?_⟩
  · show Linked s.next nullptr next rest
    rw [← hNext]
    exact hRest
  · intro i
    show (s.heap i).isSome = true ↔
      i ∈ rest ∨ ∃ u, (Function.update s.pc t (.popData s.head) u).owned = some i
    rw [h.live i, List.mem_cons]
    constructor
    · rintro ((rfl | hIn) | ⟨u, hu⟩)
      · exact Or.inr ⟨t, by rw [Function.update_self]; rfl⟩
      · exact Or.inl hIn
      · have hut : u ≠ t := by
          rintro rfl
          simp [hSelf] at hu
        exact Or.inr ⟨u, by rw [Function.update_of_ne hut]; exact hu⟩
    · rintro (hIn | ⟨u, hu⟩)
      · exact Or.inl (Or.inr hIn)
      · rcases update_at s.pc t (.popData s.head) u with ⟨-, hAt⟩ | ⟨-, hAt⟩ <;> rw [hAt] at hu
        · exact Or.inl (Or.inl (Option.some.inj hu).symm)
        · exact Or.inr ⟨u, hu⟩
  · intro u i hu
    rcases update_at s.pc t (.popData s.head) u with ⟨-, hAt⟩ | ⟨hut, hAt⟩ <;>
      simp only [State.setPc, hAt] at hu
    · exact (Option.some.inj hu) ▸ hOut
    · exact fun hIn => h.apart u i hu (List.mem_cons_of_mem _ hIn)
  · show Exclusive fun u => (Function.update s.pc t (.popData s.head) u).owned
    rw [hOwned]
    refine h.exclusive.put ?_
    intro u hu
    exact h.apart u s.head hu List.mem_cons_self
  · intro _ u hut
    exact h.others (by rw [hpc]; rfl) u hut
  · intro u
    rcases update_at s.pc t (.popData s.head) u with ⟨-, hAt⟩ | ⟨hut, hAt⟩ <;>
      simp only [State.setPc, hAt]
    · trivial
    · have hPop := h.others (by rw [hpc]; rfl) u hut
      refine ((h.reads u).congr (k := s.head :: rest) (fun i hi => ⟨hi, rfl⟩)
        fun _ _ => rfl).outside
        hPop

omit [DecidableEq τ] in
/-- A free address is neither in the stack nor with a thread. -/
theorem Inv.isOut (h : Inv s l) (hFree : s.heap i = none) :
    i ∉ l ∧ ∀ u, (s.pc u).owned ≠ some i := by
  have hLive := (h.live i).not
  rw [hFree] at hLive
  simp only [Option.isSome_none, Bool.false_eq_true, not_false_eq_true, true_iff, not_or,
    not_exists] at hLive
  exact hLive

/-- A step of a thread that owns the node. -/
theorem Inv.storeOwned (h : Inv s l) {n : Option (Node α)} (hOwns : (s.pc t).owned = some i)
    (hNew : pc.owned = if n.isSome then some i else none) (hPop : pc.isPopping = false)
    (hRead : ReadOk (s.store i n) l pc) : Inv ((s.store i n).setPc t pc) l := by
  refine h.store ?_ (h.apart t i hOwns) ?_ ?_ hNew (by simp [hPop]) hRead
  · rintro rfl
    have hLive := (h.live nullptr).mpr (Or.inr ⟨t, hOwns⟩)
    simp [h.null] at hLive
  · exact fun u hut hu => hut (h.exclusive u t i hu hOwns)
  · intro j hj
    rw [hOwns] at hj
    exact (Option.some.inj hj).symm

/-- A thread that stays where it is. -/
theorem setPc_self (s : State τ α) (t : τ) : s.setPc t (s.pc t) = s := by
  unfold State.setPc
  rw [Function.update_eq_self]

-- ---------------------------------------------------------------------------
-- The operations
-- ---------------------------------------------------------------------------

/-- What the stack is for: the values, top first. -/
def stackObject (α : Type*) : Object (Op α) (Ret α) (List α) where
  init := []
  apply
    | items, .push data => (data :: items, .pushed)
    | [], .pop => ([], .popped none)
    | x :: items, .pop => (items, .popped (some x))

/-- The calls that a history notes, -/
def calls : Action τ α → Option (τ × Op α)
  | .call t op => some (t, op)
  | .run _ _ _ => none

/-- the answer of a call that is about to return, -/
def Pc.answer : Pc α → Option (Ret α)
  | .ret answer => some answer
  | _ => none

/-- and the answers that a history notes. -/
def rets (s : State τ α) (a : Action τ α) (_ : State τ α) : Option (τ × Ret α) :=
  match a with
  | .call _ _ => none
  | .run t _ _ => (s.pc t).answer.map fun answer => (t, answer)

/-- A `push` takes effect with its exchange; a `pop` with its exchange, or when it meets a
null `head`. -/
def stageAt (s : State τ α) : Pc α → Stage (Op α) (Ret α)
  | .idle => .idle
  | .create data | .load data _ | .pushCas data _ => .pending (.push data)
  | .popLoad | .popNext _ | .popCas _ _ => .pending .pop
  | .popData old => .done (.popped ((s.heap old).map Node.data))
  | .popDelete _ result => .done (.popped (some result))
  | .ret answer => .done answer

/-- What a thread still owes. -/
def stage (s : State τ α) (t : τ) : Stage (Op α) (Ret α) :=
  stageAt s (s.pc t)

/-- The values of these nodes. -/
def State.values (s : State τ α) (l : List Nat) : List α :=
  l.filterMap fun i => (s.heap i).map Node.data

omit [DecidableEq τ] in
/-- The values of a chain are those in its nodes, -/
theorem values_congr (h : ∀ i ∈ l, s'.heap i = s.heap i) : s'.values l = s.values l := by
  refine List.filterMap_congr ?_
  intro i hi
  rw [h i hi]

omit [DecidableEq τ] in
/-- from the top on. -/
theorem values_cons {n : Node α} (h : s.heap i = some n) :
    s.values (i :: l) = n.data :: s.values l := by
  simp [State.values, h]

/-- The stages after a step that keeps the nodes of the other threads. -/
theorem stage_update {r : State τ α} {p : Pc α}
    (hPc : r.pc = Function.update s.pc t p)
    (hHeap : ∀ u i, u ≠ t → (s.pc u).owned = some i → r.heap i = s.heap i) :
    stage r = Function.update (stage s) t (stageAt r p) := by
  funext u
  unfold stage
  rcases update_cases hPc u with ⟨rfl, hAt⟩ | ⟨hut, hAt⟩ <;> rw [hAt]
  · rw [Function.update_self]
  · rw [Function.update_of_ne hut]
    cases hpc : s.pc u <;> try rfl
    next old => simp only [stageAt, hHeap u old hut (by rw [hpc]; rfl)]

/-- A step without an effect on the object. -/
theorem moves_stay {q : List α} {answer : Option (Ret α)} (hAnswer : answer = none)
    (hPc : s'.pc = Function.update s.pc t pc)
    (hHeap : ∀ u i, u ≠ t → (s.pc u).owned = some i → s'.heap i = s.heap i)
    (hStage : stageAt s' pc = stage s t) :
    Moves (stackObject α) (stage s) q none (answer.map fun r => (t, r)) (stage s') q := by
  rw [stage_update hPc hHeap, hStage, Function.update_eq_self, hAnswer]
  exact .stay

/-- A store to a node that is not in the stack has no effect on the object. -/
theorem moves_store {n : Option (Node α)} (hOut : i ∉ l)
    (hOthers : ∀ u, u ≠ t → (s.pc u).owned ≠ some i) (hAnswer : (s.pc t).answer = none)
    (hStage : stageAt (s.store i n) pc = stage s t) :
    Moves (stackObject α) (stage s) (s.values l) none ((s.pc t).answer.map fun r => (t, r))
      (stage ((s.store i n).setPc t pc)) (((s.store i n).setPc t pc).values l) := by
  have hHeap : ∀ j, j ≠ i → (s.store i n).heap j = s.heap j :=
    fun j hj => Function.update_of_ne hj ..
  have hValues : ((s.store i n).setPc t pc).values l = s.values l := by
    refine values_congr ?_
    intro j hj
    refine hHeap j ?_
    rintro rfl
    exact hOut hj
  rw [hValues]
  refine moves_stay hAnswer rfl ?_ hStage
  intro u j hut hu
  refine hHeap j ?_
  rintro rfl
  exact hOthers u hut hu

/-- The same for a node that the thread owns. -/
theorem Inv.stored (h : Inv s l) {n : Option (Node α)} (hOwns : (s.pc t).owned = some i)
    (hNew : pc.owned = if n.isSome then some i else none) (hPop : pc.isPopping = false)
    (hRead : ReadOk (s.store i n) l pc) (hAnswer : (s.pc t).answer = none)
    (hStage : stageAt (s.store i n) pc = stage s t) :
    ∃ l', Inv ((s.store i n).setPc t pc) l' ∧
      Moves (stackObject α) (stage s) (s.values l) none ((s.pc t).answer.map fun r => (t, r))
        (stage ((s.store i n).setPc t pc)) (((s.store i n).setPc t pc).values l') := by
  refine ⟨l, h.storeOwned hOwns hNew hPop hRead, moves_store (h.apart t i hOwns) ?_ hAnswer hStage⟩
  exact fun u hut hu => hut (h.exclusive u t i hu hOwns)

/-- A step of a thread in a call keeps the invariant, and is a move of the object. -/
theorem effect_moves (h : Inv s l) (he : Effect s t s') : ∃ l', Inv s' l' ∧
    Moves (stackObject α) (stage s) (s.values l) none ((s.pc t).answer.map fun r => (t, r))
      (stage s') (s'.values l') := by
  have hRead := h.reads t
  cases he with
  -- a node that nobody knows of: no effect on the stack
  | @create data node hpc hNull hFree =>
    obtain ⟨hOut, hNobody⟩ := h.isOut hFree
    refine ⟨l, h.store hNull hOut (fun u _ => hNobody u) ?_ rfl (by simp [Pc.isPopping]) ?_,
      moves_store hOut (fun u _ => hNobody u) (by rw [hpc]; rfl) (by rw [stage, hpc]; rfl)⟩
    · simp [hpc, Pc.owned]
    · exact ⟨_, Function.update_self .., rfl⟩
  | @load data node n hpc hNode =>
    rw [hpc] at hRead
    obtain ⟨n', hn', rfl⟩ := hRead
    obtain rfl := Option.some.inj (hNode.symm.trans hn')
    exact h.stored (by rw [hpc]; rfl) rfl rfl ⟨_, Function.update_self .., rfl⟩ (by rw [hpc]; rfl)
      (by rw [stage, hpc]; rfl)
  -- the exchange has failed, and has stored the present head in the node
  | @pushAgain data node n hpc hNode =>
    rw [hpc] at hRead
    obtain ⟨n', hn', rfl⟩ := hRead
    obtain rfl := Option.some.inj (hNode.symm.trans hn')
    have hSame : (s.store node (some ⟨n.data, s.head⟩)).setPc t (.pushCas n.data node) =
        s.store node (some ⟨n.data, s.head⟩) := by
      rw [← hpc]
      exact setPc_self (s.store node _) t
    have hStored : ∃ l', Inv ((s.store node (some ⟨n.data, s.head⟩)).setPc t
        (.pushCas n.data node)) l' ∧ Moves (stackObject α) (stage s) (s.values l) none
          ((s.pc t).answer.map fun r => (t, r)) _ _ :=
      h.stored (by rw [hpc]; rfl) rfl rfl ⟨_, Function.update_self .., rfl⟩ (by rw [hpc]; rfl)
        (by rw [stage, hpc]; rfl)
    rwa [hSame] at hStored
  -- here a `push` takes effect
  | @push data node n hpc hNode hHead =>
    refine ⟨node :: l, h.push hpc hNode hHead, ?_⟩
    rw [hpc] at hRead
    obtain ⟨n', hn', rfl⟩ := hRead
    obtain rfl := Option.some.inj (hNode.symm.trans hn')
    have hStage := stage_update (s := s) (t := t) (p := .ret .pushed)
      (r := { s.setPc t (.ret .pushed) with head := node }) rfl fun _ _ _ _ => rfl
    rw [hStage, hpc]
    show Moves _ _ _ _ _ _ (s.values (node :: l))
    rw [values_cons hNode]
    have hPending : stage s t = .pending (.push n.data) := by
      rw [stage, hpc]
      rfl
    exact .effect_only (O := stackObject α) hPending
  -- a null `head`: here a `pop` of the empty stack takes effect
  | empty hpc hNull =>
    have hNil : l = [] := by
      have hChain := h.chain
      rw [hNull] at hChain
      exact hChain.eq_nil
    subst hNil
    have hPending : stage s t = .pending .pop := by
      rcases hpc with hpc | ⟨old, next, hpc⟩ <;> rw [stage, hpc] <;> rfl
    have hAnswer : (s.pc t).answer = none := by
      rcases hpc with hpc | ⟨old, next, hpc⟩ <;> rw [hpc] <;> rfl
    refine ⟨[], h.move ?_ (by simp [Pc.isPopping]) trivial, ?_⟩
    · rcases hpc with hpc | ⟨old, next, hpc⟩ <;> rw [hpc] <;> rfl
    · have hStage := stage_update (s := s) (t := t) (p := .ret (.popped none))
        (r := s.setPc t (.ret (.popped none))) rfl fun _ _ _ _ => rfl
      rw [hStage, hAnswer]
      exact .effect_only (O := stackObject α) hPending
  | old hpc hSome =>
    have hPopping : (s.pc t).isPopping = true := by
      rcases hpc with hpc | ⟨old, next, hpc⟩ <;> rw [hpc] <;> rfl
    refine ⟨l, h.move ?_ (fun _ => h.others hPopping) ?_, moves_stay ?_ rfl (fun _ _ _ _ => rfl) ?_⟩
    · rcases hpc with hpc | ⟨old, next, hpc⟩ <;> rw [hpc] <;> rfl
    · obtain ⟨rest, rfl, -⟩ := h.chain.eq_cons hSome
      exact List.mem_cons_self
    · rcases hpc with hpc | ⟨old, next, hpc⟩ <;> rw [hpc] <;> rfl
    · rcases hpc with hpc | ⟨old, next, hpc⟩ <;> rw [stage, hpc] <;> rfl
  -- the `next` of the first node, which nobody else takes off meanwhile
  | @next old n hpc hNode =>
    refine ⟨l, h.move (by rw [hpc]; rfl) (fun _ => h.others (by rw [hpc]; rfl)) ?_,
      moves_stay (by rw [hpc]; rfl) rfl (fun _ _ _ _ => rfl) (by rw [stage, hpc]; rfl)⟩
    rw [hpc] at hRead
    refine ⟨hRead, ?_⟩
    rw [State.next, hNode]
    rfl
  -- and here any other `pop`
  | @pop old next hpc hHead =>
    obtain ⟨rest, rfl, hInv⟩ := h.pop hpc hHead
    refine ⟨rest, hInv, ?_⟩
    obtain ⟨n, hNode⟩ := Option.isSome_iff_exists.mp ((h.live old).mpr (Or.inl List.mem_cons_self))
    have hStage := stage_update (s := s) (t := t) (p := .popData old)
      (r := { s.setPc t (.popData old) with head := next }) rfl fun _ _ _ _ => rfl
    have hDone : stageAt { s.setPc t (.popData old) with head := next } (.popData old) =
        .done (.popped (some n.data)) := by
      show Stage.done (Ret.popped ((s.heap old).map Node.data)) = _
      rw [hNode]
      rfl
    rw [hStage, hDone, hpc, values_cons hNode]
    have hPending : stage s t = .pending .pop := by
      rw [stage, hpc]
      rfl
    exact .effect_only (O := stackObject α) hPending
  | @data old n hpc hNode =>
    refine ⟨l, h.move (by rw [hpc]; rfl) (fun _ => h.others (by rw [hpc]; rfl)) ⟨n, hNode, rfl⟩,
      moves_stay (by rw [hpc]; rfl) rfl (fun _ _ _ _ => rfl) ?_⟩
    rw [stage, hpc]
    show _ = Stage.done (Ret.popped ((s.heap old).map Node.data))
    rw [hNode]
    rfl
  | @delete old result hpc hLive =>
    exact h.stored (by rw [hpc]; rfl) rfl rfl trivial (by rw [hpc]; rfl) (by rw [stage, hpc]; rfl)
  | @ret answer hpc =>
    refine ⟨l, h.move (by rw [hpc]; rfl) (by simp [Pc.isPopping]) trivial, ?_⟩
    have hStage := stage_update (s := s) (t := t) (p := .idle) (r := s.setPc t .idle) rfl
      fun _ _ _ _ => rfl
    rw [hStage, hpc]
    exact .ret (by rw [stage, hpc]; rfl)

/-- Every step is matched by the stack: the two exchanges are where a push and a pop take
effect, the load of a null `head` is where a pop finds it empty. -/
theorem step_moves (h : Inv s l) (hok : NoOverlap s a) (hst : step s a = some s') :
    ∃ l', Inv s' l' ∧ Moves (stackObject α) (stage s) (s.values l) (calls a) (rets s a s')
      (stage s') (s'.values l') := by
  cases a with
  | call t op =>
    simp only [step] at hst
    split at hst
    · next hpc =>
      obtain rfl := Option.some.inj hst
      have hStage := stage_update (s := s) (t := t) (p := op.start) (r := s.setPc t op.start) rfl
        fun _ _ _ _ => rfl
      refine ⟨l, ?_, ?_⟩
      · cases op with
        | push data => exact h.move (by rw [hpc]; rfl) (by simp [Op.start, Pc.isPopping]) trivial
        | pop => exact h.move (by rw [hpc]; rfl) (fun _ u _ => hok u) trivial
      · rw [hStage, show stageAt (s.setPc t op.start) op.start = .pending op by cases op <;> rfl]
        exact .call (by rw [stage, hpc]; rfl)
    · simp at hst
  | run t address spurious => exact effect_moves h (run_effect hst)

-- ---------------------------------------------------------------------------
-- The contract
-- ---------------------------------------------------------------------------

/-- No chain and no node. -/
theorem inv_init : Inv (system τ α).init [] := by
  refine ⟨rfl, rfl, ?_, ?_, ?_, ?_, fun _ => trivial⟩ <;>
    simp [system, Pc.owned, Pc.isPopping, Exclusive]

/-- What the stack promises, with its nodes `l` and the operations in their order. -/
structure StackState (x : State τ α × Record τ (Op α) (Ret α)) (l : List Nat)
    (log : List (Entry (Op α) (Ret α))) : Prop where
  explains : (stackObject α).Explains log x.2.history
  chain : Linked x.1.next nullptr x.1.head l
  values : x.1.values l = (stackObject α).after log
  /-- Only the nodes of the stack are allocated, and those of a call that is under way. -/
  live : ∀ i, (x.1.heap i).isSome = true ↔ i ∈ l ∨ ∃ t, (x.1.pc t).owned = some i
  safe : ∀ t, ¬ Fault x.1 t

/-- **The contract of the stack**, for any number of threads and every interleaving in which no
two calls of `pop` overlap: it is linearizable, its nodes are those of the values in it, no
freed node is accessed and none is lost. The accesses are sequentially consistent and a freed
address may come back; pushes may overlap with each other and with the one `pop`. -/
theorem treiber_stack_contract {x : State τ α × Record τ (Op α) (Ret α)}
    (h : ((system τ α).recorded calls rets).ReachableWhere (fun x a => NoOverlap x.1 a) x) :
    ∃ l log, StackState x l log := by
  have hStep : ∀ (s : State τ α) (a : Action τ α) (s' : State τ α) (items : List α),
      (system τ α).ReachableWhere NoOverlap s → (∃ l, Inv s l ∧ s.values l = items) →
      NoOverlap s a → (system τ α).step s a = some s' →
      ∃ items', (∃ l, Inv s' l ∧ s'.values l = items') ∧
        Moves (stackObject α) (stage s) items (calls a) (rets s a s') (stage s') items' := by
    rintro s a s' _ - ⟨l, hInv, rfl⟩ hok hst
    obtain ⟨l', hInv', hMoves⟩ := step_moves hInv hok hst
    exact ⟨_, ⟨l', hInv', rfl⟩, hMoves⟩
  obtain ⟨log, hLog, l, hInv, hValues⟩ := recorded_explained (O := stackObject α) NoOverlap stage
    (fun s items => ∃ l, Inv s l ∧ s.values l = items) ⟨[], inv_init, rfl⟩ (fun _ => rfl) hStep h
  exact ⟨l, log, hLog, hInv.chain, hValues, hInv.live, hInv.noFault⟩

/-- Two threads push at once, and one of them pops then. -/
theorem treiber_stack_contract_two :
    ∃ x : State (Fin 2) Nat × Record (Fin 2) (Op Nat) (Ret Nat),
      ((system (Fin 2) Nat).recorded calls rets).ReachableWhere (fun x a => NoOverlap x.1 a) x ∧
      x.2.history = [.call 0 (.push 100), .call 1 (.push 200), .ret 0 .pushed, .ret 1 .pushed,
        .call 2 .pop, .ret 2 (.popped (some 100)), .call 3 .pop] ∧
      x.1.pc 0 = .popCas 7 nullptr ∧ ∃ l log, StackState x l log := by
  obtain ⟨x, hx, hHistory, hpc⟩ := System.exists_reachableWhere_of_exec
    (S := (system (Fin 2) Nat).recorded calls rets)
    (c := fun x a => decide (NoOverlap x.1 a)) (fun _ _ => of_decide_eq_true)
    (p := fun x => x.2.history = [.call 0 (.push 100), .call 1 (.push 200), .ret 0 .pushed,
        .ret 1 .pushed, .call 2 .pop, .ret 2 (.popped (some 100)), .call 3 .pop] ∧
      x.1.pc 0 = .popCas 7 nullptr)
    (List.flatten [[Action.call 0 (.push 100), .call 1 (.push 200)],
      List.replicate 2 (.run 0 4 false),
      List.replicate 3 (.run 1 7 false), List.replicate 3 (.run 0 0 false),
      [.run 1 0 false, .call 0 .pop], List.replicate 6 (.run 0 0 false),
      [.call 0 .pop], List.replicate 2 (.run 0 0 false)])
    (by decide +kernel)
  exact ⟨x, hx, hHistory, hpc, treiber_stack_contract hx⟩

/-- In every run without overlapping pops. -/
theorem inv_reachable (h : (system τ α).ReachableWhere NoOverlap s) : ∃ l, Inv s l := by
  refine h.invariant (I := fun s => ∃ l, Inv s l) ⟨[], inv_init⟩ ?_
  rintro s a s' - ⟨l, hInv⟩ hok hst
  obtain ⟨l', hInv', -⟩ := step_moves hInv hok hst
  exact ⟨l', hInv'⟩

/-- A `pop` that runs alone, returns the first value and deletes its node. -/
theorem pop_alone {n : Node α} (hpc : s.pc t = .idle) (hNonempty : s.head ≠ nullptr)
    (hNode : s.heap s.head = some n) :
    ∃ s', (system τ α).exec s (.call t .pop :: List.replicate 5 (.run t nullptr false)) = some s' ∧
      s'.heap s.head = none ∧ s'.pc t = .ret (.popped (some n.data)) ∧
      ∀ u, u ≠ t → s'.pc u = s.pc u := by
  refine ⟨{ (s.store s.head none).setPc t (.ret (.popped (some n.data))) with head := n.next },
    ?_, Function.update_self .., Function.update_self .., fun u hut => Function.update_of_ne hut ..⟩
  simp [System.exec_cons, system, step, run, State.setPc, State.store, State.testOld, Op.start,
    List.replicate, hpc, hNonempty, hNode]

/-- Thread `t` calls `pop` and loads `head`. Then thread `u` calls `pop` and goes on until it
has deleted the node that it has popped. -/
def overlap (t u : τ) : List (Action τ α) :=
  [.call t .pop, .run t nullptr false] ++ .call u .pop :: List.replicate 5 (.run u nullptr false)

/-- **The defect that the comment in `pop` warns of**: whenever two threads can call `pop` on
a stack that is not empty, they can overlap such that one of them is about to read `next` of
the first node, which was allocated and which the other one has deleted. -/
theorem overlapping_pops_fault (h : (system τ α).ReachableWhere NoOverlap s)
    (hNonempty : s.head ≠ nullptr) (htu : t ≠ u) (ht : s.pc t = .idle) (hu : s.pc u = .idle) :
    ∃ s' n, (system τ α).exec s (overlap t u) = some s' ∧ s.heap s.head = some n ∧
      s'.heap s.head = none ∧ s'.pc u = .ret (.popped (some n.data)) ∧
      s'.pc t = .popNext s.head ∧ Fault s' t := by
  obtain ⟨l, hInv⟩ := inv_reachable h
  obtain ⟨rest, rfl, -⟩ := hInv.chain.eq_cons hNonempty
  obtain ⟨n, hNode⟩ := Option.isSome_iff_exists.mp
    ((hInv.live s.head).mpr (Or.inl List.mem_cons_self))
  -- `t` stops before the read of `old_head->next`, and `u` pops that node
  have hLoaded : (system τ α).exec s [.call t .pop, .run t nullptr false] =
      some (s.setPc t (.popNext s.head)) := by
    simp [System.exec_cons, system, step, run, ht, State.setPc, State.testOld, Op.start, hNonempty]
  have hIdle : (s.setPc t (.popNext s.head)).pc u = .idle :=
    (Function.update_of_ne (Ne.symm htu) ..).trans hu
  obtain ⟨s', hExec, hFreed, hReturned, hOthers⟩ := pop_alone hIdle hNonempty hNode
  have hNext : s'.pc t = .popNext s.head := by
    rw [hOthers t htu]
    exact Function.update_self ..
  refine ⟨s', n, ?_, hNode, hFreed, hReturned, hNext, s.head, ?_, hFreed⟩
  · rw [overlap, System.exec_append, hLoaded, Option.bind_some, hExec]
  · simp [hNext, Pc.accesses]

/-- One value, and two threads that pop. -/
theorem overlapping_pops_fault_two : ∃ s s' : State (Fin 2) Nat, ∃ n : Node Nat,
    (system (Fin 2) Nat).ReachableWhere NoOverlap s ∧ s.head = 4 ∧
      (system (Fin 2) Nat).exec s (overlap 0 1) = some s' ∧ s.heap s.head = some n ∧
      s'.heap s.head = none ∧ s'.pc 1 = .ret (.popped (some n.data)) ∧
      s'.pc 0 = .popNext s.head ∧ Fault s' 0 := by
  obtain ⟨s, hs, hHead, hPc₀, hPc₁⟩ := System.exists_reachableWhere_of_exec
    (S := system (Fin 2) Nat) (c := fun s a => decide (NoOverlap s a))
    (fun _ _ => of_decide_eq_true)
    (p := fun s => s.head = 4 ∧ s.pc 0 = .idle ∧ s.pc 1 = .idle)
    (Action.call 0 (.push 100) :: List.replicate 4 (.run 0 4 false)) (by decide +kernel)
  obtain ⟨s', n, hFault⟩ :=
    overlapping_pops_fault hs (by rw [hHead]; decide) (by decide : (0 : Fin 2) ≠ 1) hPc₀ hPc₁
  exact ⟨s, s', n, hs, hHead, hFault⟩

end EmbLinux.MemoryAtomicOperation.TreiberStack
