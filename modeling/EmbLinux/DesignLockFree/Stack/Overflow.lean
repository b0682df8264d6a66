import EmbLinux.DesignLockFree.Stack.Reclamation
import EmbLinux.Lib.History

/-!
# EmbLinux — how far the external counts of `lock_free_stack` go

`external_count` is an `int`. The model has unbounded counts, so it is the code as long as
no `++external_count` starts from the largest `int`.

`counted` is the stack with a history that counts the successful turns of
`increase_head_count`: those of a node since its `new`, those of the null pointer since the
constructor. A count goes with its pointer from `head` to the `next` of the node above and
back, and nothing takes from it, so it is the number of these turns (`Used`). The null
pointer has no `push` that replaces it by a new count: each `pop` of an empty stack adds to
it for good.
-/

namespace EmbLinux.DesignLockFree

/-- The largest `int`. -/
def intMax : Int := 2 ^ 31 - 1

end EmbLinux.DesignLockFree

namespace EmbLinux.DesignLockFree.Stack

variable {τ α : Type*} [DecidableEq τ]

/-- The access that thread `t` makes next does not take `external_count` beyond the
largest `int`, for every thread. -/
def NoOverflow (s : State τ α) : Prop :=
  ∀ t old, s.pc t = .popIncrease old → old.externalCount + 1 ≤ intMax

/-- The count of a pointer before the first turn. -/
def firstCount (ptr : Nat) : Int :=
  if ptr = 0 then 0 else 1

-- ---------------------------------------------------------------------------
-- The history
-- ---------------------------------------------------------------------------

/-- What an action adds to the history, with 0 for the null pointer. -/
def note (s : State τ α) (a : Action τ α) (u : Uses τ Nat) : Uses τ Nat :=
  match a with
  | .callPop _ | .callPush _ _ => u
  | .run t _ fresh =>
    match s.pc t with
    | .popLoad => u.load t s.head.ptr
    | .popIncrease old => if s.head = old then u.use t old.ptr else u.load t s.head.ptr
    | .popCas old _ => if s.head = old then u else u.load t s.head.ptr
    | .pushNew _ => u.renew fresh
    | _ => u

/-- The stack with a count of the uses of each node. -/
def counted (τ α : Type*) [DecidableEq τ] : System (State τ α × Uses τ Nat) (Action τ α) :=
  (system τ α).withHistory (.none τ Nat) note

/-- No thread is about to add 1 to a count that has had as many turns as an `int` can
count. -/
def FewUses (x : State τ α × Uses τ Nat) : Prop :=
  ∀ t old, x.1.pc t = .popIncrease old → firstCount old.ptr + x.2.loaded t < intMax

-- ---------------------------------------------------------------------------
-- The counts are the numbers of turns
-- ---------------------------------------------------------------------------

/-- The pointer that a thread has loaded and will add 1 to. -/
def Pc.loaded {β : Type*} : Pc β → Option CountedNodePtr
  | .popIncrease old | .popSub _ old | .popAcquire _ old | .delete _ (.popRetry old) => some old
  | _ => none

/-- An external count is the first one of its node plus the uses of it. -/
structure Used (s : State τ α) (u : Uses τ Nat) (l : List Nat) : Prop where
  external : ∀ p c, p ≠ 0 → s.external p = some c → c = 1 + u.count p
  /-- The null pointer is counted in `head`, -/
  null : s.head.ptr = 0 → s.head.externalCount = u.count 0
  /-- and in the last node, once something was pushed. -/
  last : ∀ p ∈ l, (s.next p).ptr = 0 → (s.next p).externalCount = u.count 0
  /-- What a thread has loaded has the count of that moment. -/
  loaded : ∀ t old, (s.pc t).loaded = some old →
    old.externalCount = firstCount old.ptr + u.loaded t

variable {s s' : State τ α} {u : Uses τ Nat} {l : List Nat} {t : τ} {pc : Pc (Numbered α)}

omit [DecidableEq τ] in
/-- In particular that of `head`. -/
theorem Used.head_count (h : Used s u l) (hInv : Inv s l) :
    s.head.externalCount = firstCount s.head.ptr + u.count s.head.ptr := by
  by_cases hNull : s.head.ptr = 0
  · rw [h.null hNull, hNull, firstCount, if_pos rfl, Int.zero_add]
  · obtain ⟨rest, -, hExternal, -⟩ := hInv.nodes.head_cons hNull
    rw [firstCount, if_neg hNull]
    exact h.external _ _ hNull hExternal

/-- The pointers stay, and the thread has loaded nothing new. -/
theorem Used.move (h : Used s u l) (hPc : s'.pc = Function.update s.pc t pc)
    (hExternal : ∀ p c, s'.external p = some c → s.external p = some c)
    (hHead : s'.head = s.head) (hNext : ∀ p ∈ l, s'.next p = s.next p)
    (hLoaded : pc.loaded = none ∨ pc.loaded = (s.pc t).loaded) : Used s' u l := by
  refine ⟨?_, ?_, ?_, ?_⟩
  · exact fun p c hp hc => h.external p c hp (hExternal p c hc)
  · rw [hHead]
    exact h.null
  · intro p hp
    rw [hNext p hp]
    exact h.last p hp
  · refine part_of_update Pc.loaded hPc (fun old hv => ?_) fun v old _ => h.loaded v old
    rcases hLoaded with hNone | hSame
    · rw [hNone] at hv
      cases hv
    · exact h.loaded t old (hSame ▸ hv)

/-- The thread loads `head`. -/
theorem Used.load (h : Used s u l) (hInv : Inv s l) (hLoaded : pc.loaded = some s.head) :
    Used (s.setPc t pc) (u.load t s.head.ptr) l := by
  refine ⟨h.external, h.null, h.last, part_of_update Pc.loaded rfl ?_ ?_⟩
  · intro old hv
    rw [hLoaded] at hv
    cases hv
    rw [Uses.load_self]
    exact h.head_count hInv
  · intro v old hvt hv
    rw [Uses.load_of_ne hvt]
    exact h.loaded v old hv

/-- A turn on the null pointer: the stack is empty. -/
theorem Used.empty (h : Used s u l) (hInv : Inv s l) (hNull : s.head.ptr = 0)
    (hPc : s'.pc = Function.update s.pc t pc) (hLoaded : pc.loaded = none)
    (hHead : s'.head = ⟨s.head.externalCount + 1, s.head.ptr⟩)
    (hExternal : s'.external = s.external) : Used s' (u.use t s.head.ptr) l := by
  have hLinked := hInv.nodes.linked
  rw [hNull] at hLinked
  obtain rfl := hLinked.eq_nil
  refine ⟨?_, ?_, fun p hp => absurd hp List.not_mem_nil, ?_⟩
  · intro p c hp hc
    change c = 1 + (Function.update u.count s.head.ptr (u.count s.head.ptr + 1) p : Nat)
    rw [hNull, Function.update_of_ne hp]
    exact h.external p c hp (hExternal ▸ hc)
  · intro _
    change s'.head.externalCount =
      (Function.update u.count s.head.ptr (u.count s.head.ptr + 1) 0 : Nat)
    rw [hHead, hNull, Function.update_self, h.null hNull]
    rfl
  · refine part_of_update Pc.loaded hPc (fun old hv => ?_) fun v old hvt hv => ?_
    · rw [hLoaded] at hv
      cases hv
    · rw [Uses.use_of_ne hvt]
      exact h.loaded v old hv

/-- A turn on a node. -/
theorem Used.increase (h : Used s u l) (hInv : Inv s l) (hPtr : s.head.ptr ≠ 0)
    (hPc : s'.pc = Function.update s.pc t pc) (hLoaded : pc.loaded = none)
    (hHead : s'.head = ⟨s.head.externalCount + 1, s.head.ptr⟩) (hNext : s'.next = s.next)
    (hExternal : s'.external =
      Function.update s.external s.head.ptr (some (s.head.externalCount + 1))) :
    Used s' (u.use t s.head.ptr) l := by
  have hZero : (u.use t s.head.ptr).count 0 = u.count 0 := Function.update_of_ne hPtr.symm ..
  refine ⟨?_, ?_, ?_, ?_⟩
  · intro p c hp hc
    change c = 1 + (Function.update u.count s.head.ptr (u.count s.head.ptr + 1) p : Nat)
    rcases update_cases hExternal p with ⟨rfl, hHere⟩ | ⟨hpt, hOther⟩
    · rw [hHere] at hc
      obtain rfl := Option.some.inj hc
      have hCount := h.head_count hInv
      rw [firstCount, if_neg hPtr] at hCount
      rw [Function.update_self]
      omega
    · rw [Function.update_of_ne hpt]
      exact h.external p c hp (hOther ▸ hc)
  · rw [hHead]
    exact fun hNull => absurd hNull hPtr
  · rw [hNext, hZero]
    exact h.last
  · refine part_of_update Pc.loaded hPc (fun old hv => ?_) fun v old hvt hv => ?_
    · rw [hLoaded] at hv
      cases hv
    · rw [Uses.use_of_ne hvt]
      exact h.loaded v old hv

/-- `head` goes on to the next node, with the count that is saved there. -/
theorem Used.popCas (h : Used s u l) (hInv : Inv s l) {next : CountedNodePtr}
    (hpc : s.pc t = .popCas s.head next) (hPc : s'.pc = Function.update s.pc t (.popSwap s.head))
    (hHead : s'.head = next) (hNext : s'.next = s.next) (hExternal : s'.external = s.external) :
    Used s' u l.tail := by
  have hHeld : s.held t = some s.head.ptr := (role_at hpc).1
  obtain ⟨rest, rfl, -⟩ := hInv.nodes.head_cons (hInv.nodes.held t _ hHeld).1
  refine ⟨?_, ?_, ?_, ?_⟩
  · rw [hExternal]
    exact h.external
  · rw [hHead, hInv.knows t _ _ hpc]
    exact h.last _ List.mem_cons_self
  · rw [hNext]
    exact fun p hp => h.last p (List.mem_cons_of_mem _ hp)
  · exact part_of_update Pc.loaded hPc (fun _ hv => by cases hv) fun v old _ => h.loaded v old

/-- A node that is allocated again has not been used. -/
theorem Used.alloc (h : Used s u l) (hInv : Inv s l) {data : Numbered α} {p : Nat} (hZero : p ≠ 0)
    (hFree : s.allocated p = false) :
    Used ((s.newNode t p data).setPc t (.pushLoad data p)) (u.renew p) l := by
  have hNull : (u.renew p).count 0 = u.count 0 := Function.update_of_ne hZero.symm ..
  refine ⟨?_, ?_, ?_, ?_⟩
  · intro q c hq hc
    change Function.update s.external p (some 1) q = some c at hc
    change c = 1 + (Function.update u.count p 0 q : Nat)
    rcases update_at s.external p (some 1) q with ⟨rfl, hHere⟩ | ⟨hqp, hOther⟩
    · rw [hHere] at hc
      obtain rfl := Option.some.inj hc
      rw [Function.update_self]
      rfl
    · rw [Function.update_of_ne hqp]
      exact h.external q c hq (hOther ▸ hc)
  · rw [hNull]
    exact h.null
  · intro q hq
    have hqp : q ≠ p := by
      rintro rfl
      exact absurd (hInv.nodes.onChain q hq) (by rw [hFree]; exact Bool.false_ne_true)
    change (Function.update s.next p ⟨0, 0⟩ q).ptr = 0 → _
    rw [hNull, show ((s.newNode t p data).setPc t (.pushLoad data p)).next q = s.next q from
      Function.update_of_ne hqp .., Function.update_of_ne hqp]
    exact h.last q hq
  · exact part_of_update Pc.loaded rfl (fun _ hv => by cases hv) fun v old _ => h.loaded v old

/-- The pointer that was in `head` is now in the `next` of the new node. -/
theorem Used.pushCas (h : Used s u l) (hInv : Inv s l) {data : Numbered α} {p : Nat}
    (hpc : s.pc t = .pushCas data p) (hTop : s.head = s.next p) {last : Option (Ret (Numbered α))}
    (hPc : s'.pc = Function.update s.pc t (.idle last)) (hHead : s'.head = ⟨1, p⟩)
    (hNext : s'.next = s.next) (hExternal : s'.external = s.external) : Used s' u (p :: l) := by
  have hOwn : s.owned t = some p := (role_at hpc).2.2.1
  refine ⟨?_, ?_, ?_, ?_⟩
  · rw [hExternal]
    exact h.external
  · rw [hHead]
    exact fun hNull => absurd hNull (hInv.nodes.owned t p hOwn).1
  · rw [hNext]
    intro q hq
    rcases List.mem_cons.mp hq with rfl | hq
    · rw [← hTop]
      exact h.null
    · exact h.last q hq
  · exact part_of_update Pc.loaded hPc (fun _ hv => by cases hv) fun v old _ => h.loaded v old

/-- One access. -/
theorem used_run (h : Used s u l) (hInv : Inv s l) {spurious : Bool} {fresh : Nat}
    (hst : run s t spurious fresh = some s') :
    Used s' (note s (.run t spurious fresh) u) (shift l (s.pc t) (s'.pc t)) := by
  cases hpc : s.pc t with
  | idle last => simp [run, hpc] at hst
  | popLoad =>
    simp only [run, hpc, Option.some.injEq] at hst
    subst hst
    simp only [note, hpc]
    exact h.load hInv rfl
  | popIncrease old =>
    simp only [run, hpc, State.increaseHeadCount, Option.some.injEq] at hst
    by_cases hHead : s.head = old
    · subst hHead
      simp only [note, hpc, if_true]
      -- the count of a null `head` has no node: it goes on in the pointer
      by_cases hNull : s.head.ptr = 0
      · simp only [if_true, if_pos hNull] at hst
        subst hst
        exact h.empty hInv hNull rfl rfl rfl rfl
      · simp only [if_true, if_neg hNull] at hst
        subst hst
        exact h.increase hInv hNull rfl rfl rfl rfl rfl
    · simp only [if_neg hHead] at hst
      subst hst
      simp only [note, hpc, if_neg hHead]
      exact h.load hInv rfl
  | popNext old =>
    simp only [run, hpc, Option.some.injEq] at hst
    subst hst
    simp only [note, hpc]
    exact h.move rfl (fun _ _ => id) rfl (fun _ _ => rfl) (Or.inl rfl)
  | popCas old next =>
    simp only [run, hpc] at hst
    by_cases hHead : s.head = old
    · subst hHead
      simp only [if_true, Option.some.injEq] at hst
      subst hst
      simp only [note, hpc, if_true, State.setPc, Function.update_self, shift]
      exact h.popCas hInv hpc rfl rfl rfl rfl
    · simp only [if_neg hHead, Option.some.injEq] at hst
      subst hst
      simp only [note, hpc, if_neg hHead]
      rw [show shift l (.popCas old next) ((s.setPc t (.popSub old.ptr s.head)).pc t) = l by
        simp only [State.setPc, Function.update_self, shift]]
      exact h.load hInv rfl
  | popSwap old =>
    simp only [run, hpc, Option.some.injEq] at hst
    subst hst
    simp only [note, hpc]
    exact h.move rfl (fun _ _ => id) rfl (fun _ _ => rfl) (Or.inl rfl)
  -- what is added to the internal count is taken from no other external one
  | popAdd old res =>
    have hClosed : ∀ p c, (s.close old).external p = some c → s.external p = some c := by
      intro p c hc
      rcases update_at s.external old.ptr none p with ⟨-, hHere⟩ | ⟨-, hOther⟩
      · exact absurd (hHere.symm.trans hc) (by simp)
      · exact hOther.symm.trans hc
    simp only [run, hpc] at hst
    simp only [note, hpc]
    split at hst <;> cases hst
    · exact h.move rfl hClosed rfl (fun _ _ => rfl) (Or.inl rfl)
    · exact h.move rfl hClosed rfl (fun _ _ => rfl) (Or.inl rfl)
  | popSub ptr old =>
    simp only [run, hpc] at hst
    simp only [note, hpc]
    split at hst <;> cases hst
    · exact h.move rfl (fun _ _ => id) rfl (fun _ _ => rfl) (Or.inr (by rw [hpc]; rfl))
    · exact h.move rfl (fun _ _ => id) rfl (fun _ _ => rfl) (Or.inr (by rw [hpc]; rfl))
  | popAcquire ptr old =>
    simp only [run, hpc, Option.some.injEq] at hst
    subst hst
    simp only [note, hpc]
    exact h.move rfl (fun _ _ => id) rfl (fun _ _ => rfl) (Or.inr (by rw [hpc]; rfl))
  | delete ptr k =>
    simp only [run, hpc, Option.some.injEq] at hst
    subst hst
    simp only [note, hpc]
    cases k with
    | popReturn res => exact h.move rfl (fun _ _ => id) rfl (fun _ _ => rfl) (Or.inl rfl)
    | popRetry old =>
      exact h.move rfl (fun _ _ => id) rfl (fun _ _ => rfl) (Or.inr (by rw [hpc]; rfl))
  | pushNew data =>
    simp only [run, hpc] at hst
    simp only [note, hpc]
    split at hst <;> cases hst
    next hFresh => exact h.alloc hInv hFresh.1 hFresh.2
  -- the node is not on the stack yet, so the pointer stored in it is no count of a node there
  | pushLoad data p =>
    have hOff := (hInv.nodes.owned t p (role_at hpc).2.2.1).2.2.1
    have hNext : ∀ q ∈ l, Function.update s.next p s.head q = s.next q :=
      fun q hq => Function.update_of_ne (ne_of_mem_of_not_mem hq hOff) ..
    simp only [run, hpc, Option.some.injEq] at hst
    subst hst
    simp only [note, hpc]
    exact h.move rfl (fun _ _ => id) rfl hNext (Or.inl rfl)
  | pushCas data p =>
    have hOff := (hInv.nodes.owned t p (role_at hpc).2.2.1).2.2.1
    have hNext : ∀ q ∈ l, Function.update s.next p s.head q = s.next q :=
      fun q hq => Function.update_of_ne (ne_of_mem_of_not_mem hq hOff) ..
    simp only [run, hpc] at hst
    simp only [note, hpc]
    split at hst <;> cases hst
    · next hCas =>
      simp only [State.setPc, Function.update_self, shift]
      exact h.pushCas hInv hpc hCas.1 rfl rfl rfl rfl
    · rw [show shift l (.pushCas data p) ((s.setPc t (.pushCas data p)).pc t) = l by
        simp only [State.setPc, Function.update_self, shift]]
      exact h.move rfl (fun _ _ => id) rfl hNext (Or.inl rfl)

/-- Every step keeps it. -/
theorem used_step (h : Used s u l) (hInv : Inv s l) {a : Action τ α} (hst : step s a = some s') :
    Used s' (note s a u) (shift l (s.pc a.thread) (s'.pc a.thread)) := by
  cases a with
  | callPop t =>
    simp only [step] at hst
    split at hst <;> cases hst
    next hpc =>
      simp only [Action.thread, hpc, State.setPc, Function.update_self, shift]
      exact h.move rfl (fun _ _ => id) rfl (fun _ _ => rfl) (Or.inl rfl)
  | callPush t data =>
    simp only [step] at hst
    split at hst <;> cases hst
    next hpc =>
      simp only [Action.thread, hpc, State.setPc, Function.update_self, shift]
      exact h.move rfl (fun _ _ => id) rfl (fun _ _ => rfl) (Or.inl rfl)
  | run t spurious fresh => exact used_run h hInv hst

omit [DecidableEq τ] in
/-- The null pointer has not been used. -/
theorem used_init : Used (init τ α) (.none τ Nat) [] := by
  refine ⟨?_, fun _ => rfl, ?_, ?_⟩
  · intro p c _ hc
    cases hc
  · intro p hp
    cases hp
  · intro v old hv
    cases hv

/-- In every reachable state. -/
theorem used_reachable {x : State τ α × Uses τ Nat} (hx : (counted τ α).Reachable x) :
    ∃ l, Inv x.1 l ∧ Used x.1 x.2 l := by
  refine hx.invariant (I := fun x => ∃ l, Inv x.1 l ∧ Used x.1 x.2 l)
    ⟨[], inv_init, used_init⟩ ?_
  rintro x a y - ⟨l, hInv, hUsed⟩ - hst
  obtain ⟨hst, hNote⟩ := System.withHistory_step.mp hst
  refine ⟨_, inv_effect hInv (step_effect hst), ?_⟩
  rw [hNote]
  exact used_step hUsed hInv hst

/-- In every state of every run: no count goes beyond the largest `int` if and only if no
thread is about to add to a count that has had too many turns. -/
theorem noOverflow_iff {x : State τ α × Uses τ Nat} (hx : (counted τ α).Reachable x) :
    NoOverflow x.1 ↔ FewUses x := by
  obtain ⟨l, -, hUsed⟩ := used_reachable hx
  have hCount : ∀ t old, x.1.pc t = .popIncrease old →
      old.externalCount = firstCount old.ptr + x.2.loaded t := by
    intro t old hpc
    exact hUsed.loaded t old (by rw [hpc]; rfl)
  constructor
  · intro h t old hpc
    have hLe := h t old hpc
    have hEq := hCount t old hpc
    omega
  · intro h t old hpc
    have hLt := h t old hpc
    have hEq := hCount t old hpc
    omega

-- ---------------------------------------------------------------------------
-- Polling
-- ---------------------------------------------------------------------------

/-- A consumer that has called `pop` on the new stack `n` times. -/
def polled (n : Nat) : State Unit α :=
  { init Unit α with
    head := ⟨n, 0⟩
    pc := fun _ => .idle (if n = 0 then Option.none else some (.popped Option.none)) }

/-- The run of a thread that calls `pop` on an empty stack `n` times. -/
theorem polled_reachable (n : Nat) : (system Unit α).Reachable (polled n) := by
  induction n with
  | zero => exact .init
  | succ n ih =>
    refine (((ih.act (.callPop ()) trivial rfl).act (.run () false 0) trivial rfl).act
      (.run () false 0) trivial ?_)
    simp [system, step, run, polled, State.setPc, State.increaseHeadCount]
    exact funext fun _ => Function.update_self ..

end EmbLinux.DesignLockFree.Stack
