import EmbLinux.DesignLockBase.Queue.Contract
import EmbLinux.Lib.Count

/-!
# EmbLinux — wake-ups in `threadsafe_queue_fine_grained`

`wait` evaluates its predicate with `head_mutex` locked and blocks, but `push` changes
what the predicate reads, and notifies, with `head_mutex` free. A `push` that assigns
`tail` and notifies after a consumer has read `tail` and before it blocks wakes nobody:
`wake_up_lost` is such a run.

`Covered` is the condition on the steps that block: the calls of `push` that have not
notified yet are enough for all blocked consumers, or the values that are stored are not
more than these calls and the woken consumers. `waiters_covered` says that no wake-up is
lost in the runs that meet it. The invariant is the same inequality for every state.

## Results

* `counted_effect` — a step changes each of the numbers by one at most.
* `budget_effect`, `budget_reachable` — the values are covered, in every run that meets the
  condition.
* `stranded_of_uncovered`, `stranded_step` — a step that does not meet it leaves a value and a
  blocked consumer behind until somebody else calls.
-/

namespace EmbLinux.DesignLockBase.Queue

variable {τ α : Type*} [DecidableEq τ] {s s' : State τ α} {a : Action τ α} {t u : τ}
  {l : List Nat} {pc : Pc (Numbered α)}

-- ---------------------------------------------------------------------------
-- The claim
-- ---------------------------------------------------------------------------

/-- A `push` that has put its value into the queue and has not notified yet. -/
def Pc.notifying {β : Type*} : Pc β → Bool
  | .pushUnlock | .pushNotify => true
  | _ => false

/-- A `push` that has its value in the list and has yet to notify. -/
abbrev Notifying {β : Type*} (pc : Pc β) : Prop :=
  pc.notifying = true

/-- The number of values in the queue. -/
def State.stored (s : State τ α) : Nat :=
  s.pushed.length - s.popped.length

/-- The queue is not empty, no `push` is about to notify, no woken consumer has yet to
evaluate its predicate or to take the head that it found, and some consumer is blocked. -/
def LostWakeUp (s : State τ α) : Prop :=
  0 < s.stored ∧ (∀ t, (s.pc t).notifying = false) ∧ (∀ t, s.woken t = false) ∧ s.waiting ≠ []

instance [Fintype τ] : DecidablePred (LostWakeUp : State τ α → Prop) := fun s =>
  inferInstanceAs (Decidable (0 < s.stored ∧ (∀ t, (s.pc t).notifying = false) ∧
    (∀ t, s.woken t = false) ∧ s.waiting ≠ []))

/-- How many notifications are still to come, -/
noncomputable def State.notifies (s : State τ α) : Nat :=
  count Notifying s.pc

/-- and how many woken consumers are on their way. -/
noncomputable def State.wokens (s : State τ α) : Nat :=
  count (fun b => b = true) s.woken

/-- A step that blocks a consumer meets the condition. -/
def Covered (s : State τ α) (a : Action τ α) : Prop :=
  ∀ o, s.pc a.thread = .waitBlock o →
    s.waiting.length + 1 ≤ s.notifies ∨ s.stored ≤ s.notifies + s.wokens

-- ---------------------------------------------------------------------------
-- Woken consumers
-- ---------------------------------------------------------------------------

/-- The call blocks at an empty queue. -/
def HeadCall.waits : HeadCall → Bool
  | .waitAndPop _ => true
  | _ => false

/-- Where a woken consumer stands: on its way to the predicate, or to the head that it
found. -/
def Rechecks (s : State τ α) (t : τ) : Pc (Numbered α) → Prop
  | .blocked _ => t ∉ s.waiting
  | .headLock c | .getLock c | .getRead c | .popValue c | .popMove c _ => c.waits = true
  | .getUnlock c r | .compare c r => c.waits = true ∧ s.head ≠ r
  | _ => False

section

omit [DecidableEq τ]

/-- Others do not keep a thread from testing the predicate again. -/
theorem Rechecks.frame (h : Rechecks s u pc) (hHead : pc.inHead = true → s'.head = s.head)
    (hOut : u ∉ s.waiting → u ∉ s'.waiting) : Rechecks s' u pc := by
  cases pc with
  | blocked o => exact hOut h
  | getUnlock c r | compare c r => exact ⟨h.1, by rw [hHead rfl]; exact h.2⟩
  | headLock c | getLock c | getRead c | popValue c | popMove c out => exact h
  | _ => exact h.elim

/-- A woken consumer stays on its way in quiet accesses, -/
theorem Quiet.rechecks {pc pc' : Pc (Numbered α)} (h : Quiet s t pc pc')
    (hOld : Rechecks s t pc) : Rechecks s t pc' := by
  cases h with
  | wait hEq => exact absurd hEq hOld.2
  | fail hEq => exact absurd hEq hOld.2
  | empty => cases hOld.1
  | take hNe hCall => exact hOld.1
  | takeValue hNe hCall => exact hOld.1
  | relock hOut => rfl
  | popValue hData => exact hOld
  | call => exact hOld.elim
  | popRead => exact hOld.elim

/-- is done when it unlocks, -/
theorem HeadUnlock.not_rechecks {pc pc' : Pc (Numbered α)} (h : HeadUnlock pc pc') :
    ¬ Rechecks s t pc := by
  intro hOld
  cases h <;> exact hOld

/-- and goes on through `get_tail`. -/
theorem TailLock.rechecks {pc pc' : Pc (Numbered α)} (h : TailLock pc pc')
    (hOld : Rechecks s t pc) : Rechecks s t pc' := by
  cases h with
  | push => exact hOld.elim
  | get => exact hOld

end

/-- Every woken consumer is on its way. -/
def Woken (s : State τ α) : Prop :=
  ∀ t, s.woken t = true → Rechecks s t (s.pc t)

omit [DecidableEq τ] in
/-- A thread in the list of `data_cond` has not been woken. -/
theorem Woken.asleep (h : Woken s) (hWaiting : Waiting s) (ht : t ∈ s.waiting) :
    s.woken t = false := by
  cases hWoken : s.woken t with
  | false => rfl
  | true =>
    have hOld := h t hWoken
    obtain ⟨o, hpc⟩ := hWaiting.blocked t ht
    rw [hpc] at hOld
    exact absurd ht hOld

omit [DecidableEq τ] in
/-- A thread that is not on its way to the predicate was not woken. -/
theorem Woken.not_woken (h : Woken s) (hpc : s.pc t = pc) (hNot : ¬ Rechecks s t pc) :
    s.woken t = false := by
  cases hWoken : s.woken t with
  | false => rfl
  | true => exact absurd (hpc ▸ h t hWoken) hNot

/-- A woken consumer remains one until it tests the predicate or takes a value. -/
theorem woken_effect (h : Woken s) (hInv : Inv s l) (he : Effect s t s') : Woken s' := by
  -- the other threads
  have hOther : ∀ u, u ≠ t → s.woken u = true → (u ∉ s.waiting → u ∉ s'.waiting) →
      Rechecks s' u (s'.pc u) := by
    intro u hut hWoken hOut
    rw [pc_frame he hut]
    exact (h u hWoken).frame (memory_frame hInv he hut).1 hOut
  -- the steps that wake nobody
  have hStay : s'.woken = s.woken → (∀ u, u ≠ t → u ∉ s.waiting → u ∉ s'.waiting) →
      (s.woken t = true → Rechecks s' t (s'.pc t)) → Woken s' := by
    intro hWoken hOut hOwn u hu
    rw [hWoken] at hu
    by_cases hut : u = t
    · subst hut
      exact hOwn hu
    · exact hOther u hut hu (hOut u hut)
  -- those of a thread that is not on its way
  have hNot : ∀ {pc : Pc (Numbered α)}, s.pc t = pc → (¬ Rechecks s t pc) →
      s'.woken = s.woken → s'.waiting = s.waiting → Woken s' := by
    intro pc hpc hNone hWoken hWaiting
    refine hStay hWoken (fun u _ => by rw [hWaiting]; exact id) ?_
    intro ht
    rw [h.not_woken hpc hNone] at ht
    cases ht
  have hHere : ∀ pc : Pc (Numbered α), Function.update s.pc t pc t = pc :=
    fun pc => Function.update_self ..
  cases he with
  | @quiet pc hQuiet =>
    refine hStay rfl (fun _ _ => id) ?_
    intro ht
    show Rechecks _ t (Function.update s.pc t pc t)
    rw [hHere]
    exact (hQuiet.rechecks (h t ht)).frame (fun _ => rfl) id
  | callPush hpc => exact hNot hpc id rfl rfl
  | wake hMem =>
    intro u hu
    by_cases hut : u = t
    · subst hut
      obtain ⟨o, hpc⟩ := hInv.waiting.blocked u hMem
      show Rechecks _ u (s.pc u)
      rw [hpc]
      exact hInv.waiting.nodup.not_mem_erase
    · replace hu : Function.update s.woken t true u = true := hu
      rw [Function.update_of_ne hut] at hu
      exact hOther u hut hu fun hOut hMem' => hOut (List.mem_of_mem_erase hMem')
  | headLock hpc hFree =>
    refine hStay rfl (fun _ _ => id) ?_
    intro ht
    have hOld := h t ht
    rw [hpc] at hOld
    show Rechecks _ t (Function.update s.pc t _ t)
    rw [hHere]
    exact hOld
  | headUnlock hUnlock => exact hNot rfl hUnlock.not_rechecks rfl rfl
  | @tailLock pc hLock hFree =>
    refine hStay rfl (fun _ _ => id) ?_
    intro ht
    show Rechecks _ t (Function.update s.pc t pc t)
    rw [hHere]
    exact (hLock.rechecks (h t ht)).frame (fun _ => rfl) id
  | getUnlock hpc =>
    refine hStay rfl (fun _ _ => id) ?_
    intro ht
    have hOld := h t ht
    rw [hpc] at hOld
    show Rechecks _ t (Function.update s.pc t _ t)
    rw [hHere]
    exact hOld
  | @getRead c hpc =>
    intro u hu
    replace hu : Function.update s.woken t (s.woken t && decide (s.head ≠ s.tail)) u = true := hu
    by_cases hut : u = t
    · subst hut
      rw [Function.update_self, Bool.and_eq_true] at hu
      have hOld := h u hu.1
      rw [hpc] at hOld
      show Rechecks _ u (Function.update s.pc u _ u)
      rw [hHere]
      exact ⟨hOld, of_decide_eq_true hu.2⟩
    · rw [Function.update_of_ne hut] at hu
      exact hOther u hut hu id
  | waitBlock hpc =>
    refine hStay rfl ?_ ?_
    · intro u hut hOut hMem
      rcases List.mem_append.mp hMem with hMem | hMem
      · exact hOut hMem
      · exact hut (List.mem_singleton.mp hMem)
    · intro ht
      rw [h.not_woken hpc id] at ht
      cases ht
  | alloc hpc hZero hFree => exact hNot hpc id rfl rfl
  | pushData hpc => exact hNot hpc id rfl rfl
  | pushNext hpc => exact hNot hpc id rfl rfl
  | pushTail hpc => exact hNot hpc id rfl rfl
  | pushUnlock hpc => exact hNot hpc id rfl rfl
  | notifyNone hpc hEmpty => exact hNot hpc id rfl rfl
  | @notify v hpc hMem =>
    obtain ⟨o, hpcV⟩ := hInv.waiting.blocked v hMem
    have hvt : v ≠ t := by
      rintro rfl
      rw [hpc] at hpcV
      cases hpcV
    have hOut : ∀ {u}, u ∉ s.waiting → u ∉ s.waiting.erase v :=
      fun hOut hMem' => hOut (List.mem_of_mem_erase hMem')
    intro u hu
    replace hu : Function.update s.woken v true u = true := hu
    by_cases huv : u = v
    · subst huv
      show Rechecks _ u (Function.update s.pc t _ u)
      rw [Function.update_of_ne hvt, hpcV]
      exact hInv.waiting.nodup.not_mem_erase
    · rw [Function.update_of_ne huv] at hu
      have hut : u ≠ t := by
        rintro rfl
        rw [h.not_woken hpc id] at hu
        cases hu
      exact hOther u hut hu hOut
  | popMove hpc =>
    intro u hu
    replace hu : Function.update s.woken t false u = true := hu
    by_cases hut : u = t
    · rw [hut, Function.update_self] at hu
      cases hu
    · rw [Function.update_of_ne hut] at hu
      exact hOther u hut hu id
  | popNext hpc => exact hNot hpc id rfl rfl
  | popHead hpc => exact hNot hpc id rfl rfl
  | popDelete hpc => exact hNot hpc id rfl rfl

-- ---------------------------------------------------------------------------
-- The budget of wake-ups
-- ---------------------------------------------------------------------------

/-- When the calls of `push` that are about to notify do not cover the blocked consumers,
they and the woken consumers cover the values. -/
def Budget (s : State τ α) : Prop :=
  s.notifies < s.waiting.length → s.stored ≤ s.notifies + s.wokens

/-- Only finitely many threads are counted. -/
structure Counted (s : State τ α) : Prop where
  notifies : {t | Notifying (s.pc t)}.Finite
  wokens : {t | s.woken t = true}.Finite

/-- A step changes each count by one at most. -/
theorem counted_effect (h : Counted s) (he : Effect s t s') : Counted s' := by
  have hPc : ∀ pc : Pc (Numbered α), {u | Notifying (Function.update s.pc t pc u)}.Finite :=
    fun pc => finite_update (p := Notifying) h.notifies
  have hWoken : ∀ v b, {u | Function.update s.woken v b u = true}.Finite :=
    fun v b => finite_update (p := fun b => b = true) h.wokens
  cases he with
  | wake hMem => exact ⟨h.notifies, hWoken _ _⟩
  | getRead hpc => exact ⟨hPc _, hWoken _ _⟩
  | notify hpc hMem => exact ⟨hPc _, hWoken _ _⟩
  | popMove hpc => exact ⟨hPc _, hWoken _ _⟩
  | _ => exact ⟨hPc _, h.wokens⟩

/-- Steps outside the end of `push` leave the notifications. -/
theorem notifies_keep (hPc : s'.pc = Function.update s.pc t pc)
    (hKeep : pc.notifying = (s.pc t).notifying) : s'.notifies = s.notifies := by
  rw [State.notifies, hPc]
  exact count_update_of_iff (p := Notifying) (iff_of_eq (congrArg (fun b => b = true) hKeep))

/-- A thread leaves the list of `data_cond`. -/
theorem wokens_wake (hFin : {t | s.woken t = true}.Finite) (hAsleep : s.woken u = false) :
    count (fun b => b = true) (Function.update s.woken u true) = s.wokens + 1 := by
  refine count_update_enter (p := fun b => b = true) hFin ?_ rfl
  rw [hAsleep]
  exact fun hEq => by cases hEq

/-- Waking takes one thread off the waiting ones. -/
theorem length_wake (hMem : u ∈ s.waiting) : (s.waiting.erase u).length + 1 = s.waiting.length := by
  have hPos := List.length_pos_of_mem hMem
  rw [List.length_erase_of_mem hMem]
  omega

omit [DecidableEq τ] in
/-- Quiet accesses are not the notification, -/
theorem Quiet.notifying {pc pc' : Pc (Numbered α)} (h : Quiet s t pc pc') :
    pc'.notifying = pc.notifying := by
  cases h <;> rfl

/-- nor is the unlocking of `head_mutex`, -/
theorem HeadUnlock.notifying {pc pc' : Pc (Numbered α)} (h : HeadUnlock pc pc') :
    pc'.notifying = pc.notifying := by
  cases h <;> rfl

/-- nor the locking of `tail_mutex`. -/
theorem TailLock.notifying {pc pc' : Pc (Numbered α)} (h : TailLock pc pc') :
    pc'.notifying = pc.notifying := by
  cases h <;> rfl

/-- The step of a `push` that ends its call. -/
theorem notifies_end (hFin : {t | (s.pc t).notifying = true}.Finite) (hpc : s.pc t = .pushNotify)
    (hPc : s'.pc = Function.update s.pc t (.idle (some .pushed))) :
    s'.notifies + 1 = s.notifies := by
  rw [State.notifies, State.notifies, hPc]
  refine count_update_leave (p := Notifying) hFin ?_ fun hEq => by cases hEq
  show (s.pc t).notifying = true
  rw [hpc]
  rfl

/-- Each step keeps the budget: the values in the list are covered by notifications to come and
by woken consumers, or everybody who waits is going to be notified. The condition is needed for
the blocking step alone. -/
theorem budget_effect (h : Budget s) (hCounted : Counted s) (hWoken : Woken s) (hInv : Inv s l)
    (hCovered : ∀ o, s.pc t = .waitBlock o →
      s.waiting.length + 1 ≤ s.notifies ∨ s.stored ≤ s.notifies + s.wokens)
    (he : Effect s t s') : Budget s' := by
  have hLength := hInv.nodes.length_eq
  -- the steps that change nothing of it
  have hKeep : ∀ {s₁ : State τ α} {pc pc' : Pc (Numbered α)}, s.pc t = pc →
      s₁.pc = Function.update s.pc t pc' → pc'.notifying = pc.notifying → s₁.woken = s.woken →
      s₁.waiting = s.waiting → s₁.pushed = s.pushed → s₁.popped = s.popped → Budget s₁ := by
    intro s₁ pc pc' hpc hPc hSame hWoken₁ hWaiting hPushed hPopped
    rw [Budget, notifies_keep hPc (hpc ▸ hSame), hWaiting, State.wokens, hWoken₁, State.stored,
      hPushed, hPopped]
    exact h
  cases he with
  | quiet hQuiet => exact hKeep rfl rfl hQuiet.notifying rfl rfl rfl rfl
  | callPush hpc => exact hKeep hpc rfl rfl rfl rfl rfl rfl
  | wake hMem =>
    show s.notifies < (s.waiting.erase t).length → s.stored ≤ s.notifies +
      count (fun b => b = true) (Function.update s.woken t true)
    rw [wokens_wake hCounted.wokens (hWoken.asleep hInv.waiting hMem)]
    have hOne := length_wake hMem
    unfold Budget at h
    omega
  | headLock hpc hFree => exact hKeep hpc rfl rfl rfl rfl rfl rfl
  | headUnlock hUnlock => exact hKeep rfl rfl hUnlock.notifying rfl rfl rfl rfl
  | tailLock hLock hFree => exact hKeep rfl rfl hLock.notifying rfl rfl rfl rfl
  | getUnlock hpc => exact hKeep hpc rfl rfl rfl rfl rfl rfl
  | @getRead c hpc =>
    have hEmpty := hInv.nodes.empty_iff hInv.locks (t := t) (by rw [hpc]; rfl) (by rw [hpc]; rfl)
    have hSame : ((s.readTail t).setPc t (.getUnlock c s.tail)).notifies = s.notifies :=
      notifies_keep (t := t) rfl (by rw [hpc]; rfl)
    rw [Budget, hSame]
    show s.notifies < s.waiting.length → s.stored ≤ s.notifies + count (fun b => b = true)
      (Function.update s.woken t (s.woken t && decide (s.head ≠ s.tail)))
    by_cases hEq : s.head = s.tail
    · -- it found the queue empty
      have hStored : s.stored = 0 := by
        rw [State.stored, hEmpty.mp hEq, Nat.sub_self]
      omega
    · have hNe : decide (s.head ≠ s.tail) = true := decide_eq_true hEq
      rw [hNe, Bool.and_true, Function.update_eq_self]
      exact h
  | @waitBlock o hpc =>
    have hSame : State.notifies { s.setPc t (.blocked o) with
        headMutex := none, waiting := s.waiting ++ [t] } = s.notifies :=
      notifies_keep (t := t) rfl (by rw [hpc]; rfl)
    rw [Budget, hSame]
    show s.notifies < (s.waiting ++ [t]).length → s.stored ≤ s.notifies + s.wokens
    rw [List.length_append, List.length_singleton]
    have hCase := hCovered o hpc
    omega
  | alloc hpc hZero hFree => exact hKeep hpc rfl rfl rfl rfl rfl rfl
  | pushData hpc => exact hKeep hpc rfl rfl rfl rfl rfl rfl
  | pushNext hpc => exact hKeep hpc rfl rfl rfl rfl rfl rfl
  | @pushTail data p hpc =>
    have hMore : ((s.assignTail data p).setPc t .pushUnlock).notifies = s.notifies + 1 := by
      refine count_update_enter (p := Notifying) hCounted.notifies ?_ rfl
      show ¬ (s.pc t).notifying = true
      rw [hpc]
      exact fun hEq => by cases hEq
    rw [Budget, hMore]
    show s.notifies + 1 < s.waiting.length →
      (s.pushed ++ [data]).length - s.popped.length ≤ s.notifies + 1 + s.wokens
    rw [List.length_append, List.length_singleton]
    unfold Budget State.stored at h
    omega
  | pushUnlock hpc => exact hKeep hpc rfl rfl rfl rfl rfl rfl
  | notifyNone hpc hEmpty =>
    show _ < s.waiting.length → _
    rw [hEmpty]
    exact fun hLt => absurd hLt (Nat.not_lt_zero _)
  | @notify v hpc hMem =>
    have hLess : ((s.wake v).setPc t (.idle (some .pushed))).notifies + 1 = s.notifies :=
      notifies_end hCounted.notifies hpc rfl
    have hMore : ((s.wake v).setPc t (.idle (some .pushed))).wokens = s.wokens + 1 :=
      wokens_wake hCounted.wokens (hWoken.asleep hInv.waiting hMem)
    have hOne := length_wake hMem
    rw [Budget, hMore]
    show _ < (s.waiting.erase v).length → s.stored ≤ _
    unfold Budget at h
    omega
  | @popMove c out hpc =>
    have hSame : ((s.moveHead t).setPc t (.popNext s.head out)).notifies = s.notifies :=
      notifies_keep (t := t) rfl (by rw [hpc]; rfl)
    rw [Budget, hSame]
    show s.notifies < s.waiting.length →
      s.pushed.length - (s.popped ++ (s.data s.head).toList).length ≤ s.notifies +
        count (fun b => b = true) (Function.update s.woken t false)
    have hOk := hInv.nodes.pcs t
    rw [hpc] at hOk
    obtain ⟨v, hv⟩ := Option.isSome_iff_exists.mp (hInv.nodes.data_isSome hOk.2.1.1)
    rw [hv, Option.toList_some, List.length_append, List.length_singleton]
    have hLeave : s.wokens ≤ count (fun b => b = true) (Function.update s.woken t false) + 1 :=
      count_le_update_succ hCounted.wokens
    unfold Budget State.stored at h
    omega
  | popNext hpc => exact hKeep hpc rfl rfl rfl rfl rfl rfl
  | popHead hpc => exact hKeep hpc rfl rfl rfl rfl rfl rfl
  | popDelete hpc => exact hKeep hpc rfl rfl rfl rfl rfl rfl

-- ---------------------------------------------------------------------------
-- Runs
-- ---------------------------------------------------------------------------

section

omit [DecidableEq τ]

/-- Nobody was woken, -/
theorem woken_init : Woken (init τ α) := by
  intro t ht
  cases ht

/-- nothing has to be counted, -/
theorem counted_init : Counted (init τ α) := by
  refine ⟨?_, ?_⟩
  · show {t : τ | (Pc.idle none : Pc (Numbered α)).notifying = true}.Finite
    simp [Pc.notifying]
  · show {t : τ | false = true}.Finite
    simp

/-- and nothing is in the list. -/
theorem budget_init : Budget (init τ α) :=
  fun hLt => absurd hLt (Nat.not_lt_zero _)

/-- A lost wake-up is what the budget excludes. -/
theorem Budget.not_lost (h : Budget s) : ¬ LostWakeUp s := by
  rintro ⟨hStored, hNotifies, hWokens, hWaiting⟩
  have hNone : s.notifies = 0 := by
    refine count_eq_zero (p := Notifying) ?_
    exact fun t ht => Bool.noConfusion ((hNotifies t).symm.trans ht)
  have hNone' : s.wokens = 0 := by
    refine count_eq_zero (p := fun b => b = true) ?_
    exact fun t ht => Bool.noConfusion ((hWokens t).symm.trans ht)
  have hPos := List.length_pos_of_ne_nil hWaiting
  unfold Budget at h
  omega

end

/-- What holds in every run. -/
theorem counted_reachable (h : (system τ α).Reachable s) : Woken s ∧ Counted s := by
  refine h.invariant (I := fun s => Woken s ∧ Counted s) ⟨woken_init, counted_init⟩ ?_
  rintro s a s' hReach ⟨hWoken, hCounted⟩ - hst
  obtain ⟨l, hInv⟩ := inv_reachable hReach
  have he := step_effect hst
  exact ⟨woken_effect hWoken hInv he, counted_effect hCounted he⟩

/-- The run lemma. -/
theorem budget_reachable (h : (system τ α).ReachableWhere Covered s) : Budget s := by
  have hInit : Budget (system τ α).init := budget_init
  refine h.invariant (I := Budget) hInit ?_
  intro s a s' hReach hBudget hCovered hst
  obtain ⟨l, hInv⟩ := inv_reachable hReach
  obtain ⟨hWoken, hCounted⟩ := counted_reachable hReach.reachable
  exact budget_effect hBudget hCounted hWoken hInv hCovered (step_effect hst)

/-- **No wake-up is lost** in the runs whose blocking steps are covered, for any number of
threads; the woken consumers that the statement counts are all on their way to the predicate or
to the head. What the condition excludes is a consumer that blocks after a `push` has notified,
as `push` notifies without the mutex of the predicate. -/
theorem waiters_covered (h : (system τ α).ReachableWhere Covered s) :
    ¬ LostWakeUp s ∧ ∀ t, s.woken t = true → Rechecks s t (s.pc t) := by
  exact ⟨(budget_reachable h).not_lost, (counted_reachable h.reachable).1⟩

/-- Blocking on an empty queue is covered. -/
def blocksEmpty (s : State τ α) (a : Action τ α) : Bool :=
  match s.pc a.thread with
  | .waitBlock _ => decide (s.stored = 0)
  | _ => true

omit [DecidableEq τ] in
/-- What is evaluated is enough for the condition. -/
theorem covered_of_blocksEmpty (h : blocksEmpty s a = true) : Covered s a := by
  intro o hpc
  simp only [blocksEmpty, hpc] at h
  have hStored := of_decide_eq_true h
  omega

/-- Two consumers block, one `push` has notified and the other one not yet: one consumer is
on its way, the other one is blocked and the queue is not empty. -/
theorem waiters_covered_two :
    ∃ s : State (Fin 3) Nat, (system (Fin 3) Nat).ReachableWhere Covered s ∧
      s.stored = 2 ∧ s.waiting = [1] ∧ s.woken 0 = true ∧ s.pc 2 = .pushNotify ∧
      ¬ LostWakeUp s ∧ ∀ t, s.woken t = true → Rechecks s t (s.pc t) := by
  obtain ⟨s, hs, hStored, hWaiting, hWoken, hpc⟩ :=
    System.exists_reachableWhere_of_exec (S := system (Fin 3) Nat)
    (p := fun s => s.stored = 2 ∧ s.waiting = [1] ∧ s.woken 0 = true ∧ s.pc 2 = .pushNotify)
    (c := blocksEmpty) (fun _ _ => covered_of_blocksEmpty)
    ([Action.call 0 (.waitAndPop .value)] ++ List.replicate 6 (Action.run 0 0 0) ++
      [Action.call 1 (.waitAndPop .value)] ++ List.replicate 6 (Action.run 1 0 0) ++
      [Action.callPush 2 7] ++ List.replicate 7 (Action.run 2 2 0) ++ [Action.callPush 2 8] ++
      List.replicate 6 (Action.run 2 3 0))
    (by decide +kernel)
  exact ⟨s, hs, hStored, hWaiting, hWoken, hpc, waiters_covered hs⟩

-- ---------------------------------------------------------------------------
-- The defect
-- ---------------------------------------------------------------------------

/-- Thread 0 finds the queue empty; before it blocks, thread 1 pushes and notifies. Thread 0
blocks with a value in the queue, and nobody else is running. -/
theorem wake_up_lost :
    ∃ s : State (Fin 2) Nat, (system (Fin 2) Nat).Reachable s ∧ LostWakeUp s ∧
      s.headMutex = none ∧ s.tailMutex = none ∧ s.pc 0 = .blocked .pointer ∧
      s.pc 1 = .idle (some .pushed) := by
  exact System.exists_reachable_of_exec (S := system (Fin 2) Nat)
    ([Action.call 0 (.waitAndPop .pointer)] ++ List.replicate 5 (Action.run 0 0 0) ++
      [Action.callPush 1 7] ++ List.replicate 7 (Action.run 1 2 0) ++ [Action.run 0 0 0])
    (by decide +kernel)

-- ---------------------------------------------------------------------------
-- The condition is exact
-- ---------------------------------------------------------------------------

/-- More consumers are blocked than calls of `push` are about to notify, and more values
stored than these calls and the woken consumers account for. -/
def Stranded (s : State τ α) : Prop :=
  s.notifies < s.waiting.length ∧ s.notifies + s.wokens < s.stored

omit [DecidableEq τ] in
/-- With no notification and no woken consumer left, this is a lost wake-up. -/
theorem Stranded.lost (h : Stranded s) (hNotifies : ∀ t, (s.pc t).notifying = false)
    (hWokens : ∀ t, s.woken t = false) : LostWakeUp s := by
  obtain ⟨hWaiting, hStored⟩ := h
  refine ⟨by omega, hNotifies, hWokens, ?_⟩
  intro hNil
  rw [hNil] at hWaiting
  exact absurd hWaiting (Nat.not_lt_zero _)

/-- A blocking step that is not covered strands values. -/
theorem stranded_of_uncovered {o : Overload} {fresh pick : Nat} (hpc : s.pc t = .waitBlock o)
    (h : ¬ Covered s (.run t fresh pick)) (hst : run s t fresh pick = some s') : Stranded s' := by
  have hBoth : s.notifies < s.waiting.length + 1 ∧ s.notifies + s.wokens < s.stored := by
    by_contra hNot
    refine h fun _ _ => ?_
    omega
  simp only [run, hpc] at hst
  cases hst
  have hSame : State.notifies { s.setPc t (.blocked o) with
      headMutex := none, waiting := s.waiting ++ [t] } = s.notifies :=
    notifies_keep (t := t) rfl (by rw [hpc]; rfl)
  rw [Stranded, hSame]
  show s.notifies < (s.waiting ++ [t]).length ∧ s.notifies + s.wokens < s.stored
  rw [List.length_append, List.length_singleton]
  exact hBoth

/-- Only a further `push`, a pop by a consumer that was not woken, or a spurious wake-up
changes that. -/
theorem stranded_step {fresh pick : Nat} (h : Stranded s) (hReach : (system τ α).Reachable s)
    (hPush : ∀ data p, s.pc t ≠ .pushTail data p)
    (hPop : ∀ c out, s.pc t = .popMove c out → s.woken t = true)
    (hst : run s t fresh pick = some s') : Stranded s' := by
  obtain ⟨hWaiting, hStored⟩ := h
  obtain ⟨l, hInv⟩ := inv_reachable hReach
  obtain ⟨hWoken, hCounted⟩ := counted_reachable hReach
  have hKeep : ∀ {s₁ : State τ α} {pc pc' : Pc (Numbered α)}, s.pc t = pc →
      s₁.pc = Function.update s.pc t pc' → pc'.notifying = pc.notifying → s₁.woken = s.woken →
      s₁.waiting = s.waiting → s₁.pushed = s.pushed → s₁.popped = s.popped → Stranded s₁ := by
    intro s₁ pc pc' hpc hPc hSame hWoken₁ hWaiting₁ hPushed hPopped
    rw [Stranded, notifies_keep hPc (hpc ▸ hSame), hWaiting₁, State.wokens, hWoken₁, State.stored,
      hPushed, hPopped]
    exact ⟨hWaiting, hStored⟩
  have he := run_effect hst
  cases he with
  | quiet hQuiet => exact hKeep rfl rfl hQuiet.notifying rfl rfl rfl rfl
  | callPush hpc => exact absurd hpc (run_not_idle hst)
  | wake hMem =>
    obtain ⟨o, hpc⟩ := hInv.waiting.blocked t hMem
    simp [run, hpc, hMem] at hst
  | headLock hpc hFree => exact hKeep hpc rfl rfl rfl rfl rfl rfl
  | headUnlock hUnlock => exact hKeep rfl rfl hUnlock.notifying rfl rfl rfl rfl
  | tailLock hLock hFree => exact hKeep rfl rfl hLock.notifying rfl rfl rfl rfl
  | getUnlock hpc => exact hKeep hpc rfl rfl rfl rfl rfl rfl
  | @getRead c hpc =>
    have hEmpty := hInv.nodes.empty_iff hInv.locks (t := t) (by rw [hpc]; rfl) (by rw [hpc]; rfl)
    have hNe : s.head ≠ s.tail := by
      intro hEq
      rw [State.stored, hEmpty.mp hEq, Nat.sub_self] at hStored
      exact absurd hStored (Nat.not_lt_zero _)
    refine hKeep hpc rfl rfl ?_ rfl rfl rfl
    show Function.update s.woken t (s.woken t && decide (s.head ≠ s.tail)) = s.woken
    rw [decide_eq_true hNe, Bool.and_true, Function.update_eq_self]
  | @waitBlock o hpc =>
    have hSame : State.notifies { s.setPc t (.blocked o) with
        headMutex := none, waiting := s.waiting ++ [t] } = s.notifies :=
      notifies_keep (t := t) rfl (by rw [hpc]; rfl)
    rw [Stranded, hSame]
    show s.notifies < (s.waiting ++ [t]).length ∧ s.notifies + s.wokens < s.stored
    rw [List.length_append, List.length_singleton]
    exact ⟨Nat.lt_succ_of_lt hWaiting, hStored⟩
  | alloc hpc hZero hFree => exact hKeep hpc rfl rfl rfl rfl rfl rfl
  | pushData hpc => exact hKeep hpc rfl rfl rfl rfl rfl rfl
  | pushNext hpc => exact hKeep hpc rfl rfl rfl rfl rfl rfl
  | pushTail hpc => exact absurd hpc (hPush _ _)
  | pushUnlock hpc => exact hKeep hpc rfl rfl rfl rfl rfl rfl
  | notifyNone hpc hEmpty =>
    rw [hEmpty] at hWaiting
    exact absurd hWaiting (Nat.not_lt_zero _)
  | @notify v hpc hMem =>
    have hLess : ((s.wake v).setPc t (.idle (some .pushed))).notifies + 1 = s.notifies :=
      notifies_end hCounted.notifies hpc rfl
    have hMore : ((s.wake v).setPc t (.idle (some .pushed))).wokens = s.wokens + 1 :=
      wokens_wake hCounted.wokens (hWoken.asleep hInv.waiting hMem)
    have hOne := length_wake hMem
    rw [Stranded, hMore]
    show _ < (s.waiting.erase v).length ∧ _ < s.stored
    omega
  | @popMove c out hpc =>
    have hSame : ((s.moveHead t).setPc t (.popNext s.head out)).notifies = s.notifies :=
      notifies_keep (t := t) rfl (by rw [hpc]; rfl)
    have hOk := hInv.nodes.pcs t
    rw [hpc] at hOk
    obtain ⟨v, hv⟩ := Option.isSome_iff_exists.mp (hInv.nodes.data_isSome hOk.2.1.1)
    have hLeave : count (fun b => b = true) (Function.update s.woken t false) + 1 = s.wokens :=
      count_update_leave hCounted.wokens (hPop c out hpc) fun hEq => by cases hEq
    rw [Stranded, hSame]
    show s.notifies < s.waiting.length ∧ s.notifies +
      count (fun b => b = true) (Function.update s.woken t false) <
        s.pushed.length - (s.popped ++ (s.data s.head).toList).length
    rw [hv, Option.toList_some, List.length_append, List.length_singleton]
    unfold State.stored at hStored
    omega
  | popNext hpc => exact hKeep hpc rfl rfl rfl rfl rfl rfl
  | popHead hpc => exact hKeep hpc rfl rfl rfl rfl rfl rfl
  | popDelete hpc => exact hKeep hpc rfl rfl rfl rfl rfl rfl

end EmbLinux.DesignLockBase.Queue
