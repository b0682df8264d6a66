import EmbLinux.Lib.System
import EmbLinux.Lib.Update
import Mathlib.Data.List.Induction
import Mathlib.Data.List.Nodup

/-!
# EmbLinux — linearizable objects

Threads call operations of a shared object; a `Record` is what they see of it, the
calls and the answers in the order in which they happen. The object is linearizable
if each such history can be explained by a sequential one: the operations, one after
the other, with the answers that a sequential `Object` gives, in an order that keeps
an operation that was answered before another one was called in front of it. An
operation that is not answered yet may be in the sequential order or not.

* `Object.atomic` is the machine in which each operation takes effect in one step
  between its call and its answer; `Object.explained` says that its histories are
  linearizable, the order being that of the effects.
* `System.recorded` adds the record to a system, and `recorded_linearizable` is the
  rule for it: each step is matched by effects of running operations (`Moves`).
-/

namespace EmbLinux

/-- A sequential object: what each operation does, and its answer. -/
structure Object (ο ρ σ : Type*) where
  init : σ
  apply : σ → ο → σ × ρ

/-- Calls are numbered. -/
inductive Event (ο ρ : Type*)
  | call (id : Nat) (op : ο)
  | ret (id : Nat) (result : ρ)
  deriving DecidableEq

/-- An operation in a sequential order. -/
structure Entry (ο ρ : Type*) where
  id : Nat
  op : ο
  result : ρ

namespace Object

variable {ο ρ σ : Type*}

/-- The object after these operations. -/
def after (O : Object ο ρ σ) (log : List (Entry ο ρ)) : σ :=
  log.foldl (fun q e => (O.apply q e.op).1) O.init

/-- Each answer is the one that the object gives. -/
def Legal (O : Object ο ρ σ) (log : List (Entry ο ρ)) : Prop :=
  ∀ before e rest, log = before ++ e :: rest → e.result = (O.apply (O.after before) e.op).2

/-- The sequential order `log` explains the history. -/
structure Explains (O : Object ο ρ σ) (log : List (Entry ο ρ)) (history : List (Event ο ρ)) :
    Prop where
  /-- It is an order of the object, -/
  legal : O.Legal log
  once : (log.map Entry.id).Nodup
  /-- of operations that were called, each once, -/
  called : ∀ e ∈ log, .call e.id e.op ∈ history
  /-- in which every answer was given. -/
  answered : ∀ id result, .ret id result ∈ history → ∃ e ∈ log, e.id = id ∧ e.result = result
  /-- What was answered before another operation was called stands in front of it. -/
  realTime : ∀ id result id' op, [.ret id result, .call id' op].Sublist history →
    ∀ e' ∈ log, e'.id = id' → ∃ e, e.id = id ∧ [e, e'].Sublist log

/-- An entry of the order is known by its number. -/
theorem Explains.eq_of_id {O : Object ο ρ σ} {log : List (Entry ο ρ)}
    {history : List (Event ο ρ)} (h : O.Explains log history) {e e' : Entry ο ρ} (he : e ∈ log)
    (he' : e' ∈ log) (hId : e.id = e'.id) : e = e' :=
  List.inj_on_of_nodup_map h.once he he' hId

/-- Some sequential order explains the history. -/
def Linearizable (O : Object ο ρ σ) (history : List (Event ο ρ)) : Prop :=
  ∃ log, O.Explains log history

end Object

-- ---------------------------------------------------------------------------
-- Records
-- ---------------------------------------------------------------------------

/-- The history so far, with the number of the last call of each thread. -/
structure Record (τ ο ρ : Type*) where
  history : List (Event ο ρ)
  current : τ → Nat
  calls : Nat

/-- Where a thread stands: it has called an operation that has no effect yet, or one
that has its result. -/
inductive Stage (ο ρ : Type*)
  | idle
  | pending (op : ο)
  | done (result : ρ)

section Records

variable {τ ο ρ : Type*} [DecidableEq τ]

/-- Nothing has been called. -/
def Record.empty : Record τ ο ρ where
  history := []
  current := fun _ => 0
  calls := 0

/-- A call gets the next number, -/
def Record.call (r : Record τ ο ρ) (t : τ) (op : ο) : Record τ ο ρ where
  history := r.history ++ [.call r.calls op]
  current := Function.update r.current t r.calls
  calls := r.calls + 1

/-- and an answer is that of the call that the thread is in. -/
def Record.ret (r : Record τ ο ρ) (t : τ) (result : ρ) : Record τ ο ρ :=
  { r with history := r.history ++ [.ret (r.current t) result] }

end Records

-- ---------------------------------------------------------------------------
-- The atomic machine
-- ---------------------------------------------------------------------------

/-- The object, where each thread stands, and what was seen. -/
structure Atomic (τ ο ρ σ : Type*) where
  object : σ
  stage : τ → Stage ο ρ
  record : Record τ ο ρ

/-- A call, its effect, and its answer. -/
inductive Atomic.Action (τ ο : Type*)
  | call (t : τ) (op : ο)
  | effect (t : τ)
  | ret (t : τ)

section

variable {τ ο ρ σ : Type*} [DecidableEq τ]

/-- The effect comes after the call, and the answer after the effect. -/
def Atomic.step (O : Object ο ρ σ) (x : Atomic τ ο ρ σ) :
    Atomic.Action τ ο → Option (Atomic τ ο ρ σ)
  | .call t op =>
    match x.stage t with
    | .idle =>
      some { x with
        stage := Function.update x.stage t (.pending op)
        record := x.record.call t op }
    | _ => none
  | .effect t =>
    match x.stage t with
    | .pending op =>
      some { x with
        object := (O.apply x.object op).1
        stage := Function.update x.stage t (.done (O.apply x.object op).2) }
    | _ => none
  | .ret t =>
    match x.stage t with
    | .done result =>
      some { x with
        stage := Function.update x.stage t .idle
        record := x.record.ret t result }
    | _ => none

/-- Each operation takes effect at one moment between its call and its answer. -/
def Object.atomic (O : Object ο ρ σ) (τ : Type*) [DecidableEq τ] :
    System (Atomic τ ο ρ σ) (Atomic.Action τ ο) where
  init := ⟨O.init, fun _ => .idle, .empty⟩
  step := Atomic.step O

-- ---------------------------------------------------------------------------
-- Its histories are linearizable
-- ---------------------------------------------------------------------------

variable {O : Object ο ρ σ}

/-- One more operation changes the object once more, -/
theorem Object.after_concat (log : List (Entry ο ρ)) (e : Entry ο ρ) :
    O.after (log ++ [e]) = (O.apply (O.after log) e.op).1 := by
  rw [after, List.foldl_append]
  rfl

/-- and is legal with the answer that the object gives then. -/
theorem Object.Legal.concat {log : List (Entry ο ρ)} (h : O.Legal log) (id : Nat) (op : ο) :
    O.Legal (log ++ [⟨id, op, (O.apply (O.after log) op).2⟩]) := by
  intro before e rest hEq
  rcases List.eq_nil_or_concat rest with rfl | ⟨front, last, rfl⟩
  · obtain ⟨rfl, hLast⟩ := List.append_inj' hEq rfl
    cases hLast
    rfl
  · have hSplit : log ++ [⟨id, op, (O.apply (O.after log) op).2⟩] =
        (before ++ e :: front) ++ [last] := by
      rw [hEq, List.concat_eq_append, List.append_assoc, List.cons_append]
    obtain ⟨hLog, -⟩ := List.append_inj' hSplit rfl
    exact h before e front hLog

/-- The rule for sequential orders: what holds of none and is kept by each operation with
the answer of the object holds of every legal order, with the object after it. -/
theorem Object.Legal.rule {P : List (Entry ο ρ) → σ → Prop} (hNil : P [] O.init)
    (hNext : ∀ log e, P log (O.after log) → e.result = (O.apply (O.after log) e.op).2 →
      P (log ++ [e]) (O.apply (O.after log) e.op).1)
    {log : List (Entry ο ρ)} (h : O.Legal log) : P log (O.after log) := by
  induction log using List.reverseRecOn with
  | nil => exact hNil
  | append_singleton front e ih =>
    have hFront : O.Legal front := by
      intro before e' rest hEq
      exact h before e' (rest ++ [e]) (by rw [hEq, List.append_assoc, List.cons_append])
    rw [Object.after_concat]
    exact hNext front e (ih hFront) (h front e [] rfl)

/-- A pair in a list with one more element at the end. -/
theorem pair_sublist_concat {α : Type*} {a b c : α} {l : List α} :
    [a, b].Sublist (l ++ [c]) ↔ [a, b].Sublist l ∨ (a ∈ l ∧ b = c) := by
  constructor
  · intro h
    obtain ⟨l₁, l₂, hEq, h₁, h₂⟩ := List.sublist_append_iff.mp h
    rcases List.eq_nil_or_concat l₂ with rfl | ⟨front, last, rfl⟩
    · rw [List.append_nil] at hEq
      exact Or.inl (hEq ▸ h₁)
    · have hLength := h₂.length_le
      simp only [List.concat_eq_append, List.length_append, List.length_singleton] at hLength
      obtain rfl : front = [] := List.eq_nil_of_length_eq_zero (by omega)
      have hPair : [a] ++ [b] = l₁ ++ [last] := hEq
      obtain ⟨rfl, hLast⟩ := List.append_inj' hPair rfl
      cases hLast
      refine Or.inr ⟨List.singleton_sublist.mp h₁, ?_⟩
      exact List.mem_singleton.mp (List.singleton_sublist.mp h₂)
  · rintro (h | ⟨ha, rfl⟩)
    · exact h.trans (List.sublist_append_left l [c])
    · exact (List.singleton_sublist.mpr ha).append (List.Sublist.refl [b])

/-- A pair that is in order in a list cuts it in three. -/
theorem split_of_pair {α : Type*} {a b : α} {l : List α} (h : [a, b].Sublist l) :
    ∃ before between rest, l = before ++ a :: (between ++ b :: rest) := by
  obtain ⟨front, back, rfl, hFront, hBack⟩ := List.cons_sublist_iff.mp h
  obtain ⟨before, mid, rfl⟩ := List.append_of_mem hFront
  obtain ⟨mid', rest, rfl⟩ := List.append_of_mem (List.singleton_sublist.mp hBack)
  exact ⟨before, mid ++ mid', rest, by simp⟩

/-- In a list without repetitions, one of two elements comes first. -/
theorem not_sublist_swap {α : Type*} {a b : α} {l : List α} (hNodup : l.Nodup)
    (h : [a, b].Sublist l) : ¬ [b, a].Sublist l := by
  induction l with
  | nil => cases h
  | cons c l ih =>
    obtain ⟨hOut, hNodup⟩ := List.nodup_cons.mp hNodup
    intro h'
    rcases List.sublist_cons_iff.mp h with hl | ⟨r, hEq, hr⟩ <;>
      rcases List.sublist_cons_iff.mp h' with hl' | ⟨r', hEq', hr'⟩
    · exact ih hNodup hl hl'
    · cases hEq'
      exact hOut (hl.subset (List.mem_cons_of_mem _ List.mem_cons_self))
    · cases hEq
      exact hOut (hl'.subset (List.mem_cons_of_mem _ List.mem_cons_self))
    · cases hEq
      cases hEq'
      exact hOut (List.singleton_sublist.mp hr)

/-- What a state of the machine and a sequential order have to do with each other. -/
structure Object.Explained (O : Object ο ρ σ) (x : Atomic τ ο ρ σ) (log : List (Entry ο ρ)) :
    Prop where
  explains : O.Explains log x.record.history
  /-- The object is as the order leaves it. -/
  object : O.after log = x.object
  fresh : ∀ id op, .call id op ∈ x.record.history → id < x.record.calls
  /-- Two operations that run at the same time are two. -/
  current : ∀ t u, x.stage t ≠ .idle → x.stage u ≠ .idle →
    x.record.current t = x.record.current u → t = u
  bound : ∀ t, x.stage t ≠ .idle → x.record.current t < x.record.calls
  /-- A pending operation is not in the order yet, -/
  pending : ∀ t op, x.stage t = .pending op → .call (x.record.current t) op ∈ x.record.history ∧
    ∀ e ∈ log, e.id ≠ x.record.current t
  /-- and one that has taken effect is, with the answer that it will give. -/
  done : ∀ t result, x.stage t = .done result →
    ∃ e ∈ log, e.id = x.record.current t ∧ e.result = result

variable {x : Atomic τ ο ρ σ} {log : List (Entry ο ρ)} {t : τ}

omit [DecidableEq τ] in
/-- The operations of a sequential order have been called. -/
theorem Object.Explained.id_lt (h : O.Explained x log) {e : Entry ο ρ} (he : e ∈ log) :
    e.id < x.record.calls :=
  h.fresh _ _ (h.explains.called e he)

/-- A call explains itself, as it need not be in the order yet. -/
theorem Object.Explained.call (h : O.Explained x log) (hIdle : x.stage t = .idle) (op : ο) :
    O.Explained { x with
      stage := Function.update x.stage t (.pending op)
      record := x.record.call t op } log := by
  have hLt : ∀ e ∈ log, e.id < x.record.calls := fun e he => h.id_lt he
  refine ⟨⟨h.explains.legal, h.explains.once, ?_, ?_, ?_⟩, h.object, ?_, ?_, ?_, ?_, ?_⟩
  · intro e he
    exact List.mem_append_left _ (h.explains.called e he)
  · intro id result hRet
    rcases List.mem_append.mp hRet with hRet | hRet
    · exact h.explains.answered id result hRet
    · cases List.mem_singleton.mp hRet
  · intro id result id' op' hPair e' he' hId
    rcases pair_sublist_concat.mp hPair with hPair | ⟨-, hNew⟩
    · exact h.explains.realTime id result id' op' hPair e' he' hId
    · -- the new call is not in the order
      cases hNew
      exact absurd hId (Nat.ne_of_lt (hLt e' he'))
  · intro id op' hCall
    rcases List.mem_append.mp hCall with hCall | hCall
    · exact Nat.lt_succ_of_lt (h.fresh id op' hCall)
    · cases List.mem_singleton.mp hCall
      exact Nat.lt_succ_self _
  · intro u v hu hv hEq
    replace hEq : Function.update x.record.current t x.record.calls u =
      Function.update x.record.current t x.record.calls v := hEq
    rcases update_at x.stage t (.pending op) u with ⟨hut, -⟩ | ⟨hut, hAtU⟩ <;>
      rcases update_at x.stage t (.pending op) v with ⟨hvt, -⟩ | ⟨hvt, hAtV⟩
    · rw [hut, hvt]
    · rw [hut, Function.update_self, Function.update_of_ne hvt] at hEq
      have hBound := h.bound v (hAtV ▸ hv)
      rw [← hEq] at hBound
      exact absurd hBound (Nat.lt_irrefl _)
    · rw [hvt, Function.update_self, Function.update_of_ne hut] at hEq
      have hBound := h.bound u (hAtU ▸ hu)
      rw [hEq] at hBound
      exact absurd hBound (Nat.lt_irrefl _)
    · rw [Function.update_of_ne hut, Function.update_of_ne hvt] at hEq
      exact h.current u v (hAtU ▸ hu) (hAtV ▸ hv) hEq
  · intro u hu
    show Function.update x.record.current t x.record.calls u < x.record.calls + 1
    rcases update_at x.stage t (.pending op) u with ⟨rfl, -⟩ | ⟨hut, hAt⟩
    · rw [Function.update_self]
      exact Nat.lt_succ_self _
    · rw [Function.update_of_ne hut]
      exact Nat.lt_succ_of_lt (h.bound u (hAt ▸ hu))
  · intro u op' hu
    replace hu : Function.update x.stage t (.pending op) u = .pending op' := hu
    show Event.call (Function.update x.record.current t x.record.calls u) op' ∈ _ ∧
      ∀ e ∈ log, e.id ≠ Function.update x.record.current t x.record.calls u
    rcases update_at x.stage t (.pending op) u with ⟨rfl, hAt⟩ | ⟨hut, hAt⟩ <;> rw [hAt] at hu
    · cases hu
      rw [Function.update_self]
      exact ⟨List.mem_append_right _ List.mem_cons_self, fun e he => Nat.ne_of_lt (hLt e he)⟩
    · rw [Function.update_of_ne hut]
      obtain ⟨hCall, hOut⟩ := h.pending u op' hu
      exact ⟨List.mem_append_left _ hCall, hOut⟩
  · intro u result hu
    replace hu : Function.update x.stage t (.pending op) u = .done result := hu
    show ∃ e ∈ log, e.id = Function.update x.record.current t x.record.calls u ∧ e.result = result
    rcases update_at x.stage t (.pending op) u with ⟨rfl, hAt⟩ | ⟨hut, hAt⟩ <;> rw [hAt] at hu
    · cases hu
    · rw [Function.update_of_ne hut]
      exact h.done u result hu

/-- The operation of `t` comes last in the order now. -/
theorem Object.Explained.effect (h : O.Explained x log) {op : ο}
    (hPending : x.stage t = .pending op) :
    O.Explained { x with
      object := (O.apply x.object op).1
      stage := Function.update x.stage t (.done (O.apply x.object op).2) }
      (log ++ [⟨x.record.current t, op, (O.apply x.object op).2⟩]) := by
  obtain ⟨hCall, hOut⟩ := h.pending t op hPending
  have hNotIdle : x.stage t ≠ .idle := by
    rw [hPending]
    simp
  have hStage : ∀ u, Function.update x.stage t (.done (O.apply x.object op).2) u ≠ .idle →
      x.stage u ≠ .idle := by
    intro u hu
    rcases update_at x.stage t (.done (O.apply x.object op).2) u with ⟨rfl, -⟩ | ⟨-, hAt⟩
    · exact hNotIdle
    · exact hAt ▸ hu
  refine ⟨⟨?_, ?_, ?_, ?_, ?_⟩, ?_, h.fresh, ?_, fun u hu => h.bound u (hStage u hu), ?_, ?_⟩
  · rw [← h.object]
    exact h.explains.legal.concat _ _
  · rw [List.map_append]
    refine List.nodup_append'.mpr ⟨h.explains.once, List.nodup_singleton _, ?_⟩
    intro id hId hNew
    obtain ⟨e, he, rfl⟩ := List.mem_map.mp hId
    exact hOut e he (List.mem_singleton.mp hNew)
  · intro e he
    rcases List.mem_append.mp he with he | he
    · exact h.explains.called e he
    · rw [List.mem_singleton.mp he]
      exact hCall
  · intro id result hRet
    obtain ⟨e, he, hEq⟩ := h.explains.answered id result hRet
    exact ⟨e, List.mem_append_left _ he, hEq⟩
  · intro id result id' op' hPair e' he' hId
    rcases List.mem_append.mp he' with he' | he'
    · obtain ⟨e, hEq, hSub⟩ := h.explains.realTime id result id' op' hPair e' he' hId
      exact ⟨e, hEq, hSub.trans (List.sublist_append_left _ _)⟩
    · -- all that was answered is in the order already
      obtain ⟨e, he, hEq, -⟩ := h.explains.answered id result
        (hPair.subset (List.mem_cons_self ..))
      exact ⟨e, hEq, pair_sublist_concat.mpr (Or.inr ⟨he, List.mem_singleton.mp he'⟩)⟩
  · rw [Object.after_concat, h.object]
  · intro u v hu hv hEq
    exact h.current u v (hStage u hu) (hStage v hv) hEq
  · intro u op' hu
    replace hu : Function.update x.stage t (.done (O.apply x.object op).2) u = .pending op' := hu
    rcases update_at x.stage t (.done (O.apply x.object op).2) u with ⟨rfl, hAt⟩ | ⟨hut, hAt⟩ <;>
      rw [hAt] at hu
    · cases hu
    · obtain ⟨hCall', hOut'⟩ := h.pending u op' hu
      refine ⟨hCall', ?_⟩
      intro e he
      rcases List.mem_append.mp he with he | he
      · exact hOut' e he
      · rw [List.mem_singleton.mp he]
        intro hEq
        exact hut (h.current u t (by rw [hu]; simp) hNotIdle hEq.symm)
  · intro u result hu
    replace hu : Function.update x.stage t (.done (O.apply x.object op).2) u = .done result := hu
    rcases update_at x.stage t (.done (O.apply x.object op).2) u with ⟨rfl, hAt⟩ | ⟨hut, hAt⟩ <;>
      rw [hAt] at hu
    · cases hu
      exact ⟨_, List.mem_append_right _ List.mem_cons_self, rfl, rfl⟩
    · obtain ⟨e, he, hEq⟩ := h.done u result hu
      exact ⟨e, List.mem_append_left _ he, hEq⟩

/-- An answer is the one that the effect has given. -/
theorem Object.Explained.ret (h : O.Explained x log) {result : ρ}
    (hDone : x.stage t = .done result) :
    O.Explained { x with
      stage := Function.update x.stage t .idle
      record := x.record.ret t result } log := by
  have hStage : ∀ u, Function.update x.stage t .idle u ≠ .idle → x.stage u ≠ .idle := by
    intro u hu
    rcases update_at x.stage t .idle u with ⟨rfl, hAt⟩ | ⟨-, hAt⟩
    · exact absurd hAt hu
    · exact hAt ▸ hu
  refine ⟨⟨h.explains.legal, h.explains.once, ?_, ?_, ?_⟩, h.object, ?_, ?_,
    fun u hu => h.bound u (hStage u hu), ?_, ?_⟩
  · intro e he
    exact List.mem_append_left _ (h.explains.called e he)
  · intro id result' hRet
    rcases List.mem_append.mp hRet with hRet | hRet
    · exact h.explains.answered id result' hRet
    · cases List.mem_singleton.mp hRet
      exact h.done t result hDone
  · intro id result' id' op' hPair e' he' hId
    rcases pair_sublist_concat.mp hPair with hPair | ⟨-, hNew⟩
    · exact h.explains.realTime id result' id' op' hPair e' he' hId
    · cases hNew
  · intro id op' hCall
    rcases List.mem_append.mp hCall with hCall | hCall
    · exact h.fresh id op' hCall
    · cases List.mem_singleton.mp hCall
  · intro u v hu hv hEq
    exact h.current u v (hStage u hu) (hStage v hv) hEq
  · intro u op' hu
    replace hu : Function.update x.stage t .idle u = .pending op' := hu
    rcases update_at x.stage t .idle u with ⟨rfl, hAt⟩ | ⟨-, hAt⟩ <;> rw [hAt] at hu
    · cases hu
    · obtain ⟨hCall, hOut⟩ := h.pending u op' hu
      exact ⟨List.mem_append_left _ hCall, hOut⟩
  · intro u result' hu
    replace hu : Function.update x.stage t .idle u = .done result' := hu
    rcases update_at x.stage t .idle u with ⟨rfl, hAt⟩ | ⟨-, hAt⟩ <;> rw [hAt] at hu
    · cases hu
    · exact h.done u result' hu

/-- The order of the effects explains every history of the atomic machine: an induction along
its steps. -/
theorem Object.explained (h : (O.atomic τ).Reachable x) : ∃ log, O.Explained x log := by
  refine h.invariant (I := fun x => ∃ log, O.Explained x log) ?_ ?_
  · refine ⟨[], ⟨?_, List.nodup_nil, ?_, ?_, ?_⟩, rfl, ?_, ?_, ?_, ?_, ?_⟩
    · intro before e rest hEq
      cases before <;> cases hEq
    · exact fun _ he => absurd he List.not_mem_nil
    · exact fun _ _ hRet => absurd hRet List.not_mem_nil
    · exact fun _ _ _ _ _ _ he => absurd he List.not_mem_nil
    · exact fun _ _ hCall => absurd hCall List.not_mem_nil
    · exact fun _ _ hu => absurd rfl hu
    · exact fun _ hu => absurd rfl hu
    · intro u op hu
      cases hu
    · intro u result hu
      cases hu
  · rintro x a x' - ⟨log, hLog⟩ - hst
    cases a with
    | call t op =>
      simp only [Object.atomic, Atomic.step] at hst
      split at hst <;> cases hst
      next hIdle => exact ⟨log, hLog.call hIdle op⟩
    | effect t =>
      simp only [Object.atomic, Atomic.step] at hst
      split at hst <;> cases hst
      next op hPending => exact ⟨_, hLog.effect hPending⟩
    | ret t =>
      simp only [Object.atomic, Atomic.step] at hst
      split at hst <;> cases hst
      next result hDone => exact ⟨log, hLog.ret hDone⟩

-- ---------------------------------------------------------------------------
-- Systems with a record
-- ---------------------------------------------------------------------------

/-- A step that is a call, that answers one, or that does neither. -/
def Record.after (r : Record τ ο ρ) : Option (τ × ο) → Option (τ × ρ) → Record τ ο ρ
  | some (t, op), _ => r.call t op
  | none, some (t, result) => r.ret t result
  | none, none => r

/-- The system with the record of its calls and answers. -/
def System.recorded {α : Type*} {ς : Type*} (S : System ς α) (calls : α → Option (τ × ο))
    (rets : ς → α → ς → Option (τ × ρ)) : System (ς × Record τ ο ρ) α where
  init := (S.init, .empty)
  step := fun x a => (S.step x.1 a).map fun s' => (s', x.2.after (calls a) (rets x.1 a s'))

/-- The record changes nothing of what the system does. -/
theorem recorded_reachable {α ς : Type*} {S : System ς α} {calls : α → Option (τ × ο)}
    {rets : ς → α → ς → Option (τ × ρ)} {ok : ς → α → Prop} {x : ς × Record τ ο ρ}
    (h : (S.recorded calls rets).ReachableWhere (fun x a => ok x.1 a) x) :
    S.ReachableWhere ok x.1 := by
  refine h.invariant (I := fun x => S.ReachableWhere ok x.1) .init ?_
  intro x a x' _ hx hok hst
  simp only [System.recorded, Option.map_eq_some_iff] at hst
  obtain ⟨s', hs', rfl⟩ := hst
  exact .step hx hok hs'

/-- How the stages and the object move in one step of a system: a call, or effects of
running operations and then an answer at most. -/
inductive Moves (O : Object ο ρ σ) : (τ → Stage ο ρ) → σ → Option (τ × ο) → Option (τ × ρ) →
    (τ → Stage ο ρ) → σ → Prop
  | stay {stage : τ → Stage ο ρ} {q : σ} : Moves O stage q none none stage q
  | call {stage : τ → Stage ο ρ} {q : σ} {t : τ} {op : ο} {answer : Option (τ × ρ)} :
      stage t = .idle →
      Moves O stage q (some (t, op)) answer (Function.update stage t (.pending op)) q
  | effect {stage stage' : τ → Stage ο ρ} {q q' : σ} {t : τ} {op : ο} {answer : Option (τ × ρ)} :
      stage t = .pending op →
      Moves O (Function.update stage t (.done (O.apply q op).2)) (O.apply q op).1 none answer
        stage' q' →
      Moves O stage q none answer stage' q'
  | ret {stage : τ → Stage ο ρ} {q : σ} {t : τ} {result : ρ} : stage t = .done result →
      Moves O stage q none (some (t, result)) (Function.update stage t .idle) q

/-- One effect, of an operation that goes on. -/
theorem Moves.effect_only {stage : τ → Stage ο ρ} {q : σ} {t : τ} {op : ο}
    (h : stage t = .pending op) :
    Moves O stage q none none (Function.update stage t (.done (O.apply q op).2))
      (O.apply q op).1 :=
  .effect h .stay

/-- One effect, of an operation that ends with it. -/
theorem Moves.effect_ret {stage : τ → Stage ο ρ} {q : σ} {t : τ} {op : ο}
    (h : stage t = .pending op) :
    Moves O stage q none (some (t, (O.apply q op).2)) (Function.update stage t .idle)
      (O.apply q op).1 := by
  have hRet : Moves O (Function.update stage t (.done (O.apply q op).2)) (O.apply q op).1 none
      (some (t, (O.apply q op).2))
      (Function.update (Function.update stage t (.done (O.apply q op).2)) t .idle)
      (O.apply q op).1 :=
    .ret (Function.update_self ..)
  rw [Function.update_idem] at hRet
  exact .effect h hRet

/-- Such a move is a run of the atomic machine. -/
theorem Moves.exec {stage stage' : τ → Stage ο ρ} {q q' : σ} {called : Option (τ × ο)}
    {answer : Option (τ × ρ)} (h : Moves O stage q called answer stage' q') (r : Record τ ο ρ) :
    ∃ as, (O.atomic τ).exec ⟨q, stage, r⟩ as = some ⟨q', stage', r.after called answer⟩ := by
  induction h generalizing r with
  | stay => exact ⟨[], rfl⟩
  | @call stage q t op answer hIdle =>
    refine ⟨[.call t op], ?_⟩
    simp [System.exec_cons, Object.atomic, Atomic.step, hIdle, Record.after]
  | @effect stage stage' q q' t op answer hPending _ ih =>
    obtain ⟨as, has⟩ := ih r
    refine ⟨.effect t :: as, ?_⟩
    have hStep : (O.atomic τ).step ⟨q, stage, r⟩ (.effect t) = some ⟨(O.apply q op).1,
        Function.update stage t (.done (O.apply q op).2), r⟩ := by
      simp [Object.atomic, Atomic.step, hPending]
    rw [System.exec_cons_of_step hStep]
    exact has
  | @ret stage q t result hDone =>
    refine ⟨[.ret t], ?_⟩
    simp [System.exec_cons, Object.atomic, Atomic.step, hDone, Record.after]

/-- **The rule for linearizability**: `abs` relates a state to the object, and every
step is a move. Then the object is what the operations of a sequential order that explains
the history make of it. -/
theorem recorded_explained {ς α : Type*} {S : System ς α} {calls : α → Option (τ × ο)}
    {rets : ς → α → ς → Option (τ × ρ)} (ok : ς → α → Prop) (stage : ς → τ → Stage ο ρ)
    (abs : ς → σ → Prop) (hInit : abs S.init O.init) (hIdle : ∀ t, stage S.init t = .idle)
    (hStep : ∀ s a s' q, S.ReachableWhere ok s → abs s q → ok s a → S.step s a = some s' →
      ∃ q', abs s' q' ∧ Moves O (stage s) q (calls a) (rets s a s') (stage s') q')
    {x : ς × Record τ ο ρ}
    (h : (S.recorded calls rets).ReachableWhere (fun x a => ok x.1 a) x) :
    ∃ log, O.Explains log x.2.history ∧ abs x.1 (O.after log) := by
  have hBoth : S.ReachableWhere ok x.1 ∧ ∃ y, (O.atomic τ).Reachable y ∧ abs x.1 y.object ∧
      y.stage = stage x.1 ∧ y.record = x.2 := by
    refine h.invariant (I := fun x => S.ReachableWhere ok x.1 ∧ ∃ y, (O.atomic τ).Reachable y ∧
      abs x.1 y.object ∧ y.stage = stage x.1 ∧ y.record = x.2) ?_ ?_
    · exact ⟨.init, _, .init, hInit, funext fun t => (hIdle t).symm, rfl⟩
    · rintro ⟨s, r⟩ a x' - ⟨hs, ⟨q, stage', r'⟩, hy, hAbs, hStage, hRecord⟩ hok hst
      replace hRecord : r' = r := hRecord
      replace hStage : stage' = stage s := hStage
      subst hRecord hStage
      simp only [System.recorded, Option.map_eq_some_iff] at hst
      obtain ⟨s', hs', rfl⟩ := hst
      obtain ⟨q', hAbs', hMoves⟩ := hStep s a s' q hs hAbs hok hs'
      obtain ⟨as, has⟩ := hMoves.exec r'
      exact ⟨.step hs hok hs', _, hy.exec has, hAbs', rfl, rfl⟩
  obtain ⟨-, y, hy, hAbs, -, hRecord⟩ := hBoth
  obtain ⟨log, hLog⟩ := Object.explained hy
  refine ⟨log, ?_, ?_⟩
  · rw [← hRecord]
    exact hLog.explains
  · rw [hLog.object]
    exact hAbs

/-- The history alone. -/
theorem recorded_linearizable {ς α : Type*} {S : System ς α} {calls : α → Option (τ × ο)}
    {rets : ς → α → ς → Option (τ × ρ)} (ok : ς → α → Prop) (stage : ς → τ → Stage ο ρ)
    (abs : ς → σ → Prop) (hInit : abs S.init O.init) (hIdle : ∀ t, stage S.init t = .idle)
    (hStep : ∀ s a s' q, S.ReachableWhere ok s → abs s q → ok s a → S.step s a = some s' →
      ∃ q', abs s' q' ∧ Moves O (stage s) q (calls a) (rets s a s') (stage s') q')
    {x : ς × Record τ ο ρ}
    (h : (S.recorded calls rets).ReachableWhere (fun x a => ok x.1 a) x) :
    O.Linearizable x.2.history := by
  obtain ⟨log, hLog, -⟩ := recorded_explained ok stage abs hInit hIdle hStep h
  exact ⟨log, hLog⟩

end

end EmbLinux
