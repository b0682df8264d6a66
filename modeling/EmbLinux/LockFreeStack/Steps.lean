import EmbLinux.LockFreeStack.Model

/-!
# EmbLinux — what one access of the stack does

`Effect` lists the accesses of the model with what held before them and the
state after; `step_effect` says that every step is one of them. The invariants
are proved by cases on `Effect`, and `step` is unfolded here only.
-/

namespace EmbLinux.LockFreeStack

variable {τ α : Type*} [DecidableEq τ] {s s' : State τ α} {a : Action τ α} {t : τ}

/-- Program points of the first loop whose next access reads the head. -/
def ReadsTake (call : Call α) : Pc α → Prop
  | .takeLoad c | .takeCas c _ _ _ => c = call
  | _ => False

/-- Program points of the second loop whose next access reads the head. -/
def ReadsPut (call : Call α) (node : Nat) (result : Option α) : Pc α → Prop
  | .putLoad c i r | .putCas c i r _ _ => c = call ∧ i = node ∧ r = result
  | _ => False

/-- What one step does; push and pop differ in which chain they take from. -/
inductive Effect (s : State τ α) (t : τ) : State τ α → Prop
  | callPop {last : Option (Ret (Numbered α))} (hpc : s.pc t = .idle last) :
      Effect s t (s.setPc t (.takeLoad .pop))
  | callPush {last : Option (Ret (Numbered α))} {value : α} (hpc : s.pc t = .idle last) :
      Effect s t { s.setPc t (.takeLoad (.push (s.calls, value))) with calls := s.calls + 1 }
  | refuse {call : Call (Numbered α)} (hpc : ReadsTake call (s.pc t))
      (hNull : (s.heads call.takes).index = kNullIndex) :
      Effect s t (s.setPc t (.idle (some call.refuse)))
  | load {call : Call (Numbered α)} (hpc : ReadsTake call (s.pc t))
      (hNode : (s.heads call.takes).index ≠ kNullIndex) :
      Effect s t (s.setPc t (.takeNext call (s.heads call.takes) (s.version call.takes)))
  | next {call : Call (Numbered α)} {old : TaggedIndex} {version : Nat}
      (hpc : s.pc t = .takeNext call old version) :
      Effect s t (s.setPc t (.takeCas call old version (s.next old.index)))
  | takePop {old : TaggedIndex} {version next : Nat}
      (hpc : s.pc t = .takeCas .pop old version next) (hHead : s.heads .head = old) :
      Effect s t { (s.exchange .head next).setPc t (.data .pop old.index) with
        popped := s.popped ++ (s.data old.index).toList }
  | takePush {value : Numbered α} {old : TaggedIndex} {version next : Nat}
      (hpc : s.pc t = .takeCas (.push value) old version next) (hHead : s.heads .freeHead = old) :
      Effect s t ((s.exchange .freeHead next).setPc t (.data (.push value) old.index))
  | moveOut {node : Nat} (hpc : s.pc t = .data .pop node) :
      Effect s t (s.setPc t (.clear node (s.data node)))
  | moveIn {value : Numbered α} {node : Nat} (hpc : s.pc t = .data (.push value) node) :
      Effect s t { s.setPc t (.putLoad (.push value) node none) with
        data := Function.update s.data node (some value) }
  | clear {node : Nat} {result : Option (Numbered α)} (hpc : s.pc t = .clear node result) :
      Effect s t { s.setPc t (.putLoad .pop node result) with
        data := Function.update s.data node none }
  | reload {call : Call (Numbered α)} {node : Nat} {result : Option (Numbered α)}
      (hpc : ReadsPut call node result (s.pc t)) :
      Effect s t
        (s.setPc t (.putStore call node result (s.heads call.puts) (s.version call.puts)))
  | store {call : Call (Numbered α)} {node : Nat} {result : Option (Numbered α)}
      {old : TaggedIndex} {version : Nat} (hpc : s.pc t = .putStore call node result old version) :
      Effect s t { s.setPc t (.putCas call node result old version) with
        next := Function.update s.next node old.index }
  | putPop {node : Nat} {result : Option (Numbered α)} {old : TaggedIndex} {version : Nat}
      (hpc : s.pc t = .putCas .pop node result old version) (hHead : s.heads .freeHead = old) :
      Effect s t { (s.exchange .freeHead node).setPc t (.idle (some (.popped result))) with
        returned := s.returned ++ result.toList }
  | putPush {value : Numbered α} {node : Nat} {result : Option (Numbered α)} {old : TaggedIndex}
      {version : Nat} (hpc : s.pc t = .putCas (.push value) node result old version)
      (hHead : s.heads .head = old) :
      Effect s t { (s.exchange .head node).setPc t (.idle (some (.pushed true))) with
        pushed := s.pushed ++ [value] }

/-- The head is null and the call is refused, or it goes on to the `next` of the first node. -/
theorem enterTake_effect {call : Call (Numbered α)} (hpc : ReadsTake call (s.pc t)) :
    Effect s t (s.enterTake t call) := by
  unfold State.enterTake
  split
  · next hNull => exact .refuse hpc hNull
  · next hNode => exact .load hpc hNode

/-- Every access of a call in progress is one of the listed effects. -/
theorem run_effect {spurious : Bool} (hst : run s t spurious = some s') : Effect s t s' := by
  unfold run at hst
  split at hst
  · cases hst
  · next call hpc =>
    cases hst
    exact enterTake_effect (by rw [hpc]; rfl)
  · next hpc =>
    cases hst
    exact .next hpc
  · next call old version next hpc =>
    split at hst
    · next hCas =>
      cases hst
      cases call with
      | pop => exact .takePop hpc hCas.1
      | push value => exact .takePush hpc hCas.1
    · cases hst
      exact enterTake_effect (by rw [hpc]; rfl)
  · next hpc =>
    cases hst
    exact .moveOut hpc
  · next hpc =>
    cases hst
    exact .moveIn hpc
  · next hpc =>
    cases hst
    exact .clear hpc
  · next hpc =>
    cases hst
    exact .reload (by rw [hpc]; exact ⟨rfl, rfl, rfl⟩)
  · next hpc =>
    cases hst
    exact .store hpc
  · next call node result old version hpc =>
    split at hst
    · next hCas =>
      cases call with
      | pop =>
        cases hst
        exact .putPop hpc hCas.1
      | push value =>
        cases hst
        exact .putPush hpc hCas.1
    · cases hst
      exact .reload (by rw [hpc]; exact ⟨rfl, rfl, rfl⟩)

/-- Every step is one of the listed effects, of the thread that moves. -/
theorem step_effect (hst : step s a = some s') :
    ∃ t, Effect s t s' ∧ (NoTagRepeat s a → TagFresh s t) := by
  have hIdle : ∀ {t last}, s.pc t = .idle last → TagFresh s t := by
    intro t last hpc call old version next hTake
    rw [hpc] at hTake
    cases hTake
  cases a with
  | callPop t =>
    simp only [step] at hst
    split at hst
    · next hpc =>
      cases hst
      exact ⟨t, .callPop hpc, fun _ => hIdle hpc⟩
    · cases hst
  | callPush t value =>
    simp only [step] at hst
    split at hst
    · next hpc =>
      cases hst
      exact ⟨t, .callPush hpc, fun _ => hIdle hpc⟩
    · cases hst
  | run t spurious => exact ⟨t, run_effect hst, fun hok => hok⟩

/-- Every listed effect is a step. -/
theorem step_of_effect (he : Effect s t s') : ∃ a, step s a = some s' := by
  cases he with
  | callPop hpc => exact ⟨.callPop t, by simp [step, hpc]⟩
  | @callPush _ value hpc => exact ⟨.callPush t value, by simp [step, hpc]⟩
  | @refuse call hpc hNull =>
    unfold ReadsTake at hpc
    split at hpc
    · next hLoad =>
      subst hpc
      exact ⟨.run t false, by simp [step, run, hLoad, State.enterTake, hNull]⟩
    · next hCas =>
      subst hpc
      exact ⟨.run t true, by simp [step, run, hCas, State.enterTake, hNull]⟩
    · exact hpc.elim
  | @load call hpc hNode =>
    unfold ReadsTake at hpc
    split at hpc
    · next hLoad =>
      subst hpc
      exact ⟨.run t false, by simp [step, run, hLoad, State.enterTake, hNode]⟩
    · next hCas =>
      subst hpc
      exact ⟨.run t true, by simp [step, run, hCas, State.enterTake, hNode]⟩
    · exact hpc.elim
  | next hpc => exact ⟨.run t false, by simp [step, run, hpc]⟩
  | takePop hpc hHead => exact ⟨.run t false, by simp [step, run, hpc, Call.takes, hHead]⟩
  | takePush hpc hHead =>
    exact ⟨.run t false, by simp [step, run, hpc, Call.takes, hHead, State.setPc, State.exchange]⟩
  | moveOut hpc => exact ⟨.run t false, by simp [step, run, hpc]⟩
  | moveIn hpc => exact ⟨.run t false, by simp [step, run, hpc]⟩
  | clear hpc => exact ⟨.run t false, by simp [step, run, hpc]⟩
  | @reload call node result hpc =>
    unfold ReadsPut at hpc
    split at hpc
    · next hLoad =>
      obtain ⟨rfl, rfl, rfl⟩ := hpc
      exact ⟨.run t false, by simp [step, run, hLoad, State.enterPut]⟩
    · next hCas =>
      obtain ⟨rfl, rfl, rfl⟩ := hpc
      exact ⟨.run t true, by simp [step, run, hCas, State.enterPut]⟩
    · exact hpc.elim
  | store hpc => exact ⟨.run t false, by simp [step, run, hpc]⟩
  | putPop hpc hHead => exact ⟨.run t false, by simp [step, run, hpc, Call.puts, hHead]⟩
  | putPush hpc hHead => exact ⟨.run t false, by simp [step, run, hpc, Call.puts, hHead]⟩

/-- Every effect is a step of some schedule. -/
theorem Effect.reachable {Capacity : Nat} (he : Effect s t s')
    (h : (system τ α Capacity).Reachable s) : (system τ α Capacity).Reachable s' := by
  obtain ⟨a, hst⟩ := step_of_effect he
  exact .step h trivial hst

end EmbLinux.LockFreeStack
