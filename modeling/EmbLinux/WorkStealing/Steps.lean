import EmbLinux.WorkStealing.Model

/-!
# EmbLinux — what a step of the work-stealing pools does

`Turn` lists the steps of a thread and `Effect` all steps, with what they require. The
invariants are proved from them.
-/

namespace EmbLinux.WorkStealing

variable {ι τ ω : Type*} [DecidableEq ι] [DecidableEq τ]

/-- The steps of thread `th`. -/
inductive Turn (o : Outside ι ω) (s : State ι τ ω) (th : Thread ι τ) : State ι τ ω → Prop
  | enter {w : Worker ι} (hWorker : th = .worker w) (hStack : s.stack th = [])
      (hLoop : s.loop w = .enter) : Turn o s th (s.setLoop w .loop)
  | exit {w : Worker ι} (hWorker : th = .worker w) (hStack : s.stack th = [])
      (hLoop : s.loop w = .loop) (hDone : s.done w.1 = true) : Turn o s th (s.setLoop w .exited)
  | again {w : Worker ι} (hWorker : th = .worker w) (hStack : s.stack th = [])
      (hLoop : s.loop w = .loop) (hDone : s.done w.1 = false) :
      Turn o s th (s.setStack th [.popLocal w.1])
  | noLocal {p : ι} {rest : List (Frame ι)} (hStack : s.stack th = .popLocal p :: rest)
      (hEmpty : ∀ w, th.localWorkQueue = some w → s.queues w = []) :
      Turn o s th (s.setStack th (.popPool p :: rest))
  | noPool {p : ι} {rest : List (Frame ι)} (hStack : s.stack th = .popPool p :: rest)
      (hEmpty : o.tryPop (s.poolWorkQueue p) = none) :
      Turn o s th (s.setStack th (.steal p 0 :: rest))
  | noSteal {p : ι} {i : Nat} {rest : List (Frame ι)} (hStack : s.stack th = .steal p i :: rest)
      (hLess : i < s.built p) (hEmpty : s.queues (s.victim th p i) = []) :
      Turn o s th (s.setStack th (.steal p (i + 1) :: rest))
  | giveUp {p : ι} {i : Nat} {rest : List (Frame ι)} (hStack : s.stack th = .steal p i :: rest)
      (hAll : s.built p ≤ i) : Turn o s th (s.setStack th rest)
  | takeLocal {w : Worker ι} {p : ι} {rest : List (Frame ι)} {front : Nat} {others : List Nat}
      (hStack : s.stack th = .popLocal p :: rest) (hLocal : th.localWorkQueue = some w)
      (hQueue : s.queues w = front :: others) :
      Turn o s th { s.invoke th rest front with queues := Function.update s.queues w others }
  | takePool {p : ι} {rest : List (Frame ι)} {task : Nat} {others : ω}
      (hStack : s.stack th = .popPool p :: rest)
      (hQueue : o.tryPop (s.poolWorkQueue p) = some (task, others)) :
      Turn o s th { s.invoke th rest task with
        poolWorkQueue := Function.update s.poolWorkQueue p others }
  | steal {p : ι} {i : Nat} {w : Worker ι} {rest : List (Frame ι)} {back : Nat} {others : List Nat}
      (hStack : s.stack th = .steal p i :: rest) (hLess : i < s.built p)
      (hVictim : w = s.victim th p i) (hQueue : s.queues w = others ++ [back]) :
      Turn o s th { s.invoke th rest back with queues := Function.update s.queues w others }
  | finish {n : Nat} {rest : List (Frame ι)} (hStack : s.stack th = .task n :: rest) :
      Turn o s th { s.setStack th rest with finished := s.finished ++ [n] }

/-- The steps of the pools. -/
inductive Effect (o : Outside ι ω) (s : State ι τ ω) : State ι τ ω → Prop
  | build {p : ι} (hLife : s.life p = .constructing) (hAll : s.built p ≤ s.started p)
      (hMore : s.built p < o.size p) :
      Effect o s { s with built := Function.update s.built p (s.built p + 1) }
  | start {p : ι} (hLife : s.life p = .constructing) (hMore : s.started p < s.built p) :
      Effect o s { s.setLoop (p, s.started p) .enter with
        started := Function.update s.started p (s.started p + 1) }
  | ready {p : ι} (hLife : s.life p = .constructing) : Effect o s (s.setLife p .alive)
  | stop {p : ι} (hLife : s.life p = .constructing ∨ s.life p = .alive) : Effect o s (s.stop p)
  | joined {p : ι} (hLife : s.life p = .joining)
      (hJoined : o.joined (s.started p) (fun i => s.loop (p, i) = .exited) = true) :
      Effect o s (s.setLife p (.clear 0))
  | cleared {p : ι} {i : Nat} (hLife : s.life p = .clear i) (hEmpty : s.queues (p, i) = []) :
      Effect o s (s.setLife p (.clear (i + 1)))
  | dropLocal {p : ι} {i task : Nat} {others : List Nat} (hLife : s.life p = .clear i)
      (hQueue : s.queues (p, i) = task :: others) :
      Effect o s { s with
        queues := Function.update s.queues (p, i) others
        dropped := s.dropped ++ [task] }
  | dropPool {p : ι} {i task : Nat} {others : ω} (hLife : s.life p = .clear i)
      (hQueue : o.destroyNext (s.poolWorkQueue p) = some (task, others)) :
      Effect o s { s with
        poolWorkQueue := Function.update s.poolWorkQueue p others
        dropped := s.dropped ++ [task] }
  | gone {p : ι} {i : Nat} (hLife : s.life p = .clear i) (hAll : s.built p ≤ i)
      (hEmpty : o.destroyNext (s.poolWorkQueue p) = none) : Effect o s (s.setLife p .gone)
  | submitLocal {w : Worker ι} {p : ι} {n : Nat} {rest : List (Frame ι)}
      (hStack : s.stack (.worker w) = .task n :: rest) :
      Effect o s { s with
        submitted := s.submitted ++ [(.worker w, p)]
        queues := Function.update s.queues w (s.submitted.length :: s.queues w) }
  | submitPool {t : τ} {p : ι} (hOpen : (s.life p).isOpen = true) :
      Effect o s { s with
        submitted := s.submitted ++ [(.external t, p)]
        poolWorkQueue := Function.update s.poolWorkQueue p
          (o.push (s.poolWorkQueue p) s.submitted.length) }
  | call {th : Thread ι τ} {p : ι} (hFree : s.Free th) (hOpen : (s.life p).isOpen = true) :
      Effect o s (s.setStack th (.popLocal p :: s.stack th))
  | run {th : Thread ι τ} {s' : State ι τ ω} (hTurn : Turn o s th s') : Effect o s s'

variable {o : Outside ι ω} {s s' : State ι τ ω} {th : Thread ι τ} {p : ι} {a : Action ι τ}

/-- What a thread does not change. -/
structure Turn.Frame (s s' : State ι τ ω) : Prop where
  built : s'.built = s.built
  started : s'.started = s.started
  done : s'.done = s.done
  life : s'.life = s.life
  dropped : s'.dropped = s.dropped

/-- What a step of a thread does not touch. -/
theorem Turn.frame (h : Turn o s th s') : Turn.Frame s s' := by
  cases h <;> exact ⟨rfl, rfl, rfl, rfl, rfl⟩

/-- What one step of a constructor does, -/
theorem construct_effect (hst : construct o s p = some s') : Effect o s s' := by
  unfold construct at hst
  split at hst
  · next hLife =>
    split at hst
    · next hMore =>
      obtain rfl := Option.some.inj hst
      exact .start hLife hMore
    · next hAll =>
      split at hst
      · next hMore =>
        obtain rfl := Option.some.inj hst
        exact .build hLife (Nat.le_of_not_lt hAll) hMore
      · obtain rfl := Option.some.inj hst
        exact .ready hLife
  · simp at hst

/-- one of a destructor, -/
theorem destroy_effect (hst : destroy o s p = some s') : Effect o s s' := by
  unfold destroy at hst
  split at hst
  · simp at hst
  · simp at hst
  · next hLife =>
    obtain rfl := Option.some.inj hst
    exact .stop (Or.inr hLife)
  · next hLife =>
    split at hst
    · next hJoined =>
      obtain rfl := Option.some.inj hst
      exact .joined hLife hJoined
    · simp at hst
  · next i hLife =>
    split at hst
    · split at hst
      · next hEmpty =>
        obtain rfl := Option.some.inj hst
        exact .cleared hLife hEmpty
      · next hQueue =>
        obtain rfl := Option.some.inj hst
        exact .dropLocal hLife hQueue
    · next hAll =>
      split at hst
      · next hEmpty =>
        obtain rfl := Option.some.inj hst
        exact .gone hLife (Nat.le_of_not_lt hAll) hEmpty
      · next hQueue =>
        obtain rfl := Option.some.inj hst
        exact .dropPool hLife hQueue

/-- one of a thread, -/
theorem run_turn (hst : run o s th = some s') : Turn o s th s' := by
  unfold run at hst
  split at hst
  · next hStack =>
    split at hst
    · simp at hst
    · next w =>
      split at hst
      · simp at hst
      · simp at hst
      · next hLoop =>
        obtain rfl := Option.some.inj hst
        exact .enter rfl hStack hLoop
      · next hLoop =>
        split at hst
        · next hDone =>
          obtain rfl := Option.some.inj hst
          exact .exit rfl hStack hLoop hDone
        · next hDone =>
          obtain rfl := Option.some.inj hst
          exact .again rfl hStack hLoop (Bool.eq_false_iff.mpr hDone)
  · next p rest hStack =>
    split at hst
    · next hLocal =>
      obtain rfl := Option.some.inj hst
      exact .noLocal hStack (by simp [hLocal])
    · next w hLocal =>
      split at hst
      · next hEmpty =>
        obtain rfl := Option.some.inj hst
        refine .noLocal hStack fun u hu => ?_
        obtain rfl : w = u := by simpa [hLocal] using hu
        exact hEmpty
      · next hQueue =>
        obtain rfl := Option.some.inj hst
        exact .takeLocal hStack hLocal hQueue
  · next p rest hStack =>
    split at hst
    · next hEmpty =>
      obtain rfl := Option.some.inj hst
      exact .noPool hStack hEmpty
    · next hQueue =>
      obtain rfl := Option.some.inj hst
      exact .takePool hStack hQueue
  · next p i rest hStack =>
    split at hst
    · next hLess =>
      split at hst
      · next hLast =>
        obtain rfl := Option.some.inj hst
        exact .noSteal hStack hLess (List.getLast?_eq_none_iff.mp hLast)
      · next back hLast =>
        obtain rfl := Option.some.inj hst
        obtain ⟨others, hOthers⟩ := List.getLast?_eq_some_iff.mp hLast
        refine .steal hStack hLess rfl ?_
        rw [hOthers, List.dropLast_concat]
    · next hAll =>
      obtain rfl := Option.some.inj hst
      exact .giveUp hStack (Nat.le_of_not_lt hAll)
  · next n rest hStack =>
    obtain rfl := Option.some.inj hst
    exact .finish hStack

/-- and a `submit`. -/
theorem submit_effect (hFree : s.Free th) (hOpen : (s.life p).isOpen = true) :
    Effect o s (s.submit o th p) := by
  cases th with
  | external t => exact .submitPool hOpen
  | worker w =>
    rcases hFree with ⟨-, hLocal⟩ | ⟨n, rest, hStack⟩
    · simp [Thread.localWorkQueue] at hLocal
    · exact .submitLocal hStack

/-- What one step does; every invariant is derived from this. -/
theorem step_effect (hst : step o s a = some s') : Effect o s s' := by
  cases a with
  | construct p => exact construct_effect hst
  | fail p =>
    simp only [step, fail] at hst
    split at hst
    · next hLife =>
      obtain rfl := Option.some.inj hst
      exact .stop (Or.inl hLife.1)
    · simp at hst
  | submit th p =>
    simp only [step] at hst
    split at hst
    · next hReady =>
      obtain rfl := Option.some.inj hst
      exact submit_effect hReady.1 hReady.2
    · simp at hst
  | call th p =>
    simp only [step] at hst
    split at hst
    · next hReady =>
      obtain rfl := Option.some.inj hst
      exact .call hReady.1 hReady.2
    · simp at hst
  | run th => exact .run (run_turn hst)
  | destroy p => exact destroy_effect hst

end EmbLinux.WorkStealing
