import EmbLinux.DesignLockBase.SingleMutexQueue

/-!
# EmbLinux — the producer and the consumer of `sharedState.cpp`

The two threads that `main` starts and joins (`taskBased.cpp` has the same text). The
mutex, the queue and the condition variable are the monitor of
`threadsafe_queue_single_mutex`: `push` and `notify_one` under the lock, a wait for a value
and its removal. What is printed is the list `consumed`.

`shared_state_contract` — in every interleaving the consumer prints what was produced, in
order, and no run stops before both threads have returned.

## Results

* `ProducerOk`, `ConsumerOk` — what each thread's loop has done, by where its call stands.
* `Inv.run_producer`, `Inv.run_consumer` — a step of the monitor, seen from the two loops.
* `Inv.finished` — a state without a next step is the end of both.
-/

namespace EmbLinux.SynchronizingConcurrency.SharedState

open DesignLockBase.SingleMutexQueue (Op Ret queue waiters_woken)

-- ---------------------------------------------------------------------------
-- The program
-- ---------------------------------------------------------------------------

/-- The two threads of `main`. -/
inductive Thread
  | producer
  | consumer
  deriving DecidableEq

/-- `i` is the loop variable of the producer, `broke` says that the consumer has left its
loop. -/
structure State where
  data_queue : Monitor.State Thread (Op Nat) (Ret Nat) (List Nat)
  i : Nat
  consumed : List Nat
  broke : Bool

/-- The next iteration of a loop, the next step in it, or a spurious wake-up. -/
inductive Action
  | iterate (t : Thread)
  | run (t : Thread) (pick : Nat)
  | wakeUp (t : Thread)

/-- The end of an iteration: the consumer prints its value and looks whether it is the last. -/
def State.finish (s : State) (t : Thread) : State :=
  match t, s.data_queue.pc t with
  | .consumer, .unlock (.popped (some val)) =>
    { s with consumed := s.consumed ++ [val], broke := decide (val = 4) }
  | _, _ => s

/-- The next turn of a thread's loop, or a step of its running call of the queue. -/
def step (s : State) : Action → Option State
  | .iterate .producer =>
    -- `for (int i = 0; i < 5; ++i)`
    if s.i < 5 then
      (Monitor.step (queue Nat) s.data_queue (.call .producer (.push s.i true))).map fun q =>
        { s with data_queue := q, i := s.i + 1 }
    else none
  | .iterate .consumer =>
    if s.broke then none
    else
      (Monitor.step (queue Nat) s.data_queue (.call .consumer (.waitAndPop .value))).map fun q =>
        { s with data_queue := q }
  | .run t pick =>
    (Monitor.run (queue Nat) s.data_queue t pick).map fun q =>
      { s.finish t with data_queue := q }
  | .wakeUp t =>
    (Monitor.step (queue Nat) s.data_queue (.wakeUp t)).map fun q => { s with data_queue := q }

/-- The program, under every interleaving. -/
def system : System State Action where
  init := ⟨(Monitor.system Thread (queue Nat)).init, 0, [], false⟩
  step := step

/-- Both threads have returned. -/
def State.Finished (s : State) : Prop :=
  s.data_queue.pc .producer = .idle ∧ s.i = 5 ∧ s.data_queue.pc .consumer = .idle ∧ s.broke = true

-- ---------------------------------------------------------------------------
-- The invariant
-- ---------------------------------------------------------------------------

/-- Where the producer stands in the iteration before `i`. -/
def ProducerOk (i : Nat) : Monitor.Pc (Op Nat) (Ret Nat) → Prop
  | .idle => i ≤ 5
  | .lock op | .inside op => 1 ≤ i ∧ i ≤ 5 ∧ op = .push (i - 1) true
  | .notify _ | .unlock _ => 1 ≤ i ∧ i ≤ 5
  | _ => False

/-- Where the consumer stands when it has printed `k` values. -/
def ConsumerOk (k : Nat) (broke : Bool) : Monitor.Pc (Op Nat) (Ret Nat) → Prop
  | .idle => k ≤ 5 ∧ (broke = true ↔ k = 5)
  | .lock op | .inside op | .asleep op | .relock op | .recheck op =>
    broke = false ∧ k < 5 ∧ op = .waitAndPop .value
  | .unlock answer => broke = false ∧ k < 5 ∧ answer = .popped (some k)
  | .notify _ => False

/-- The number of values that have been pushed. -/
def pushedCount (i : Nat) : Monitor.Pc (Op Nat) (Ret Nat) → Nat
  | .lock _ | .inside _ => i - 1
  | _ => i

/-- The number of values that have been taken. -/
def takenCount (k : Nat) : Monitor.Pc (Op Nat) (Ret Nat) → Nat
  | .unlock _ => k + 1
  | _ => k

/-- The consumer has printed the first numbers in order, and the queue holds those between the
two threads. -/
structure Inv (s : State) : Prop where
  monitor : (Monitor.system Thread (queue Nat)).Reachable s.data_queue
  /-- What the producer's loop has done, by where its call stands, -/
  producer : ProducerOk s.i (s.data_queue.pc .producer)
  /-- and the consumer's. -/
  consumer : ConsumerOk s.consumed.length s.broke (s.data_queue.pc .consumer)
  printed : s.consumed = List.range s.consumed.length
  /-- No more was taken than pushed, -/
  taken : takenCount s.consumed.length (s.data_queue.pc .consumer) ≤
    pushedCount s.i (s.data_queue.pc .producer)
  /-- and the queue has the numbers in between. -/
  values : s.data_queue.object =
    List.range' (takenCount s.consumed.length (s.data_queue.pc .consumer))
      (pushedCount s.i (s.data_queue.pc .producer) -
        takenCount s.consumed.length (s.data_queue.pc .consumer))

variable {s s' : State} {q : Monitor.State Thread (Op Nat) (Ret Nat) (List Nat)} {t : Thread}

/-- A step of the producer that pushes nothing. -/
theorem Inv.produce (h : Inv s) {i : Nat} {p : Monitor.Pc (Op Nat) (Ret Nat)}
    (hq : (Monitor.system Thread (queue Nat)).Reachable q)
    (hPc : q.pc = Function.update s.data_queue.pc .producer p)
    (hObject : q.object = s.data_queue.object) (hOk : ProducerOk i p)
    (hCount : pushedCount i p = pushedCount s.i (s.data_queue.pc .producer)) :
    Inv { s with data_queue := q, i := i } := by
  have hProducer : q.pc .producer = p := by rw [hPc, Function.update_self]
  have hConsumer : q.pc .consumer = s.data_queue.pc .consumer := by
    rw [hPc, Function.update_of_ne (by decide)]
  refine ⟨hq, ?_, ?_, h.printed, ?_, ?_⟩
  · show ProducerOk i (q.pc .producer)
    rwa [hProducer]
  · show ConsumerOk s.consumed.length s.broke (q.pc .consumer)
    rw [hConsumer]
    exact h.consumer
  · show takenCount s.consumed.length (q.pc .consumer) ≤ pushedCount i (q.pc .producer)
    rw [hProducer, hConsumer, hCount]
    exact h.taken
  · show q.object = List.range' (takenCount s.consumed.length (q.pc .consumer))
      (pushedCount i (q.pc .producer) - takenCount s.consumed.length (q.pc .consumer))
    rw [hProducer, hConsumer, hCount, hObject]
    exact h.values

/-- A step of the consumer that takes nothing. -/
theorem Inv.consume (h : Inv s) {p : Monitor.Pc (Op Nat) (Ret Nat)}
    (hq : (Monitor.system Thread (queue Nat)).Reachable q)
    (hPc : q.pc = Function.update s.data_queue.pc .consumer p)
    (hObject : q.object = s.data_queue.object)
    (hOk : ConsumerOk s.consumed.length s.broke p)
    (hCount : takenCount s.consumed.length p =
      takenCount s.consumed.length (s.data_queue.pc .consumer)) :
    Inv { s with data_queue := q } := by
  have hConsumer : q.pc .consumer = p := by rw [hPc, Function.update_self]
  have hProducer : q.pc .producer = s.data_queue.pc .producer := by
    rw [hPc, Function.update_of_ne (by decide)]
  refine ⟨hq, ?_, ?_, h.printed, ?_, ?_⟩
  · show ProducerOk s.i (q.pc .producer)
    rw [hProducer]
    exact h.producer
  · show ConsumerOk s.consumed.length s.broke (q.pc .consumer)
    rwa [hConsumer]
  · show takenCount s.consumed.length (q.pc .consumer) ≤ pushedCount s.i (q.pc .producer)
    rw [hProducer, hConsumer, hCount]
    exact h.taken
  · show q.object = List.range' (takenCount s.consumed.length (q.pc .consumer))
      (pushedCount s.i (q.pc .producer) - takenCount s.consumed.length (q.pc .consumer))
    rw [hProducer, hConsumer, hCount, hObject]
    exact h.values

/-- `data_queue.push(i)` -/
theorem Inv.push (h : Inv s) (hpc : s.data_queue.pc .producer = .inside (.push (s.i - 1) true))
    (hq : (Monitor.system Thread (queue Nat)).Reachable q)
    (hPc : q.pc = Function.update s.data_queue.pc .producer (.notify .pushed))
    (hObject : q.object = s.data_queue.object ++ [s.i - 1]) : Inv { s with data_queue := q } := by
  have hOk := h.producer
  have hTaken := h.taken
  have hValues := h.values
  rw [hpc] at hOk hTaken hValues
  obtain ⟨hPos, hLe, -⟩ := hOk
  have hProducer : q.pc .producer = .notify .pushed := by rw [hPc, Function.update_self]
  have hConsumer : q.pc .consumer = s.data_queue.pc .consumer := by
    rw [hPc, Function.update_of_ne (by decide)]
  simp only [pushedCount] at hTaken hValues
  refine ⟨hq, ?_, ?_, h.printed, ?_, ?_⟩
  · show ProducerOk s.i (q.pc .producer)
    rw [hProducer]
    exact ⟨hPos, hLe⟩
  · show ConsumerOk s.consumed.length s.broke (q.pc .consumer)
    rw [hConsumer]
    exact h.consumer
  · show takenCount s.consumed.length (q.pc .consumer) ≤ pushedCount s.i (q.pc .producer)
    rw [hProducer, hConsumer]
    simp only [pushedCount]
    omega
  · show q.object = List.range' (takenCount s.consumed.length (q.pc .consumer))
      (pushedCount s.i (q.pc .producer) - takenCount s.consumed.length (q.pc .consumer))
    rw [hProducer, hConsumer, hObject, hValues]
    simp only [pushedCount]
    generalize takenCount s.consumed.length (s.data_queue.pc .consumer) = k at hTaken
    have hNext : s.i - k = s.i - 1 - k + 1 := by omega
    have hEnd : k + (s.i - 1 - k) = s.i - 1 := by omega
    rw [hNext, List.range'_1_concat, hEnd]

/-- `val = data_queue.front(); data_queue.pop();` -/
theorem Inv.pop (h : Inv s) {front : Nat} {rest : List Nat}
    (hpc : (s.data_queue.pc .consumer).ready? = some (.waitAndPop .value))
    (hFront : s.data_queue.object = front :: rest)
    (hq : (Monitor.system Thread (queue Nat)).Reachable q)
    (hPc : q.pc = Function.update s.data_queue.pc .consumer (.unlock (.popped (some front))))
    (hObject : q.object = rest) : Inv { s with data_queue := q } := by
  have hOk := h.consumer
  have hValues := h.values
  have hConsumer : q.pc .consumer = .unlock (.popped (some front)) := by
    rw [hPc, Function.update_self]
  have hProducer : q.pc .producer = s.data_queue.pc .producer := by
    rw [hPc, Function.update_of_ne (by decide)]
  have hWaits : s.broke = false ∧ s.consumed.length < 5 ∧
      takenCount s.consumed.length (s.data_queue.pc .consumer) = s.consumed.length := by
    cases hAt : s.data_queue.pc .consumer <;> rw [hAt] at hpc hOk <;>
      simp [Monitor.Pc.ready?] at hpc
    · exact ⟨hOk.1, hOk.2.1, rfl⟩
    · exact ⟨hOk.1, hOk.2.1, rfl⟩
  obtain ⟨hBroke, hLess, hCount⟩ := hWaits
  rw [hFront, hCount] at hValues
  -- the queue is not empty, so its front is the next value
  obtain ⟨n, hn⟩ : ∃ n, pushedCount s.i (s.data_queue.pc .producer) =
      s.consumed.length + n + 1 := by
    refine ⟨pushedCount s.i (s.data_queue.pc .producer) - s.consumed.length - 1, ?_⟩
    by_contra hNone
    have hZero : pushedCount s.i (s.data_queue.pc .producer) - s.consumed.length = 0 := by omega
    rw [hZero] at hValues
    simp at hValues
  have hLength : pushedCount s.i (s.data_queue.pc .producer) - s.consumed.length = n + 1 := by omega
  rw [hLength, List.range'_succ] at hValues
  obtain ⟨rfl, hRest⟩ := List.cons.inj hValues
  refine ⟨hq, ?_, ?_, h.printed, ?_, ?_⟩
  · show ProducerOk s.i (q.pc .producer)
    rw [hProducer]
    exact h.producer
  · show ConsumerOk s.consumed.length s.broke (q.pc .consumer)
    rw [hConsumer]
    exact ⟨hBroke, hLess, rfl⟩
  · show takenCount s.consumed.length (q.pc .consumer) ≤ pushedCount s.i (q.pc .producer)
    rw [hProducer, hConsumer, hn]
    simp only [takenCount]
    omega
  · show q.object = List.range' (takenCount s.consumed.length (q.pc .consumer))
      (pushedCount s.i (q.pc .producer) - takenCount s.consumed.length (q.pc .consumer))
    rw [hProducer, hConsumer, hn, hObject, hRest]
    simp only [takenCount]
    congr 1
    omega

/-- The consumer prints its value, unlocks and looks whether it was the last. -/
theorem Inv.print (h : Inv s) {val : Nat}
    (hpc : s.data_queue.pc .consumer = .unlock (.popped (some val)))
    (hq : (Monitor.system Thread (queue Nat)).Reachable q)
    (hPc : q.pc = Function.update s.data_queue.pc .consumer .idle)
    (hObject : q.object = s.data_queue.object) :
    Inv { s with data_queue := q, consumed := s.consumed ++ [val], broke := decide (val = 4) } := by
  have hOk := h.consumer
  have hTaken := h.taken
  have hValues := h.values
  rw [hpc] at hOk hTaken hValues
  obtain ⟨-, hLess, hVal⟩ := hOk
  obtain rfl : val = s.consumed.length := by simpa using hVal
  have hConsumer : q.pc .consumer = .idle := by rw [hPc, Function.update_self]
  have hProducer : q.pc .producer = s.data_queue.pc .producer := by
    rw [hPc, Function.update_of_ne (by decide)]
  have hLength : (s.consumed ++ [s.consumed.length]).length = s.consumed.length + 1 := by simp
  refine ⟨hq, ?_, ?_, ?_, ?_, ?_⟩
  · show ProducerOk s.i (q.pc .producer)
    rw [hProducer]
    exact h.producer
  · show ConsumerOk (s.consumed ++ [s.consumed.length]).length _ (q.pc .consumer)
    rw [hConsumer, hLength]
    simp only [ConsumerOk, decide_eq_true_eq]
    omega
  · show s.consumed ++ [s.consumed.length] = List.range (s.consumed ++ [s.consumed.length]).length
    rw [hLength, List.range_succ, ← h.printed]
  · show takenCount (s.consumed ++ [s.consumed.length]).length (q.pc .consumer) ≤ _
    rw [hConsumer, hProducer, hLength]
    exact hTaken
  · show q.object = List.range' (takenCount (s.consumed ++ [s.consumed.length]).length
      (q.pc .consumer)) (pushedCount s.i (q.pc .producer) -
        takenCount (s.consumed ++ [s.consumed.length]).length (q.pc .consumer))
    rw [hConsumer, hProducer, hLength, hObject]
    exact hValues

/-- Only the consumer is ever blocked. -/
theorem Inv.blocked (h : Inv s) (hMem : t ∈ s.data_queue.waiting) :
    t = .consumer ∧ ∃ op, s.data_queue.pc .consumer = .asleep op := by
  obtain ⟨op, hpc⟩ := (Monitor.sync_reachable h.monitor).asleep hMem
  cases t with
  | producer =>
    have hOk := h.producer
    rw [hpc] at hOk
    exact hOk.elim
  | consumer => exact ⟨rfl, op, hpc⟩

/-- The consumer is woken. -/
theorem Inv.wake (h : Inv s) (hMem : t ∈ s.data_queue.waiting) :
    Inv { s with data_queue := s.data_queue.wake t } := by
  obtain ⟨rfl, op, hpc⟩ := h.blocked hMem
  obtain ⟨op', hpc', hEq⟩ := (Monitor.sync_reachable h.monitor).wake_eq hMem
  have hq := h.monitor.act (.wakeUp .consumer) trivial (if_pos hMem)
  have hOk := h.consumer
  rw [hpc'] at hOk
  rw [hEq] at hq ⊢
  exact h.consume (p := .relock op') hq rfl rfl hOk (by rw [hpc']; rfl)

/-- The region that the producer enters is the `push` of the last number it counted. -/
theorem ProducerOk.ready {i : Nat} {pc : Monitor.Pc (Op Nat) (Ret Nat)} {op : Op Nat}
    (h : ProducerOk i pc) (hpc : pc.ready? = some op) :
    pc = .inside (.push (i - 1) true) ∧ op = .push (i - 1) true := by
  cases pc with
  | inside op' =>
    obtain ⟨-, -, rfl⟩ := h
    obtain rfl := Option.some.inj hpc
    exact ⟨rfl, rfl⟩
  | recheck op' => exact h.elim
  | idle | lock | asleep | relock | notify | unlock => simp [Monitor.Pc.ready?] at hpc

/-- The consumer enters `wait_and_pop` only, and only before the fifth number. -/
theorem ConsumerOk.ready {k : Nat} {broke : Bool} {pc : Monitor.Pc (Op Nat) (Ret Nat)}
    {op : Op Nat} (h : ConsumerOk k broke pc) (hpc : pc.ready? = some op) :
    broke = false ∧ k < 5 ∧ op = .waitAndPop .value ∧ takenCount k pc = k := by
  cases pc with
  | inside op' | recheck op' =>
    obtain ⟨hBroke, hLess, rfl⟩ := h
    obtain rfl := Option.some.inj hpc
    exact ⟨hBroke, hLess, rfl, rfl⟩
  | idle | lock | asleep | relock | notify | unlock => simp [Monitor.Pc.ready?] at hpc

/-- A step of the producer. -/
theorem Inv.run_producer (h : Inv s) {pick : Nat}
    (hst : Monitor.run (queue Nat) s.data_queue .producer pick = some q) :
    Inv { s with data_queue := q } := by
  have hq := h.monitor.act (.run .producer pick) trivial hst
  have hOk := h.producer
  cases Monitor.run_effect hst with
  | call hpc => simp [Monitor.run, hpc] at hst
  | wake hMem => exact absurd (h.blocked hMem).1 (by decide)
  | @lock op hpc hFree =>
    rw [hpc] at hOk
    exact h.produce (p := .inside op) hq rfl rfl hOk (by rw [hpc]; rfl)
  | relock hpc hFree =>
    rw [hpc] at hOk
    exact hOk.elim
  | @region op r hpc hRegion =>
    obtain ⟨hInside, rfl⟩ := hOk.ready hpc
    obtain rfl := Option.some.inj hRegion
    exact h.push hInside hq rfl rfl
  | @block op hpc hRegion =>
    obtain ⟨-, rfl⟩ := hOk.ready hpc
    simp [queue, DesignLockBase.SingleMutexQueue.region] at hRegion
  | @notifyNone answer hpc hEmpty =>
    rw [hpc] at hOk
    exact h.produce (p := .unlock answer) hq rfl rfl hOk (by rw [hpc]; rfl)
  | @notify answer u hpc hMem =>
    -- the consumer is woken, and the producer goes on to the unlock
    have hWake := h.wake hMem
    obtain rfl := (h.blocked hMem).1
    have hpc' : (s.data_queue.wake .consumer).pc .producer = .notify answer := by
      rw [Monitor.wake_pc_of_ne (by decide), hpc]
    rw [hpc] at hOk
    exact hWake.produce (p := .unlock answer) hq rfl rfl hOk (by
      show _ = pushedCount s.i ((s.data_queue.wake .consumer).pc .producer)
      rw [hpc']
      rfl)
  | @unlock answer hpc =>
    rw [hpc] at hOk
    exact h.produce (p := .idle) hq rfl rfl hOk.2 (by rw [hpc]; rfl)

/-- A step of the consumer, with the print when it unlocks. -/
theorem Inv.run_consumer (h : Inv s) {pick : Nat}
    (hst : Monitor.run (queue Nat) s.data_queue .consumer pick = some q) :
    Inv { s.finish .consumer with data_queue := q } := by
  have hq := h.monitor.act (.run .consumer pick) trivial hst
  have hOk := h.consumer
  have hStay : (∀ answer, s.data_queue.pc .consumer ≠ .unlock answer) →
      s.finish .consumer = s := by
    intro hNot
    unfold State.finish
    split
    · next val hpc => exact absurd hpc (hNot _)
    · rfl
  cases Monitor.run_effect hst with
  | call hpc => simp [Monitor.run, hpc] at hst
  | wake hMem =>
    obtain ⟨-, op, hpc⟩ := h.blocked hMem
    simp [Monitor.run, hpc] at hst
  | @lock op hpc hFree =>
    rw [hStay (by simp [hpc])]
    rw [hpc] at hOk
    exact h.consume (p := .inside op) hq rfl rfl hOk (by rw [hpc]; rfl)
  | @relock op hpc hFree =>
    rw [hStay (by simp [hpc])]
    rw [hpc] at hOk
    exact h.consume (p := .recheck op) hq rfl rfl hOk (by rw [hpc]; rfl)
  | @region op r hpc hRegion =>
    rw [hStay (by intro answer hAt; simp [hAt, Monitor.Pc.ready?] at hpc)]
    obtain ⟨-, -, rfl, -⟩ := hOk.ready hpc
    cases hFront : s.data_queue.object with
    | nil => simp [hFront, queue, DesignLockBase.SingleMutexQueue.region] at hRegion
    | cons front rest =>
      rw [hFront] at hRegion
      obtain rfl := Option.some.inj hRegion
      exact h.pop hpc hFront hq rfl rfl
  | @block op hpc hRegion =>
    rw [hStay (by intro answer hAt; simp [hAt, Monitor.Pc.ready?] at hpc)]
    obtain ⟨hBroke, hLess, rfl, hCount⟩ := hOk.ready hpc
    exact h.consume (p := .asleep (.waitAndPop .value)) hq rfl rfl ⟨hBroke, hLess, rfl⟩ hCount.symm
  | notifyNone hpc hEmpty =>
    rw [hpc] at hOk
    exact hOk.elim
  | notify hpc hMem =>
    rw [hpc] at hOk
    exact hOk.elim
  | @unlock answer hpc =>
    rw [hpc] at hOk
    obtain ⟨-, -, rfl⟩ := hOk
    have hFinish : s.finish .consumer = { s with
        consumed := s.consumed ++ [s.consumed.length]
        broke := decide (s.consumed.length = 4) } := by
      unfold State.finish
      rw [hpc]
    rw [hFinish]
    exact h.print hpc hq rfl rfl

/-- Nothing has been produced yet. -/
theorem inv_init : Inv system.init := by
  refine ⟨.init, ?_, ?_, rfl, ?_, rfl⟩
  · show 0 ≤ 5
    omega
  · show 0 ≤ 5 ∧ (false = true ↔ 0 = 5)
    decide
  · show 0 ≤ 0
    omega

/-- Every step keeps the invariant. -/
theorem inv_step {a : Action} (h : Inv s) (hst : step s a = some s') : Inv s' := by
  cases a with
  | iterate t =>
    cases t with
    | producer =>
      simp only [step] at hst
      split at hst
      · next hMore =>
        obtain ⟨q, hCall, rfl⟩ := Option.map_eq_some_iff.mp hst
        have hq := h.monitor.act (.call .producer _) trivial hCall
        simp only [Monitor.step] at hCall
        split at hCall
        · next hpc =>
          obtain rfl := Option.some.inj hCall
          refine h.produce (i := s.i + 1) (p := .lock (.push s.i true)) hq rfl rfl ?_ ?_
          · exact ⟨by omega, by omega, rfl⟩
          · rw [hpc]
            rfl
        · simp at hCall
      · simp at hst
    | consumer =>
      simp only [step] at hst
      split at hst
      · simp at hst
      · next hBroke =>
        obtain ⟨q, hCall, rfl⟩ := Option.map_eq_some_iff.mp hst
        have hq := h.monitor.act (.call .consumer _) trivial hCall
        have hOk := h.consumer
        simp only [Monitor.step] at hCall
        split at hCall
        · next hpc =>
          obtain rfl := Option.some.inj hCall
          rw [hpc] at hOk
          obtain ⟨hLe, hLast⟩ := hOk
          have hLess : s.consumed.length < 5 := by
            rcases Nat.lt_or_eq_of_le hLe with hLess | hAll
            · exact hLess
            · exact absurd (hLast.mpr hAll) hBroke
          refine h.consume (p := .lock (.waitAndPop .value)) hq rfl rfl ?_ (by rw [hpc]; rfl)
          exact ⟨Bool.eq_false_iff.mpr hBroke, hLess, rfl⟩
        · simp at hCall
  | run t pick =>
    obtain ⟨q, hRun, rfl⟩ := Option.map_eq_some_iff.mp hst
    cases t with
    | producer => exact h.run_producer hRun
    | consumer => exact h.run_consumer hRun
  | wakeUp t =>
    obtain ⟨q, hWake, rfl⟩ := Option.map_eq_some_iff.mp hst
    simp only [Monitor.step] at hWake
    split at hWake
    · next hMem =>
      obtain rfl := Option.some.inj hWake
      exact h.wake hMem
    · simp at hWake

/-- It holds in every reachable state. -/
theorem inv_reachable (h : system.Reachable s) : Inv s :=
  h.invariant inv_init fun _ _ _ _ hI _ hst => inv_step hI hst

-- ---------------------------------------------------------------------------
-- The contract
-- ---------------------------------------------------------------------------

/-- When neither thread can go on, both have returned. -/
theorem Inv.finished (h : Inv s) (hIterate : ∀ t, step s (.iterate t) = none)
    (hRun : ∀ t pick, step s (.run t pick) = none) : s.Finished := by
  have hStuck : ∀ t pick, Monitor.run (queue Nat) s.data_queue t pick = none :=
    fun t pick => Option.map_eq_none_iff.mp (hRun t pick)
  have hWoken := (waiters_woken h.monitor).stuck hStuck
  have hOk := h.producer
  have hProducer : s.data_queue.pc .producer = .idle := by
    rcases hWoken .producer with hIdle | ⟨⟨op, hpc⟩, -⟩
    · exact hIdle
    · rw [hpc] at hOk
      exact hOk.elim
  have hAll : s.i = 5 := by
    rw [hProducer] at hOk
    have hLe : s.i ≤ 5 := hOk
    by_contra hNot
    have hNext := hIterate .producer
    simp [step, Monitor.step, hProducer, show s.i < 5 by omega] at hNext
  have hValues := h.values
  have hOk' := h.consumer
  have hConsumer : s.data_queue.pc .consumer = .idle := by
    rcases hWoken .consumer with hIdle | ⟨⟨op, hpc⟩, hEmpty⟩
    · exact hIdle
    · -- all five values have been pushed, so the queue is not empty
      rw [hpc] at hOk' hValues
      rw [hProducer, hEmpty, hAll] at hValues
      obtain ⟨-, hLess, -⟩ := hOk'
      have hLength := congrArg List.length hValues
      simp only [List.length_nil, List.length_range', pushedCount, takenCount] at hLength
      omega
  refine ⟨hProducer, hAll, hConsumer, ?_⟩
  by_contra hBroke
  have hNext := hIterate .consumer
  simp [step, Monitor.step, hConsumer, hBroke] at hNext

/-- **The consumer prints the values in the order in which they were produced**, in every
interleaving and with spurious wake-ups, and when neither thread can go on, both have returned
and all five values are printed. The mutex may be given to either thread whenever it is free. -/
theorem shared_state_contract (h : system.Reachable s) :
    s.consumed = List.range s.consumed.length ∧ s.consumed.length ≤ 5 ∧
      ((∀ t, step s (.iterate t) = none) → (∀ t pick, step s (.run t pick) = none) →
        s.Finished ∧ s.consumed = [0, 1, 2, 3, 4]) := by
  have hInv := inv_reachable h
  refine ⟨hInv.printed, ?_, ?_⟩
  · have hOk := hInv.consumer
    generalize s.data_queue.pc .consumer = pc at hOk
    cases pc with
    | idle => exact hOk.1
    | notify => exact hOk.elim
    | lock | inside | asleep | relock | recheck | unlock => exact Nat.le_of_lt hOk.2.1
  · intro hIterate hRun
    have hFinished := hInv.finished hIterate hRun
    obtain ⟨-, -, hConsumer, hBroke⟩ := hFinished
    have hOk := hInv.consumer
    rw [hConsumer] at hOk
    refine ⟨hInv.finished hIterate hRun, ?_⟩
    rw [hInv.printed, hOk.2.mp hBroke]
    rfl

/-- Neither thread goes on after it has returned. -/
theorem State.Finished.quiet (h : s.Finished) :
    (∀ t, step s (.iterate t) = none) ∧ ∀ t pick, step s (.run t pick) = none := by
  obtain ⟨hProducer, hAll, hConsumer, hBroke⟩ := h
  constructor
  · intro t
    cases t <;> simp [step, hAll, hBroke]
  · intro t pick
    cases t <;> simp [step, Monitor.run, hProducer, hConsumer]

instance (s : State) : Decidable s.Finished :=
  inferInstanceAs (Decidable (_ ∧ _ ∧ _ ∧ _))

/-- The consumer is first and waits, wakes up for nothing, is woken by the first value, and
the others are all there before it goes on. -/
theorem shared_state_contract_run :
    ∃ s, system.Reachable s ∧ s.Finished ∧ s.consumed = [0, 1, 2, 3, 4] := by
  obtain ⟨s, hs, hFinished⟩ := System.exists_reachable_of_exec (S := system) (p := State.Finished)
    (List.flatten [[.iterate .consumer, .run .consumer 0, .run .consumer 0, .wakeUp .consumer,
        .run .consumer 0, .run .consumer 0],
      (List.replicate 5 (.iterate .producer :: List.replicate 4 (.run .producer 0))).flatten,
      List.replicate 3 (.run .consumer 0),
      (List.replicate 4 (.iterate .consumer :: List.replicate 3 (.run .consumer 0))).flatten])
    (by decide +kernel)
  obtain ⟨hIterate, hRun⟩ := hFinished.quiet
  exact ⟨s, hs, (shared_state_contract hs).2.2 hIterate hRun⟩

end EmbLinux.SynchronizingConcurrency.SharedState
