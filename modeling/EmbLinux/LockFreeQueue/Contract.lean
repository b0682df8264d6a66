import EmbLinux.Lib.Fifo
import EmbLinux.Lib.History
import EmbLinux.Lib.RingBuffer
import EmbLinux.LockFreeQueue.Model

/-!
# EmbLinux — the single-producer single-consumer contract

`LockFreeQueue` refines the bounded abstract queue: `Refines` relates a state of
the ring with the abstract queue that holds the same unread values, at every
program point of both threads. The publishing stores are the abstract
operations, every other access is a stutter.

Main results:

* `simulates_fifo` — every reachable state of the ring refines a reachable
  state of the abstract queue of `Capacity` items;
* `answers_eq` — the calls and answers that the two threads see are the history
  which the state keeps;
* `spsc_contract` — order, count, bound, the two failure answers, and the
  disjointness of the cells that the two threads touch. It speaks of the answers.

What is assumed is in the type of the threads: one thread calls `push` and one calls `pop`. The
memory is sequentially consistent, so the acquire and release orders are the strongest ones here.
-/

namespace EmbLinux.LockFreeQueue

open RingBuffer

variable {α : Type*} {Capacity : Nat}

/-- What the producer knows at each of its program points. -/
def ProducerOk (Capacity : Nat) (s : State α) (items : List α) : Prop :=
  match s.producer with
  | .idle _ | .loadTail _ => True
  | .loadHead _ currentTail => currentTail = s.tail
  | .writeCell _ currentTail => currentTail = s.tail ∧ items.length < Capacity
  | .storeTail value currentTail =>
    currentTail = s.tail ∧ items.length < Capacity ∧ s.buffer s.tail = value

/-- What the consumer knows at each of its program points. -/
def ConsumerOk (s : State α) (items : List α) : Prop :=
  match s.consumer with
  | .idle _ | .loadHead => True
  | .loadTail currentHead => currentHead = s.head
  | .readCell currentHead => currentHead = s.head ∧ items ≠ []
  | .storeHead currentHead value => currentHead = s.head ∧ items.head? = some value

/-- The first item whose cell still holds its value: once the consumer has moved
the front value out of its cell, the cell holds a leftover. -/
def Consumer.moved : Consumer α → Nat
  | .storeHead _ _ => 1
  | _ => 0

/-- The ring `s` represents the abstract queue `q`. -/
structure Refines (Capacity : Nat) (s : State α) (q : Fifo α) : Prop where
  pushed : q.pushed = s.pushed
  popped : q.popped = s.popped
  head_lt : s.head < kRealCapacity Capacity
  /-- The tail is as many cells behind the head as there are items. -/
  tail_eq : s.tail = slot (kRealCapacity Capacity) s.head q.items.length
  /-- The items are in their cells; the consumer may have moved the first one out. -/
  cells : ∀ i v, s.consumer.moved ≤ i → q.items[i]? = some v →
    s.buffer (slot (kRealCapacity Capacity) s.head i) = v
  /-- What the producer has read and not stored yet. -/
  producer : ProducerOk Capacity s q.items
  /-- What the consumer has read and not stored yet. -/
  consumer : ConsumerOk s q.items

/-- The abstract queue has room while it holds fewer than `Capacity` items. -/
def room (Capacity n : Nat) : Bool := n < Capacity

variable {s s' : State α} {q : Fifo α}

theorem Refines.full_iff (h : Refines Capacity s q) (hLen : q.items.length ≤ Capacity) :
    (s.tail + 1) % kRealCapacity Capacity = s.head ↔ q.items.length = Capacity := by
  rw [h.tail_eq, next_slot_eq_head_iff h.head_lt (by unfold kRealCapacity; omega), kRealCapacity]
  omega

/-- Equal indices mean an empty queue. -/
theorem Refines.empty_iff (h : Refines Capacity s q) (hLen : q.items.length ≤ Capacity) :
    s.head = s.tail ↔ q.items = [] := by
  rw [h.tail_eq, eq_comm, slot_eq_head_iff h.head_lt (by unfold kRealCapacity; omega),
    List.length_eq_zero_iff]

/-- While there is room, the producer's cell holds no item. -/
theorem Refines.tail_ne_slot (h : Refines Capacity s q) (hLen : q.items.length < Capacity)
    {i : Nat} (hi : i < q.items.length) : slot (kRealCapacity Capacity) s.head i ≠ s.tail := by
  rw [h.tail_eq]
  intro hEq
  have := slot_inj h.head_lt (by unfold kRealCapacity; omega) (by unfold kRealCapacity; omega) hEq
  omega

-- ---------------------------------------------------------------------------
-- The accesses of `push`
-- ---------------------------------------------------------------------------

/-- The accesses of `push` are none or one operation of the bounded FIFO queue: the store of
`m_tail` is its push. -/
theorem refines_push (h : Refines Capacity s q) (hLen : q.items.length ≤ Capacity)
    (hst : push Capacity s = some s') :
    ∃ ops q', (Fifo.system α (room Capacity)).exec q ops = some q' ∧ Refines Capacity s' q' := by
  have hP := h.producer
  unfold push at hst
  unfold ProducerOk at hP
  cases hpc : s.producer with
  | idle r => simp [hpc] at hst
  | loadTail value =>
    simp only [hpc, Option.some.injEq] at hst
    subst hst
    exact ⟨[], q, rfl, { h with producer := rfl }⟩
  | loadHead value currentTail =>
    -- the head that is read here is the current one, but may be old at the next access
    simp only [hpc] at hst hP
    subst hP
    split at hst
    · cases hst
      exact ⟨[], q, rfl, { h with producer := trivial }⟩
    · next hNotFull =>
      cases hst
      rw [h.full_iff hLen] at hNotFull
      exact ⟨[], q, rfl, { h with producer := ⟨rfl, by omega⟩ }⟩
  | writeCell value currentTail =>
    simp only [hpc, Option.some.injEq] at hst hP
    obtain ⟨rfl, hRoom⟩ := hP
    subst hst
    refine ⟨[], q, rfl, { h with cells := ?_, producer := ?_ }⟩
    · intro i v hi hv
      have hlt : i < q.items.length := (List.getElem?_eq_some_iff.mp hv).1
      show Function.update s.buffer s.tail value _ = v
      rw [Function.update_of_ne (h.tail_ne_slot hRoom hlt)]
      exact h.cells i v hi hv
    · exact ⟨rfl, hRoom, Function.update_self ..⟩
  | storeTail value currentTail =>
    -- the publishing store is the abstract `push`
    simp only [hpc, Option.some.injEq] at hst hP
    obtain ⟨rfl, hRoom, hCell⟩ := hP
    subst hst
    refine ⟨[.push value], _, Fifo.exec_push (by simpa [room] using hRoom), ?_⟩
    refine { h with pushed := ?_, tail_eq := ?_, cells := ?_, producer := trivial, consumer := ?_ }
    · simp [h.pushed]
    · rw [h.tail_eq, next_slot]
      simp
    · intro i v hi hv
      by_cases hlt : i < q.items.length
      · rw [List.getElem?_append_left hlt] at hv
        exact h.cells i v hi hv
      · -- the new item sits in the producer's cell
        have hi' : i = q.items.length := by
          have := (List.getElem?_eq_some_iff.mp hv).1
          simp only [List.length_append, List.length_singleton] at this
          omega
        subst hi'
        rw [← h.tail_eq, hCell]
        simpa using hv
    · -- the front item is still in front
      have hC := h.consumer
      unfold ConsumerOk at hC ⊢
      cases hc : s.consumer <;> simp only [hc] at hC ⊢
      · exact hC
      · exact ⟨hC.1, by simp⟩
      · exact ⟨hC.1, by rw [List.head?_append, hC.2]; rfl⟩

-- ---------------------------------------------------------------------------
-- The accesses of `pop`
-- ---------------------------------------------------------------------------

/-- The store of `m_head` is its pop. -/
theorem refines_pop {leftover : α} (h : Refines Capacity s q) (hLen : q.items.length ≤ Capacity)
    (hst : pop Capacity leftover s = some s') :
    ∃ ops q', (Fifo.system α (room Capacity)).exec q ops = some q' ∧ Refines Capacity s' q' := by
  have hC := h.consumer
  have hCells := h.cells
  unfold pop at hst
  unfold ConsumerOk at hC
  cases hpc : s.consumer with
  | idle r => simp [hpc] at hst
  | loadHead =>
    simp only [hpc, Option.some.injEq] at hst hCells
    subst hst
    exact ⟨[], q, rfl, { h with cells := hCells, consumer := rfl }⟩
  | loadTail currentHead =>
    simp only [hpc] at hst hC hCells
    subst hC
    split at hst
    · cases hst
      exact ⟨[], q, rfl, { h with cells := hCells, consumer := trivial }⟩
    · next hNotEmpty =>
      cases hst
      rw [h.empty_iff hLen] at hNotEmpty
      exact ⟨[], q, rfl, { h with cells := hCells, consumer := ⟨rfl, hNotEmpty⟩ }⟩
  | readCell currentHead =>
    simp only [hpc, Option.some.injEq] at hst hC hCells
    obtain ⟨rfl, hNe⟩ := hC
    subst hst
    obtain ⟨v, rest, hItems⟩ := List.exists_cons_of_ne_nil hNe
    have hFront : s.buffer s.head = v := by
      simpa [slot_zero h.head_lt] using hCells 0 v (Nat.zero_le _) (by simp [hItems])
    refine ⟨[], q, rfl, { h with cells := ?_, producer := ?_, consumer := ?_ }⟩
    · intro i w hi hw
      have hlt : i < q.items.length := (List.getElem?_eq_some_iff.mp hw).1
      -- only the front cell loses its value
      have hne : slot (kRealCapacity Capacity) s.head i ≠ s.head := by
        rw [Ne, slot_eq_head_iff h.head_lt (by unfold kRealCapacity; omega)]
        simp only [Consumer.moved] at hi
        omega
      show Function.update s.buffer s.head leftover _ = w
      rw [Function.update_of_ne hne]
      exact hCells i w (Nat.zero_le _) hw
    · -- the producer's cell is not the one read
      have hP := h.producer
      unfold ProducerOk at hP ⊢
      cases hp : s.producer <;> simp only [hp] at hP ⊢ <;> try exact hP
      obtain ⟨h1, h2, h3⟩ := hP
      have hne : s.tail ≠ s.head := by
        rw [ne_comm, Ne, h.empty_iff hLen]
        exact hNe
      exact ⟨h1, h2, by rw [Function.update_of_ne hne, h3]⟩
    · exact ⟨rfl, by rw [hFront, hItems]; rfl⟩
  | storeHead currentHead value =>
    -- the publishing store is the abstract `pop`
    simp only [hpc, Option.some.injEq] at hst hC hCells
    obtain ⟨rfl, hHead⟩ := hC
    subst hst
    obtain ⟨rest, hItems⟩ : ∃ rest, q.items = value :: rest := List.head?_eq_some_iff.mp hHead
    refine ⟨[.pop], _, Fifo.exec_pop hItems, ?_⟩
    refine { pushed := h.pushed, popped := ?_, head_lt := Nat.mod_lt _ (Nat.succ_pos _),
             tail_eq := ?_, cells := ?_, producer := ?_, consumer := trivial }
    · simp [h.popped]
    · rw [h.tail_eq, hItems, List.length_cons, slot_next]
    · intro i v _ hv
      rw [slot_next]
      exact hCells (i + 1) v (by simp [Consumer.moved]) (by simpa [hItems] using hv)
    · -- one item fewer leaves the room that the producer counted on
      have hP := h.producer
      unfold ProducerOk at hP ⊢
      cases hp : s.producer <;> simp only [hp, hItems, List.length_cons] at hP ⊢
      · exact hP
      · exact ⟨hP.1, by omega⟩
      · exact ⟨hP.1, by omega, hP.2.2⟩

-- ---------------------------------------------------------------------------
-- Every run
-- ---------------------------------------------------------------------------

/-- So is every step. -/
theorem refines_step {a : Action α} (h : Refines Capacity s q) (hLen : q.items.length ≤ Capacity)
    (hst : step Capacity s a = some s') :
    ∃ ops q', (Fifo.system α (room Capacity)).exec q ops = some q' ∧ Refines Capacity s' q' := by
  cases a with
  | callPush value =>
    simp only [step] at hst
    split at hst
    · cases hst
      exact ⟨[], q, rfl, { h with producer := trivial }⟩
    · cases hst
  | producer => exact refines_push h hLen hst
  | callPop =>
    simp only [step] at hst
    split at hst
    · next r hpc =>
      cases hst
      have hCells := h.cells
      simp only [hpc] at hCells
      exact ⟨[], q, rfl, { h with cells := hCells, consumer := trivial }⟩
    · cases hst
  | consumer leftover => exact refines_pop h hLen hst

theorem refines_init [Inhabited α] :
    Refines Capacity (init α) (Fifo.system α (room Capacity)).init where
  pushed := rfl
  popped := rfl
  head_lt := Nat.succ_pos _
  tail_eq := rfl
  cells := by simp [Fifo.system]
  producer := trivial
  consumer := trivial

/-- The bounded queue keeps its bound. -/
theorem items_length_le (h : (Fifo.system α (room Capacity)).Reachable q) :
    q.items.length ≤ Capacity :=
  Fifo.length_le (fun n hn => by simpa [room] using hn) h

/-- **Refinement.** Whatever the interleaving, the ring behaves as the abstract
queue of `Capacity` items. -/
theorem simulates_fifo [Inhabited α] (h : (system α Capacity).Reachable s) :
    ∃ q, (Fifo.system α (room Capacity)).Reachable q ∧ Refines Capacity s q :=
  h.simulate (R := Refines Capacity) refines_init fun _ _ _ _ hq hR _ hst =>
    refines_step hR (items_length_le hq) hst

-- ---------------------------------------------------------------------------
-- The answers
-- ---------------------------------------------------------------------------

/-- What the two threads have seen: the value with which `push` was called last, the
values whose `push` returned true, and the values that `pop` returned. -/
structure Answers (α : Type*) where
  argument : Option α
  accepted : List α
  returned : List α

/-- The answers after a step. A call that is running returns when its thread is idle
again, with the answer that is left there. -/
def Answers.after (_ : State α) (a : Action α) (s' : State α) (r : Answers α) : Answers α :=
  match a with
  | .callPush value => { r with argument := some value }
  | .callPop => r
  | .producer =>
    match s'.producer with
    | .idle (some true) => { r with accepted := r.accepted ++ r.argument.toList }
    | _ => r
  | .consumer _ =>
    match s'.consumer with
    | .idle (some (some value)) => { r with returned := r.returned ++ [value] }
    | _ => r

/-- The values that `push` has accepted and `pop` has not returned. -/
def Answers.unread (r : Answers α) : List α :=
  r.accepted.drop r.returned.length

/-- The queue of the two threads, with what they see of it. -/
def observed (α : Type*) [Inhabited α] (Capacity : Nat) :
    System (State α × Answers α) (Action α) :=
  (system α Capacity).observed ⟨none, [], []⟩ Answers.after

/-- The value of the `push` that is running. -/
def Producer.value? : Producer α → Option α
  | .idle _ => none
  | .loadTail value => some value
  | .loadHead value _ => some value
  | .writeCell value _ => some value
  | .storeTail value _ => some value

/-- The answers are the history that the state keeps. -/
structure Answered (s : State α) (r : Answers α) : Prop where
  accepted : r.accepted = s.pushed
  returned : r.returned = s.popped
  argument : ∀ value, s.producer.value? = some value → r.argument = some value

variable {r : Answers α}

/-- What a producer is told is what the history notes. -/
theorem answered_push (h : Answered s r) (hst : push Capacity s = some s') :
    Answered s' (r.after s .producer s') := by
  unfold push at hst
  cases hpc : s.producer with
  | idle result => simp [hpc] at hst
  | loadTail value =>
    simp only [hpc, Option.some.injEq] at hst
    subst hst
    exact ⟨h.accepted, h.returned, fun v hv => h.argument v (by rw [hpc]; exact hv)⟩
  | loadHead value currentTail =>
    simp only [hpc] at hst
    split at hst <;> cases hst
    · exact ⟨h.accepted, h.returned, nofun⟩
    · exact ⟨h.accepted, h.returned, fun v hv => h.argument v (by rw [hpc]; exact hv)⟩
  | writeCell value currentTail =>
    simp only [hpc, Option.some.injEq] at hst
    subst hst
    exact ⟨h.accepted, h.returned, fun v hv => h.argument v (by rw [hpc]; exact hv)⟩
  | storeTail value currentTail =>
    -- the call returns true here, with the argument that it was given
    have hArgument : r.argument = some value := h.argument value (by rw [hpc]; rfl)
    simp only [hpc, Option.some.injEq] at hst
    subst hst
    refine ⟨?_, h.returned, nofun⟩
    show r.accepted ++ r.argument.toList = s.pushed ++ [value]
    rw [h.accepted, hArgument]
    rfl

/-- So is what a consumer is told. -/
theorem answered_pop {leftover : α} (h : Answered s r) (hst : pop Capacity leftover s = some s') :
    Answered s' (r.after s (.consumer leftover) s') := by
  unfold pop at hst
  cases hpc : s.consumer <;> simp only [hpc, reduceCtorEq, Option.some.injEq] at hst
  case loadHead =>
    subst hst
    exact ⟨h.accepted, h.returned, h.argument⟩
  case loadTail currentHead =>
    split at hst <;> cases hst <;> exact ⟨h.accepted, h.returned, h.argument⟩
  case readCell currentHead =>
    subst hst
    exact ⟨h.accepted, h.returned, h.argument⟩
  case storeHead currentHead value =>
    subst hst
    refine ⟨h.accepted, ?_, h.argument⟩
    show r.returned ++ [value] = s.popped ++ [value]
    rw [h.returned]

/-- What the callers see is what the state says of the calls that have returned. -/
theorem answers_eq [Inhabited α] (h : (observed α Capacity).Reachable (s, r)) :
    Answered s r := by
  refine h.observed_invariant (I := Answered) ⟨rfl, rfl, nofun⟩ ?_
  intro s a s' r _ hI hst
  cases a with
  | callPush value =>
    simp only [system, step] at hst
    split at hst <;> cases hst
    exact ⟨hI.accepted, hI.returned, fun _ hValue => hValue⟩
  | producer => exact answered_push hI hst
  | callPop =>
    simp only [system, step] at hst
    split at hst <;> cases hst
    exact ⟨hI.accepted, hI.returned, hI.argument⟩
  | consumer leftover => exact answered_pop hI hst

/-- The unread values are the items of the abstract queue. -/
theorem unread_eq (hq : (Fifo.system α (room Capacity)).Reachable q)
    (h : Refines Capacity s q) (hA : Answered s r) : r.unread = q.items := by
  rw [Answers.unread, hA.accepted, hA.returned, ← h.pushed, ← h.popped, Fifo.pushed_eq hq,
    List.drop_left]

-- ---------------------------------------------------------------------------
-- The contract
-- ---------------------------------------------------------------------------

/-- What the queue promises one producer and one consumer in a state `s`, in which
they have seen the answers `r`. -/
structure SpscContract (Capacity : Nat) (s : State α) (r : Answers α) : Prop where
  /-- `pop` has returned the values whose `push` returned true, in order, each once. -/
  order : r.returned <+: r.accepted
  /-- The two indices tell how many values are unread. -/
  count : ((r.unread.length : Nat) : Int) = ((s.tail : Int) - s.head) % (Capacity + 1)
  bounded : r.unread.length ≤ Capacity
  /-- A step that makes `push` return false found the queue full. -/
  full : ∀ a s', step Capacity s a = some s' → s'.producer ≠ s.producer →
    s'.producer = .idle (some false) → r.unread.length = Capacity
  /-- A step that makes `pop` return nullopt found the queue empty. -/
  empty : ∀ a s', step Capacity s a = some s' → s'.consumer ≠ s.consumer →
    s'.consumer = .idle (some none) → r.unread = []
  /-- The producer is never about to write the cell that the consumer reads. -/
  disjoint : ∀ v c d, s.producer = .writeCell v c →
    (s.consumer = .readCell d ∨ ∃ w, s.consumer = .storeHead d w) → c ≠ d

/-- `push` returns false at its load of `m_head`, and only at a full queue. -/
theorem pushes_false_of_full {a : Action α} (h : Refines Capacity s q)
    (hLen : q.items.length ≤ Capacity) (hst : step Capacity s a = some s')
    (hNe : s'.producer ≠ s.producer) (hRet : s'.producer = .idle (some false)) :
    q.items.length = Capacity := by
  cases a with
  | callPush value =>
    simp only [step] at hst
    split at hst <;> cases hst
    cases hRet
  | producer =>
    have hP := h.producer
    simp only [step, push] at hst
    split at hst
    · cases hst
    · cases hst
      cases hRet
    · next value currentTail hpc =>
      simp only [ProducerOk, hpc] at hP
      subst hP
      split at hst
      · next hFull => exact (h.full_iff hLen).mp hFull
      · cases hst
        cases hRet
    · cases hst
      cases hRet
    · cases hst
      cases hRet
  | callPop =>
    simp only [step] at hst
    split at hst <;> cases hst
    exact absurd rfl hNe
  | consumer leftover =>
    simp only [step, pop] at hst
    split at hst <;> (try split at hst) <;> cases hst <;> exact absurd rfl hNe

/-- `pop` returns nullopt at its load of `m_tail`, and only at an empty one. -/
theorem pops_nullopt_of_empty {a : Action α} (h : Refines Capacity s q)
    (hLen : q.items.length ≤ Capacity) (hst : step Capacity s a = some s')
    (hNe : s'.consumer ≠ s.consumer) (hRet : s'.consumer = .idle (some none)) :
    q.items = [] := by
  cases a with
  | callPush value =>
    simp only [step] at hst
    split at hst <;> cases hst
    exact absurd rfl hNe
  | producer =>
    simp only [step, push] at hst
    split at hst <;> (try split at hst) <;> cases hst <;> exact absurd rfl hNe
  | callPop =>
    simp only [step] at hst
    split at hst <;> cases hst
    cases hRet
  | consumer leftover =>
    have hC := h.consumer
    simp only [step, pop] at hst
    split at hst
    · cases hst
    · cases hst
      cases hRet
    · next currentHead hpc =>
      simp only [ConsumerOk, hpc] at hC
      subst hC
      split at hst
      · next hEmpty => exact (h.empty_iff hLen).mp hEmpty
      · cases hst
        cases hRet
    · cases hst
      cases hRet
    · cases hst
      cases hRet

/-- The producer writes the cell behind the last value, which is not that of the first one. -/
theorem cells_disjoint (h : Refines Capacity s q) (hLen : q.items.length ≤ Capacity)
    {v : α} {c d : Nat} (hp : s.producer = .writeCell v c)
    (hc : s.consumer = .readCell d ∨ ∃ w, s.consumer = .storeHead d w) : c ≠ d := by
  have hP := h.producer
  have hC := h.consumer
  simp only [ProducerOk, hp] at hP
  have hNe : d = s.head ∧ q.items ≠ [] := by
    rcases hc with hc | ⟨w, hc⟩ <;> simp only [ConsumerOk, hc] at hC
    · exact hC
    · refine ⟨hC.1, ?_⟩
      rintro hNil
      simp [hNil] at hC
  rw [hP.1, hNe.1, ne_comm, Ne, h.empty_iff hLen]
  exact hNe.2

/-- **The single-producer single-consumer contract** holds at every program point
of both threads, for every capacity and every interleaving. The accesses are
sequentially consistent; more than one thread on a side is excluded, as the class
requires of its callers. -/
theorem spsc_contract [Inhabited α] (h : (observed α Capacity).Reachable (s, r)) :
    SpscContract Capacity s r := by
  have hA := answers_eq h
  obtain ⟨q, hq, hR⟩ := simulates_fifo h.of_observed
  have hLen := items_length_le hq
  have hUnread := unread_eq hq hR hA
  refine ⟨?_, ?_, ?_, ?_, ?_, ?_⟩
  · rw [hA.accepted, hA.returned, ← hR.pushed, ← hR.popped]
    exact Fifo.popped_prefix hq
  · rw [hUnread, hR.tail_eq]
    exact (slot_sub_head_emod hR.head_lt (by unfold kRealCapacity; omega)).symm
  · rw [hUnread]
    exact hLen
  · intro a s' hst hNe hRet
    rw [hUnread]
    exact pushes_false_of_full hR hLen hst hNe hRet
  · intro a s' hst hNe hRet
    rw [hUnread]
    exact pops_nullopt_of_empty hR hLen hst hNe hRet
  · intro v c d hp hc
    exact cells_disjoint hR hLen hp hc

/-- A queue of one cell that wraps: two values go through it in order. -/
theorem spsc_contract_wrap :
    ∃ (s : State Nat) (r : Answers Nat), (observed Nat 1).Reachable (s, r) ∧ r.returned = [7] ∧
      r.accepted = [7, 8] ∧ SpscContract 1 s r := by
  obtain ⟨⟨s, r⟩, hs, hp⟩ := System.exists_reachable_of_exec (S := observed Nat 1)
    (p := fun x => x.2.returned = [7] ∧ x.2.accepted = [7, 8])
    [.callPush 7, .producer, .producer, .callPop, .producer, .producer, .consumer 0, .consumer 0,
      .consumer 0, .callPush 8, .producer, .consumer 0, .producer, .producer, .producer] (by decide)
  exact ⟨s, r, hs, hp.1, hp.2, spsc_contract hs⟩

end EmbLinux.LockFreeQueue
