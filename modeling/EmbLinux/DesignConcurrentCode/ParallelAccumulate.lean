import EmbLinux.Lib.ForkJoin
import Mathlib.Algebra.BigOperators.Group.List.Basic

/-!
# EmbLinux — `parallel_accumulate` with `std::async`

The `parallel_accumulate` of `exceptionSafety.cpp` on the positions of a range, with the
`-1` that it throws for at the start of a chunk. The values are those of any monoid, in
their order; `T()` is its zero. `launch` gives the exception of `std::async` when it cannot
start a thread.

* `parallel_accumulate_contract` — in every interleaving the call returns the sum, and it
  throws exactly when some chunk starts with `-1`;
* `main_returns_the_sum` — `main` puts its `-1` at position 15, where no chunk starts: it
  does not throw.

The addition does not throw, and an element is what it was at the start: nobody writes to the
range. What can throw is the test at the start of a chunk, `std::async` itself, and the `get`
that passes an exception on.
-/

namespace EmbLinux.DesignConcurrentCode.ParallelAccumulate

-- ---------------------------------------------------------------------------
-- The algorithm
-- ---------------------------------------------------------------------------

/-- How a call can fail: the `std::runtime_error`, or that of `std::async`. -/
inductive Thrown
  | simulatedError
  | systemError
  deriving DecidableEq

/-- The arguments of a call. -/
structure Args (T : Type*) where
  first : Nat
  last : Nat
  le : first ≤ last
  init : T

instance {T : Type*} [DecidableEq T] : DecidableEq (Args T) := fun x y =>
  decidable_of_iff (x.first = y.first ∧ x.last = y.last ∧ x.init = y.init)
    (by cases x; cases y; simp)

/-- `max_chunk_size` -/
def maxChunkSize : Nat := 25

variable {T : Type*} [AddMonoid T]

/-- A call that does not split: its test of the first element, and then the steps of
`std::accumulate`. -/
inductive Chunk (T : Type*)
  | test (args : Args T)
  | accumulate (args : Args T)
  deriving DecidableEq

/-- `isTrigger` is the comparison with `-1`. -/
def next (data : Nat → T) (isTrigger : T → Bool) :
    Chunk T → Chunk T ⊕ Except Thrown T
  | .test args =>
    if 0 < args.last - args.first ∧ isTrigger (data args.first) = true then
      .inr (.error .simulatedError)
    else .inl (.accumulate args)
  | .accumulate args =>
    if hEnd : args.first = args.last then .inr (.ok args.init)
    else .inl (.accumulate ⟨args.first + 1, args.last, Nat.lt_of_le_of_ne args.le hEnd,
      args.init + data args.first⟩)

/-- `parallel_accumulate` as a fork and join: the first half goes to `std::async` with the
initial value, the second one begins at 0. -/
def parallelAccumulate (data : Nat → T) (isTrigger : T → Bool) (launches : Args T → Bool) :
    ForkJoin (Args T) (Chunk T) T Thrown Unit where
  fork args :=
    let length := args.last - args.first
    if length ≤ maxChunkSize then none
    else
      let midPoint := args.first + length / 2
      have hLe := args.le
      some (⟨args.first, midPoint, by omega, args.init⟩, ⟨midPoint, args.last, by omega, 0⟩)
  launch args := if launches args then none else some .systemError
  start args := .test args
  next _ b := ((), next data isTrigger b)
  join firstHalfResult secondHalfResult := firstHalfResult + secondHalfResult

/-- The positions where a call that does not split starts. -/
def chunkStarts (first last : Nat) : List Nat :=
  if last - first ≤ maxChunkSize then if first < last then [first] else []
  else
    chunkStarts first (first + (last - first) / 2) ++ chunkStarts (first + (last - first) / 2) last
termination_by last - first
decreasing_by
  all_goals
    unfold maxChunkSize at *
    omega

/-- The values from `first` up to `last`. -/
def values (data : Nat → T) (first last : Nat) : List T :=
  (List.range' first (last - first)).map data

variable {data : Nat → T} {isTrigger : T → Bool} {launches : Args T → Bool}

/-- Both halves have at least 13 elements, and the chunks of the whole are theirs. -/
theorem fork_some {args async direct : Args T}
    (h : (parallelAccumulate data isTrigger launches).fork args = some (async, direct)) :
    ∃ midPoint, ∃ hFirst : args.first + 13 ≤ midPoint, ∃ hLast : midPoint + 13 ≤ args.last,
      async = ⟨args.first, midPoint, by omega, args.init⟩ ∧
        direct = ⟨midPoint, args.last, by omega, 0⟩ ∧
        chunkStarts args.first args.last =
          chunkStarts args.first midPoint ++ chunkStarts midPoint args.last := by
  unfold parallelAccumulate at h
  by_cases hShort : args.last - args.first ≤ maxChunkSize
  · simp [hShort] at h
  · simp only [hShort, if_false, Option.some.injEq, Prod.mk.injEq] at h
    obtain ⟨rfl, rfl⟩ := h
    have hLong : 25 < args.last - args.first := Nat.lt_of_not_le hShort
    exact ⟨_, by omega, by omega, rfl, rfl, by rw [chunkStarts, if_neg hShort]⟩

/-- A call forks for more than 25 elements, -/
theorem fork_long {args async direct : Args T}
    (h : (parallelAccumulate data isTrigger launches).fork args = some (async, direct)) :
    maxChunkSize < args.last - args.first := by
  unfold parallelAccumulate at h
  by_cases hShort : args.last - args.first ≤ maxChunkSize
  · simp [hShort] at h
  · exact Nat.lt_of_not_le hShort

/-- and is one chunk otherwise. -/
theorem fork_none {args : Args T}
    (h : (parallelAccumulate data isTrigger launches).fork args = none) :
    chunkStarts args.first args.last = if args.first < args.last then [args.first] else [] := by
  unfold parallelAccumulate at h
  by_cases hShort : args.last - args.first ≤ maxChunkSize
  · rw [chunkStarts, if_pos hShort]
  · simp [hShort] at h

-- ---------------------------------------------------------------------------
-- The values of a part
-- ---------------------------------------------------------------------------

section

omit [AddMonoid T]

/-- The elements of an empty range, -/
theorem values_self (data : Nat → T) (first : Nat) : values data first first = [] := by
  simp [values]

/-- of two ranges one after the other, -/
theorem values_append (data : Nat → T) {first midPoint last : Nat} (hFirst : first ≤ midPoint)
    (hLast : midPoint ≤ last) :
    values data first last = values data first midPoint ++ values data midPoint last := by
  have hMid : first + (midPoint - first) = midPoint := by omega
  have hAll : last - first = (midPoint - first) + (last - midPoint) := by omega
  unfold values
  rw [hAll, ← List.map_append, ← List.range'_append_1, hMid]

/-- and of a range with one more element. -/
theorem values_succ (data : Nat → T) {first last : Nat} (h : first ≤ last) :
    values data first (last + 1) = values data first last ++ [data last] := by
  rw [values_append data h (Nat.le_succ last)]
  simp [values]

end

-- ---------------------------------------------------------------------------
-- The assertions
-- ---------------------------------------------------------------------------

/-- A chunk of the part starts with `-1`. -/
def Triggered (data : Nat → T) (isTrigger : T → Bool) (first last : Nat) : Prop :=
  ∃ i ∈ chunkStarts first last, isTrigger (data i) = true

/-- How a call has ended. -/
structure Ended (data : Nat → T) (isTrigger : T → Bool) (launches : Args T → Bool)
    (args : Args T) (r : Except Thrown T) : Prop where
  returned : ∀ value, r = .ok value →
    value = args.init + (values data args.first args.last).sum ∧
      ¬ Triggered data isTrigger args.first args.last
  simulated : r = .error .simulatedError → Triggered data isTrigger args.first args.last
  /-- No thread could be started for a part that a call of this one splits. -/
  system : r = .error .systemError →
    ∃ part, (parallelAccumulate data isTrigger launches).Below args part ∧
      maxChunkSize < part.last - part.first ∧ launches part = false

/-- What a chunk has done. -/
def Chunk.Ok (data : Nat → T) (isTrigger : T → Bool) (args : Args T) : Chunk T → Prop
  | .test args' => args' = args ∧
    chunkStarts args.first args.last = if args.first < args.last then [args.first] else []
  | .accumulate args' => args.first ≤ args'.first ∧ args'.last = args.last ∧
    args'.init = args.init + (values data args.first args'.first).sum ∧
    ¬ Triggered data isTrigger args.first args.last

variable {args : Args T} {b b' : Chunk T}

/-- The loop has added up what it has gone past. -/
theorem Chunk.Ok.again (h : b.Ok data isTrigger args) (hTurn : next data isTrigger b = .inl b') :
    b'.Ok data isTrigger args := by
  cases b with
  | test args' =>
    obtain ⟨rfl, hStarts⟩ := h
    simp only [next] at hTurn
    split at hTurn
    · simp at hTurn
    · next hQuiet =>
      obtain rfl := Sum.inl.inj hTurn
      refine ⟨Nat.le_refl _, rfl, by simp [values_self], ?_⟩
      rintro ⟨i, hi, hTrigger⟩
      rw [hStarts] at hi
      split at hi
      · next hSome =>
        obtain rfl := List.mem_singleton.mp hi
        exact hQuiet ⟨Nat.sub_pos_of_lt hSome, hTrigger⟩
      · simp at hi
  | accumulate args' =>
    obtain ⟨hFirst, hLast, hInit, hNot⟩ := h
    simp only [next] at hTurn
    split at hTurn
    · simp at hTurn
    · next hMore =>
      obtain rfl := Sum.inl.inj hTurn
      refine ⟨Nat.le_succ_of_le hFirst, hLast, ?_, hNot⟩
      show args'.init + data args'.first = _
      rw [hInit, values_succ data hFirst, List.sum_append, List.sum_singleton, add_assoc]

/-- At its end it has the sum, or it has thrown at its first element. -/
theorem Chunk.Ok.ends (h : b.Ok data isTrigger args) {r : Except Thrown T}
    (hTurn : next data isTrigger b = .inr r) : Ended data isTrigger launches args r := by
  cases b with
  | test args' =>
    obtain ⟨rfl, hStarts⟩ := h
    simp only [next] at hTurn
    split at hTurn
    · next hThrows =>
      obtain rfl := Sum.inr.inj hTurn
      refine ⟨fun value hOk => by simp at hOk, ?_, fun hError => by simp at hError⟩
      intro _
      refine ⟨args'.first, ?_, hThrows.2⟩
      rw [hStarts, if_pos (Nat.lt_of_sub_pos hThrows.1)]
      exact List.mem_singleton_self _
    · simp at hTurn
  | accumulate args' =>
    obtain ⟨hFirst, hLast, hInit, hNot⟩ := h
    simp only [next] at hTurn
    split at hTurn
    · next hEnd =>
      obtain rfl := Sum.inr.inj hTurn
      refine ⟨?_, fun hError => by simp at hError, fun hError => by simp at hError⟩
      intro value hOk
      obtain rfl := Except.ok.inj hOk
      exact ⟨by rw [hInit, hEnd, hLast], hNot⟩
    · simp at hTurn

/-- The ends of the two calls for the halves of a part. -/
theorem Ended.joined {midPoint : Nat} {async direct : Except Thrown T}
    (hFirst : args.first ≤ midPoint) (hLast : midPoint ≤ args.last)
    (hFork : (parallelAccumulate data isTrigger launches).fork args =
      some (⟨args.first, midPoint, hFirst, args.init⟩, ⟨midPoint, args.last, hLast, 0⟩))
    (hLaunch : (parallelAccumulate data isTrigger launches).launch args = none)
    (hStarts : chunkStarts args.first args.last =
      chunkStarts args.first midPoint ++ chunkStarts midPoint args.last)
    (hAsync : Ended data isTrigger launches ⟨args.first, midPoint, hFirst, args.init⟩ async)
    (hDirect : Ended data isTrigger launches ⟨midPoint, args.last, hLast, 0⟩ direct) :
    Ended data isTrigger launches args
      ((parallelAccumulate data isTrigger launches).joined async direct) := by
  have hTriggered : Triggered data isTrigger args.first args.last ↔
      Triggered data isTrigger args.first midPoint ∨
        Triggered data isTrigger midPoint args.last := by
    unfold Triggered
    simp only [hStarts, List.mem_append, or_and_right, exists_or]
  cases direct with
  | error e =>
    refine ⟨fun value hOk => by simp [ForkJoin.joined] at hOk, ?_, ?_⟩
    · intro hError
      exact hTriggered.mpr (Or.inr (hDirect.simulated hError))
    · intro hError
      obtain ⟨part, hBelow, hPart⟩ := hDirect.system hError
      exact ⟨part, .of_direct hFork hLaunch hBelow, hPart⟩
  | ok second =>
    cases async with
    | error e =>
      refine ⟨fun value hOk => by simp [ForkJoin.joined] at hOk, ?_, ?_⟩
      · intro hError
        exact hTriggered.mpr (Or.inl (hAsync.simulated hError))
      · intro hError
        obtain ⟨part, hBelow, hPart⟩ := hAsync.system hError
        exact ⟨part, .of_async hFork hLaunch hBelow, hPart⟩
    | ok first =>
      obtain ⟨hSum, hNot⟩ := hAsync.returned first rfl
      obtain ⟨hSum', hNot'⟩ := hDirect.returned second rfl
      refine ⟨?_, fun hError => by simp [ForkJoin.joined] at hError,
        fun hError => by simp [ForkJoin.joined] at hError⟩
      intro value hOk
      obtain rfl := Except.ok.inj hOk
      refine ⟨?_, fun h => (hTriggered.mp h).elim hNot hNot'⟩
      show first + second = _
      rw [hSum, hSum', zero_add, add_assoc, ← List.sum_append, ← values_append data hFirst hLast]

/-- What each call of the tree knows; a call knows nothing of the others, since they share
nothing. -/
theorem outline (data : Nat → T) (isTrigger : T → Bool) (launches : Args T → Bool) :
    ForkJoin.Outline (parallelAccumulate data isTrigger launches) (fun _ _ => True)
      (fun _ => True) (fun _ _ => True) (fun args _ b => b.Ok data isTrigger args)
      fun args _ r => Ended data isTrigger launches args r where
  fork _ _ _ _ _ _ := ⟨trivial, trivial⟩
  launch args async direct s e hFork hLaunch _ := by
    simp only [parallelAccumulate] at hLaunch
    split at hLaunch
    · simp at hLaunch
    · next hNot =>
      obtain rfl := Option.some.inj hLaunch
      exact ⟨fun value hOk => by simp at hOk, fun hError => by simp at hError,
        fun _ => ⟨args, .refl, fork_long hFork, Bool.eq_false_iff.mpr hNot⟩⟩
  start args s hFork _ := ⟨rfl, fork_none hFork⟩
  again args s b b' _ hLoop hTurn := hLoop.again hTurn
  ends args s b r _ hLoop hTurn := hLoop.ends hTurn
  keeps _ _ _ _ _ := trivial
  join args async direct s r r' hFork hLaunch hAsync hDirect := by
    obtain ⟨midPoint, hLow, hHigh, rfl, rfl, hStarts⟩ := fork_some hFork
    exact Ended.joined (by omega) (by omega) hFork hLaunch hStarts hAsync hDirect
  apart_symm _ _ _ := trivial
  apart_fork _ _ _ _ := trivial
  apart_below _ _ _ _ _ _ := ⟨trivial, trivial⟩
  frame _ _ _ _ _ _ _ := ⟨id, fun _ => id, fun _ => id⟩

/-- What is left to do of a chunk. -/
def Chunk.left : Chunk T → Nat
  | .test args => args.last - args.first + 1
  | .accumulate args => args.last - args.first

/-- A bound for the steps of a call for `length` elements. -/
def stepBound (length : Nat) : Nat := max 3 (7 * length - 3)

/-- The number of steps of a call is bounded by the length of its range. -/
theorem descent (data : Nat → T) (isTrigger : T → Bool) (launches : Args T → Bool) :
    ForkJoin.Descent (parallelAccumulate data isTrigger launches)
      (fun args => stepBound (args.last - args.first)) Chunk.left where
  fork args async direct hFork := by
    obtain ⟨midPoint, hLow, hHigh, rfl, rfl, -⟩ := fork_some hFork
    simp only [stepBound]
    omega
  start args hFork := by
    show args.last - args.first + 1 + 2 ≤ stepBound (args.last - args.first)
    unfold stepBound
    omega
  next s b b' hTurn := by
    have hTurn' : next data isTrigger b = .inl b' := hTurn
    cases b with
    | test args =>
      simp only [next] at hTurn'
      split at hTurn'
      · simp at hTurn'
      · obtain rfl := Sum.inl.inj hTurn'
        simp only [Chunk.left]
        omega
    | accumulate args =>
      simp only [next] at hTurn'
      split at hTurn'
      · simp at hTurn'
      · next hMore =>
        have hLe := args.le
        obtain rfl := Sum.inl.inj hTurn'
        simp only [Chunk.left]
        omega

-- ---------------------------------------------------------------------------
-- The contract
-- ---------------------------------------------------------------------------

/-- The outermost call, with all calls below it. -/
abbrev call (data : Nat → T) (isTrigger : T → Bool) (launches : Args T → Bool) (args : Args T) :
    System (Unit × ForkJoin.Call (Args T) (Chunk T) T Thrown) (List ForkJoin.Branch) :=
  (parallelAccumulate data isTrigger launches).system () args

/-- What a call promises in every state. -/
structure Contract (data : Nat → T) (isTrigger : T → Bool) (launches : Args T → Bool)
    (args : Args T) (x : Unit × ForkJoin.Call (Args T) (Chunk T) T Thrown) : Prop where
  result : ∀ r, x.2 = .finished r → Ended data isTrigger launches args r
  /-- With its threads the result is the same in every interleaving. -/
  same : (∀ part, (parallelAccumulate data isTrigger launches).Below args part →
      launches part = true) → ∀ r, x.2 = .finished r →
    (Triggered data isTrigger args.first args.last ∧ r = .error .simulatedError ∨
      ¬ Triggered data isTrigger args.first args.last ∧
        r = .ok (args.init + (values data args.first args.last).sum))
  ends : (∃ schedule s r, (call data isTrigger launches args).exec x schedule =
      some (s, .finished r)) ∧
    ∀ schedule y, (call data isTrigger launches args).exec x schedule = some y →
      schedule.length ≤ stepBound (args.last - args.first)

/-- **Every interleaving of `parallel_accumulate` keeps the contract**, for any monoid, any
range and whichever of the threads cannot be started. The elements that throw are any; that the
operation is associative is needed, as the partial sums are joined by it. -/
theorem parallel_accumulate_contract {x : Unit × ForkJoin.Call (Args T) (Chunk T) T Thrown}
    (hx : (call data isTrigger launches args).Reachable x) :
    Contract data isTrigger launches args x := by
  obtain ⟨-, hOk⟩ := (outline data isTrigger launches).reachable trivial trivial hx
  have hResult : ∀ r, x.2 = .finished r → Ended data isTrigger launches args r := by
    intro r hr
    rw [hr] at hOk
    exact hOk
  refine ⟨hResult, ?_, (descent data isTrigger launches).exists_finished hx,
    fun _ _ => (descent data isTrigger launches).length_le hx⟩
  intro hLaunches r hr
  have hEnded := hResult r hr
  cases r with
  | ok value =>
    obtain ⟨rfl, hNot⟩ := hEnded.returned value rfl
    exact Or.inr ⟨hNot, rfl⟩
  | error e =>
    cases e with
    | simulatedError => exact Or.inl ⟨hEnded.simulated rfl, rfl⟩
    | systemError =>
      obtain ⟨part, hBelow, -, hPart⟩ := hEnded.system rfl
      simp [hLaunches part hBelow] at hPart

/-- Thirty elements with a `-1` where the second chunk starts. -/
theorem parallel_accumulate_contract_thirty :
    ∃ x : Unit × ForkJoin.Call (Args Int) (Chunk Int) Int Thrown,
      x.2 = .finished (.error .simulatedError) ∧
      Contract (Function.update (fun _ => 1) 15 (-1)) (fun n => n == -1) (fun _ => true)
        ⟨0, 30, by omega, 0⟩ x := by
  obtain ⟨x, hx, hEnd⟩ := System.exists_reachable_of_exec
    (S := call (Function.update (fun _ => 1) 15 (-1) : Nat → Int) (fun n => n == -1)
      (fun _ => true) ⟨0, 30, by omega, 0⟩)
    (p := fun x => x.2 = .finished (.error .simulatedError))
    (List.flatten [[[], [.direct], [.async], [.direct]], List.replicate 17 [.async], [[]]])
    (by decide +kernel)
  exact ⟨x, hEnd, parallel_accumulate_contract hx⟩

-- ---------------------------------------------------------------------------
-- `main`
-- ---------------------------------------------------------------------------

/-- `std::vector<int> data(100, 1); data[15] = -1;` -/
def mainData : Nat → Int := Function.update (fun _ => 1) 15 (-1)

/-- No chunk of `main` begins at an element that throws. -/
theorem mainData_not_triggered : ¬ Triggered mainData (fun n => n == -1) 0 100 := by
  have hStarts : chunkStarts 0 100 = [0, 25, 50, 75] := by simp [chunkStarts, maxChunkSize]
  unfold Triggered
  rw [hStarts]
  decide

/-- No chunk of `main` starts at its `-1`: whatever the interleaving, nothing is thrown and
the result is 98. -/
theorem main_returns_the_sum {x : Unit × ForkJoin.Call (Args Int) (Chunk Int) Int Thrown}
    {r : Except Thrown Int}
    (hx : (call mainData (fun n => n == -1) (fun _ => true) ⟨0, 100, by omega, 0⟩).Reachable x)
    (hEnd : x.2 = .finished r) : r = .ok 98 := by
  have hSum : (values mainData 0 100).sum = 98 := by decide +kernel
  rcases (parallel_accumulate_contract hx).same (fun _ _ => rfl) r hEnd with
    ⟨hTriggered, -⟩ | ⟨-, hOk⟩
  · exact absurd hTriggered mainData_not_triggered
  · rw [hOk]
    simp [hSum]

end EmbLinux.DesignConcurrentCode.ParallelAccumulate
