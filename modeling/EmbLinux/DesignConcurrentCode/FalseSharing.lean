import EmbLinux.Lib.Measure
import Mathlib.Data.Nat.ModEq

/-!
# EmbLinux — `falseSharing.cpp`

The two functions that increment the elements of a vector with `NUM_THREADS` threads:
`bad_concurrent_processing`, whose workers go through the vector in strides, and
`good_concurrent_processing`, whose workers have a chunk each. They differ in the loop of the
worker only. `data[i]++` is a load and a store.

The vector is any. A thread that cannot be started is outside. An increment of `INT_MAX` is
not defined: `overflow` says that one was made.

* `Splits` — each element is in the loop of one worker; `splits_bad` and `splits_good`.
* `processing_contract` — for a vector without an `INT_MAX`, in every interleaving no two
  workers are at one element, each element is incremented once, and the call ends.

Nothing is assumed of the schedule: the elements of two workers are different, so the order of
their loads and stores does not matter.
-/

namespace EmbLinux.DesignConcurrentCode.FalseSharing

-- ---------------------------------------------------------------------------
-- The two functions
-- ---------------------------------------------------------------------------

/-- `NUM_THREADS` -/
def numThreads : Nat := 4

/-- `for (size_t i = first; i < last; i += stride)` -/
structure Loop where
  first : Nat
  last : Nat
  stride : Nat

/-- The loop of the worker of `bad_concurrent_processing`. -/
def badLoop (size thread_id : Nat) : Loop where
  first := thread_id
  last := size
  stride := numThreads

/-- The loop of the worker of `good_concurrent_processing`. -/
def goodLoop (size thread_id : Nat) : Loop :=
  let chunk_size := size / numThreads
  let start := thread_id * chunk_size
  { first := start
    last := if thread_id = numThreads - 1 then size else start + chunk_size
    stride := 1 }

/-- The two functions of the file. -/
inductive Processing
  | bad
  | good

/-- The loop of each thread in them. -/
def Processing.loop : Processing → Nat → Nat → Loop
  | .bad => badLoop
  | .good => goodLoop

/-- Where a worker stands: before the test of its loop, the load or the store of
`data[i]++`. -/
inductive Pc
  | unstarted
  | test (i : Nat)
  | load (i : Nat)
  | store (i : Nat) (value : Int)
  | ended
  deriving DecidableEq

/-- The caller starts thread `k`, or joins it. -/
inductive Main
  | start (k : Nat)
  | join (k : Nat)
  | returned
  deriving DecidableEq

/-- `INT_MAX` -/
def intMax : Int := 2 ^ 31 - 1

/-- The vector, where each worker and the caller stand, and whether an `int` has overflowed. -/
structure State where
  data : Nat → Int
  overflow : Bool
  worker : Nat → Pc
  main : Main

/-- A step of the caller or of a worker. -/
inductive Action
  | main
  | worker (t : Nat)

def State.setPc (s : State) (t : Nat) (pc : Pc) : State :=
  { s with worker := Function.update s.worker t pc }

/-- The caller starts the workers in order and joins them in order. -/
def runMain (loop : Nat → Loop) (s : State) : Option State :=
  match s.main with
  | .start k =>
    if k < numThreads then some { s.setPc k (.test (loop k).first) with main := .start (k + 1) }
    else some { s with main := .join 0 }
  | .join k =>
    if k < numThreads then
      if s.worker k = .ended then some { s with main := .join (k + 1) } else none
    else some { s with main := .returned }
  | .returned => none

/-- A worker makes `data[i]++` in two accesses, a load and a store. The increment of `INT_MAX`
is undefined; the model goes on and notes it. -/
def runWorker (l : Loop) (s : State) (t : Nat) : Option State :=
  match s.worker t with
  | .unstarted | .ended => none
  | .test i => some (s.setPc t (if i < l.last then .load i else .ended))
  | .load i => some (s.setPc t (.store i (s.data i)))
  | .store i value =>
    some { s.setPc t (.test (i + l.stride)) with
      data := Function.update s.data i (value + 1)
      overflow := s.overflow || decide (intMax ≤ value) }

/-- One access, or one start or join. -/
def step (loop : Nat → Loop) (s : State) : Action → Option State
  | .main => runMain loop s
  | .worker t => runWorker (loop t) s t

/-- A vector with its first contents, and nobody started. -/
def system (first : Nat → Int) (loop : Nat → Loop) : System State Action where
  init := ⟨first, false, fun _ => .unstarted, .start 0⟩
  step := step loop

-- ---------------------------------------------------------------------------
-- The elements of a loop
-- ---------------------------------------------------------------------------

/-- The loop comes to element `i`. -/
def Loop.Visits (l : Loop) (i : Nat) : Prop :=
  l.first ≤ i ∧ i < l.last ∧ l.stride ∣ i - l.first

/-- Each element of a vector of this size is in the loop of one worker. -/
structure Splits (size : Nat) (loop : Nat → Loop) : Prop where
  advances : ∀ t, 0 < (loop t).stride
  inside : ∀ t < numThreads, (loop t).last ≤ size
  covers : ∀ i < size, ∃ t < numThreads, (loop t).Visits i
  apart : ∀ t < numThreads, ∀ u < numThreads, ∀ i, (loop t).Visits i → (loop u).Visits i → t = u

/-- There is a thread, so the strides are positive. -/
theorem numThreads_pos : 0 < numThreads := by decide

/-- Every fourth element: the residues modulo the number of threads. -/
theorem splits_bad (size : Nat) : Splits size (badLoop size) := by
  refine ⟨fun _ => numThreads_pos, fun _ _ => Nat.le_refl _, ?_, ?_⟩
  · intro i hi
    exact ⟨i % numThreads, Nat.mod_lt _ numThreads_pos, Nat.mod_le _ _, hi, Nat.dvd_sub_mod i⟩
  · intro t ht u hu i hti hui
    -- both are the remainder of the element
    have hMod : ∀ {v : Nat}, v < numThreads → (badLoop size v).Visits i → v = i % numThreads := by
      intro v hv hVisits
      have hEq : v % numThreads = i % numThreads :=
        (Nat.modEq_iff_dvd' hVisits.1).mpr hVisits.2.2
      rw [Nat.mod_eq_of_lt hv] at hEq
      exact hEq
    rw [hMod ht hti, hMod hu hui]

/-- A chunk ends where the next one begins. -/
theorem goodLoop_lt {size t u i : Nat} (hu : u < numThreads) (htu : t < u)
    (ht : (goodLoop size t).Visits i) : i < (goodLoop size u).first := by
  have hLast : i < t * (size / numThreads) + size / numThreads := by
    have hOther : t ≠ numThreads - 1 := by omega
    simpa [goodLoop, hOther] using ht.2.1
  have hNext : (t + 1) * (size / numThreads) ≤ u * (size / numThreads) :=
    Nat.mul_le_mul_right _ htu
  rw [Nat.add_mul, Nat.one_mul] at hNext
  exact Nat.lt_of_lt_of_le hLast hNext

/-- Four blocks, the last one up to the end. -/
theorem splits_good (size : Nat) : Splits size (goodLoop size) := by
  refine ⟨fun _ => Nat.one_pos, ?_, ?_, ?_⟩
  · intro t ht
    have hMul : (t + 1) * (size / numThreads) ≤ numThreads * (size / numThreads) :=
      Nat.mul_le_mul_right _ ht
    have hSize := Nat.mul_div_le size numThreads
    rw [Nat.add_mul, Nat.one_mul] at hMul
    simp only [goodLoop]
    split <;> omega
  · intro i hi
    by_cases hLast : (numThreads - 1) * (size / numThreads) ≤ i
    · -- the last worker also has what is left over
      refine ⟨numThreads - 1, Nat.sub_lt numThreads_pos Nat.one_pos, hLast, ?_, Nat.one_dvd _⟩
      simpa [goodLoop] using hi
    · have hChunk : 0 < size / numThreads := by
        by_contra hZero
        simp [Nat.eq_zero_of_not_pos hZero] at hLast
      have hLt : i / (size / numThreads) < numThreads - 1 :=
        (Nat.div_lt_iff_lt_mul hChunk).mpr (Nat.lt_of_not_le hLast)
      refine ⟨i / (size / numThreads), by omega, Nat.div_mul_le_self _ _, ?_, Nat.one_dvd _⟩
      have hIn := Nat.lt_div_mul_add hChunk (a := i)
      simpa [goodLoop, Nat.ne_of_lt hLt] using hIn
  · intro t ht u hu i hti hui
    rcases Nat.lt_trichotomy t u with hLt | hEq | hLt
    · exact absurd (goodLoop_lt hu hLt hti) (Nat.not_lt.mpr hui.1)
    · exact hEq
    · exact absurd (goodLoop_lt ht hLt hui) (Nat.not_lt.mpr hti.1)

/-- So each element has one thread, in both functions. -/
theorem splits (p : Processing) (size : Nat) : Splits size (p.loop size) := by
  cases p with
  | bad => exact splits_bad size
  | good => exact splits_good size

/-- Between two tests of a loop there is one element. -/
theorem Loop.lt_next {l : Loop} {i j : Nat} (hPos : 0 < l.stride) (hi : l.Visits i)
    (hj : l.Visits j) : j < i + l.stride ↔ j ≤ i := by
  refine ⟨fun hLt => ?_, fun hLe => by omega⟩
  by_contra hAfter
  have hDiff : l.stride ∣ (j - l.first) - (i - l.first) := Nat.dvd_sub hj.2.2 hi.2.2
  have hFirst := hi.1
  have hLe := Nat.le_of_dvd (by omega) hDiff
  omega

-- ---------------------------------------------------------------------------
-- The steps
-- ---------------------------------------------------------------------------

/-- What one step does. -/
inductive Turn (loop : Nat → Loop) (s : State) : Action → State → Prop
  | start {k : Nat} (hMain : s.main = .start k) (hk : k < numThreads) :
      Turn loop s .main { s.setPc k (.test (loop k).first) with main := .start (k + 1) }
  | started {k : Nat} (hMain : s.main = .start k) (hk : ¬ k < numThreads) :
      Turn loop s .main { s with main := .join 0 }
  | join {k : Nat} (hMain : s.main = .join k) (hk : k < numThreads)
      (hEnded : s.worker k = .ended) : Turn loop s .main { s with main := .join (k + 1) }
  | joined {k : Nat} (hMain : s.main = .join k) (hk : ¬ k < numThreads) :
      Turn loop s .main { s with main := .returned }
  | again {t i : Nat} (hpc : s.worker t = .test i) (hIn : i < (loop t).last) :
      Turn loop s (.worker t) (s.setPc t (.load i))
  | leave {t i : Nat} (hpc : s.worker t = .test i) (hOut : ¬ i < (loop t).last) :
      Turn loop s (.worker t) (s.setPc t .ended)
  | load {t i : Nat} (hpc : s.worker t = .load i) :
      Turn loop s (.worker t) (s.setPc t (.store i (s.data i)))
  | store {t i : Nat} {value : Int} (hpc : s.worker t = .store i value) :
      Turn loop s (.worker t) { s.setPc t (.test (i + (loop t).stride)) with
        data := Function.update s.data i (value + 1)
        overflow := s.overflow || decide (intMax ≤ value) }

variable {loop : Nat → Loop} {first : Nat → Int} {size : Nat} {s s' : State} {a : Action}
  {t u i : Nat} {pc : Pc}

/-- The steps of the caller, -/
theorem runMain_turn (hst : runMain loop s = some s') : Turn loop s .main s' := by
  unfold runMain at hst
  split at hst
  · next k hMain =>
    split at hst <;> obtain rfl := Option.some.inj hst
    · next hk => exact .start hMain hk
    · next hk => exact .started hMain hk
  · next k hMain =>
    split at hst
    · next hk =>
      split at hst
      · next hEnded =>
        obtain rfl := Option.some.inj hst
        exact .join hMain hk hEnded
      · simp at hst
    · next hk =>
      obtain rfl := Option.some.inj hst
      exact .joined hMain hk
  · simp at hst

/-- those of a worker, -/
theorem runWorker_turn (hst : runWorker (loop t) s t = some s') : Turn loop s (.worker t) s' := by
  unfold runWorker at hst
  split at hst
  · simp at hst
  · simp at hst
  · next i hpc =>
    obtain rfl := Option.some.inj hst
    split
    · next hIn => exact .again hpc hIn
    · next hOut => exact .leave hpc hOut
  · next i hpc =>
    obtain rfl := Option.some.inj hst
    exact .load hpc
  · next i value hpc =>
    obtain rfl := Option.some.inj hst
    exact .store hpc

/-- and so every step. -/
theorem step_turn (hst : step loop s a = some s') : Turn loop s a s' := by
  cases a with
  | main => exact runMain_turn hst
  | worker t => exact runWorker_turn hst

-- ---------------------------------------------------------------------------
-- The elements
-- ---------------------------------------------------------------------------

/-- The worker has incremented element `i`, if it is one of its loop. -/
def Pc.passed : Pc → Nat → Bool
  | .unstarted, _ => false
  | .test i, j | .load i, j | .store i _, j => decide (j < i)
  | .ended, _ => true

/-- A worker is at an element of its own, and the value in its register is the one in the
vector. -/
def Pc.Ok (l : Loop) (data : Nat → Int) : Pc → Prop
  | .test i => l.first ≤ i ∧ l.stride ∣ i - l.first
  | .load i => l.Visits i
  | .store i value => l.Visits i ∧ value = data i
  | _ => True

/-- The element as the worker that has it in its loop leaves it. -/
def incremented (first : Nat → Int) (pc : Pc) (i : Nat) : Int :=
  first i + if pc.passed i then 1 else 0

/-- An element has been incremented exactly if its thread has gone past it; nobody else writes
it. -/
structure Elements (first : Nat → Int) (loop : Nat → Loop) (s : State) : Prop where
  /-- What a worker has loaded is what is there. -/
  pc : ∀ t < numThreads, (s.worker t).Ok (loop t) s.data
  unstarted : ∀ t, numThreads ≤ t → s.worker t = .unstarted
  /-- An element has been incremented if its worker is past it, -/
  own : ∀ t < numThreads, ∀ i, (loop t).Visits i → s.data i = incremented first (s.worker t) i
  /-- and no worker goes to any other place. -/
  others : ∀ i, (∀ t < numThreads, ¬ (loop t).Visits i) → s.data i = first i

/-- Only the four workers are ever started. -/
theorem Elements.lt (h : Elements first loop s) (hpc : s.worker t ≠ .unstarted) :
    t < numThreads := by
  by_contra hOut
  exact hpc (h.unstarted t (Nat.le_of_not_lt hOut))

/-- A step of a worker that stores nothing. -/
theorem Elements.move (h : Elements first loop s) (ht : t < numThreads)
    (hPc : s'.worker = Function.update s.worker t pc) (hData : s'.data = s.data)
    (hOk : pc.Ok (loop t) s.data)
    (hPassed : ∀ i, (loop t).Visits i → pc.passed i = (s.worker t).passed i) :
    Elements first loop s' := by
  refine ⟨?_, ?_, ?_, ?_⟩
  · intro u hu
    rw [hData]
    rcases update_cases hPc u with ⟨rfl, hAt⟩ | ⟨-, hAt⟩ <;> rw [hAt]
    · exact hOk
    · exact h.pc u hu
  · intro u hu
    rw [hPc, Function.update_of_ne (by omega)]
    exact h.unstarted u hu
  · intro u hu i hVisits
    rw [hData]
    rcases update_cases hPc u with ⟨rfl, hAt⟩ | ⟨-, hAt⟩ <;> rw [hAt]
    · unfold incremented
      rw [hPassed i hVisits]
      exact h.own u hu i hVisits
    · exact h.own u hu i hVisits
  · intro i hNobody
    rw [hData]
    exact h.others i hNobody

/-- Worker `t` stores its element. -/
theorem Elements.store (hSplits : Splits size loop) (h : Elements first loop s)
    (ht : t < numThreads) {value : Int} (hpc : s.worker t = .store i value) :
    Elements first loop { s.setPc t (.test (i + (loop t).stride)) with
      data := Function.update s.data i (value + 1)
      overflow := s.overflow || decide (intMax ≤ value) } := by
  obtain ⟨hVisits, hValue⟩ : (loop t).Visits i ∧ value = s.data i := by
    simpa [hpc, Pc.Ok] using h.pc t ht
  have hFirst : s.data i = first i := by
    have hOwn := h.own t ht i hVisits
    simpa [hpc, incremented, Pc.passed] using hOwn
  have hNot : ∀ u < numThreads, u ≠ t → ∀ j, (loop u).Visits j → j ≠ i := by
    rintro u hu hut j hj rfl
    exact hut (hSplits.apart u hu t ht j hj hVisits)
  have hPc : ({ s.setPc t (.test (i + (loop t).stride)) with
      data := Function.update s.data i (value + 1)
      overflow := s.overflow || decide (intMax ≤ value) } : State).worker =
    Function.update s.worker t (.test (i + (loop t).stride)) := rfl
  refine ⟨?_, ?_, ?_, ?_⟩
  · intro u hu
    rcases update_cases hPc u with ⟨rfl, hAt⟩ | ⟨hut, hAt⟩ <;> rw [hAt]
    · refine ⟨Nat.le_add_right_of_le hVisits.1, ?_⟩
      rw [Nat.sub_add_comm hVisits.1]
      exact Nat.dvd_add hVisits.2.2 (Nat.dvd_refl _)
    · have hOld := h.pc u hu
      cases hAtU : s.worker u <;> rw [hAtU] at hOld
      case store j v =>
        refine ⟨hOld.1, ?_⟩
        show v = Function.update s.data i (value + 1) j
        rw [Function.update_of_ne (hNot u hu hut j hOld.1)]
        exact hOld.2
      all_goals exact hOld
  · intro u hu
    rw [hPc, Function.update_of_ne (by omega)]
    exact h.unstarted u hu
  · intro u hu j hj
    show Function.update s.data i (value + 1) j = _
    rcases update_cases hPc u with ⟨rfl, hAt⟩ | ⟨hut, hAt⟩ <;> rw [hAt]
    · have hOwn := h.own u hu j hj
      rw [hpc] at hOwn
      rcases update_at s.data i (value + 1) j with ⟨rfl, hEq⟩ | ⟨hji, hEq⟩ <;> rw [hEq]
      · have hPos := hSplits.advances u
        simp [incremented, Pc.passed, hValue, hFirst, hPos]
      · rw [hOwn]
        have hSame : j < i + (loop u).stride ↔ j < i := by
          rw [Loop.lt_next (hSplits.advances u) hVisits hj]
          omega
        simp [incremented, Pc.passed, hSame]
    · rw [Function.update_of_ne (hNot u hu hut j hj)]
      exact h.own u hu j hj
  · intro j hNobody
    have hji : j ≠ i := by
      rintro rfl
      exact hNobody t ht hVisits
    show Function.update s.data i (value + 1) j = _
    rw [Function.update_of_ne hji]
    exact h.others j hNobody

/-- Nobody has begun. -/
theorem elements_init (first : Nat → Int) (loop : Nat → Loop) :
    Elements first loop (system first loop).init := by
  refine ⟨fun _ _ => trivial, fun _ _ => rfl, ?_, fun _ _ => rfl⟩
  intro t _ i _
  simp [system, incremented, Pc.passed]

/-- A store is to an element of the thread's own, so the registers of the others stay current.
-/
theorem elements_turn (hSplits : Splits size loop) (h : Elements first loop s)
    (hFresh : ∀ k, s.main = .start k → s.worker k = .unstarted) (ha : Turn loop s a s') :
    Elements first loop s' := by
  cases ha with
  | @start k hMain hk =>
    refine h.move hk rfl rfl ⟨Nat.le_refl _, by simp⟩ ?_
    intro i hVisits
    simp [hFresh k hMain, Pc.passed, hVisits.1]
  | started | join | joined => exact ⟨h.pc, h.unstarted, h.own, h.others⟩
  | @again t i hpc hIn =>
    have ht := h.lt (t := t) (by simp [hpc])
    have hOld := h.pc t ht
    rw [hpc] at hOld
    exact h.move ht rfl rfl ⟨hOld.1, hIn, hOld.2⟩ fun j _ => by rw [hpc]; rfl
  | @leave t i hpc hOut =>
    refine h.move (h.lt (by simp [hpc])) rfl rfl trivial ?_
    intro j hVisits
    have hLast := hVisits.2.1
    have hBefore : j < i := by omega
    simp [hpc, Pc.passed, hBefore]
  | @load t i hpc =>
    have ht := h.lt (t := t) (by simp [hpc])
    have hOld := h.pc t ht
    rw [hpc] at hOld
    exact h.move ht rfl rfl ⟨hOld, rfl⟩ fun j _ => by rw [hpc]; rfl
  | @store t i value hpc => exact h.store hSplits (h.lt (by simp [hpc])) hpc

-- ---------------------------------------------------------------------------
-- The caller
-- ---------------------------------------------------------------------------

/-- The caller has started the threads before `k`, or joined them. -/
def Main.Ok (worker : Nat → Pc) : Main → Prop
  | .start k => k ≤ numThreads ∧ ∀ t < numThreads, worker t = .unstarted ↔ k ≤ t
  | .join k => k ≤ numThreads ∧ (∀ t < numThreads, worker t ≠ .unstarted) ∧
    ∀ t < k, worker t = .ended
  | .returned => ∀ t < numThreads, worker t = .ended

/-- A step of a worker. -/
theorem Main.Ok.move {main : Main} (h : main.Ok s.worker)
    (hPc : s'.worker = Function.update s.worker t pc) (hOld : s.worker t ≠ .unstarted)
    (hNotEnded : s.worker t ≠ .ended) (hNew : pc ≠ .unstarted) (ht : t < numThreads) :
    main.Ok s'.worker := by
  have hStarted : ∀ u, s'.worker u = .unstarted ↔ s.worker u = .unstarted := by
    intro u
    rcases update_cases hPc u with ⟨rfl, hAt⟩ | ⟨-, hAt⟩ <;> rw [hAt]
    simp [hOld, hNew]
  have hEnded : ∀ u, s.worker u = .ended → s'.worker u = .ended := by
    intro u hu
    have hut : u ≠ t := by
      rintro rfl
      exact hNotEnded hu
    rw [hPc, Function.update_of_ne hut]
    exact hu
  cases main with
  | start k =>
    refine ⟨h.1, fun u hu => ?_⟩
    rw [hStarted]
    exact h.2 u hu
  | join k =>
    refine ⟨h.1, fun u hu => ?_, fun u hu => hEnded u (h.2.2 u hu)⟩
    rw [ne_eq, hStarted]
    exact h.2.1 u hu
  | returned => exact fun u hu => hEnded u (h u hu)

/-- The caller joins a worker that has ended. -/
theorem main_turn (hElements : Elements first loop s) (h : s.main.Ok s.worker)
    (ha : Turn loop s a s') : s'.main.Ok s'.worker := by
  cases ha with
  | @start k hMain hk =>
    rw [hMain] at h
    refine ⟨hk, fun t ht => ?_⟩
    show Function.update s.worker k (.test (loop k).first) t = .unstarted ↔ k + 1 ≤ t
    rcases update_at s.worker k (.test (loop k).first) t with ⟨rfl, hAt⟩ | ⟨hne, hAt⟩ <;> rw [hAt]
    · simp
    · rw [h.2 t ht]
      omega
  | @started k hMain hk =>
    rw [hMain] at h
    refine ⟨Nat.zero_le _, fun t ht => ?_, fun t ht => by omega⟩
    rw [ne_eq, h.2 t ht]
    omega
  | @join k hMain hk hEnded =>
    rw [hMain] at h
    refine ⟨hk, h.2.1, fun t ht => ?_⟩
    rcases Nat.lt_succ_iff_lt_or_eq.mp ht with hLt | rfl
    · exact h.2.2 t hLt
    · exact hEnded
  | @joined k hMain hk =>
    rw [hMain] at h
    exact fun t ht => h.2.2 t (by omega)
  | @again t i hpc | @leave t i hpc | @load t i hpc | @store t i value hpc =>
    exact h.move (t := t) rfl (by simp [hpc]) (by simp [hpc]) (by simp)
      (hElements.lt (by simp [hpc]))

/-- The elements and the caller. -/
structure Inv (first : Nat → Int) (loop : Nat → Loop) (s : State) : Prop where
  elements : Elements first loop s
  main : s.main.Ok s.worker

/-- No element of the vector is `INT_MAX`. -/
def Incrementable (first : Nat → Int) (size : Nat) : Prop :=
  ∀ i < size, first i < intMax

/-- A worker that is about to store has the first value of the element. -/
theorem Elements.value_of_store (h : Elements first loop s) {value : Int}
    (hpc : s.worker t = .store i value) :
    t < numThreads ∧ (loop t).Visits i ∧ value = first i := by
  have ht := h.lt (t := t) (by simp [hpc])
  have hOk := h.pc t ht
  rw [hpc] at hOk
  have hOwn := h.own t ht i hOk.1
  rw [hpc] at hOwn
  exact ⟨ht, hOk.1, by simpa [hOk.2, incremented, Pc.passed] using hOwn⟩

/-- A step that increments an `INT_MAX` does not happen. -/
theorem overflow_turn (hSplits : Splits size loop) (hFirst : Incrementable first size)
    (h : Elements first loop s) (hNot : s.overflow = false) (ha : Turn loop s a s') :
    s'.overflow = false := by
  cases ha with
  | @store t i value hpc =>
    obtain ⟨ht, hVisits, rfl⟩ := h.value_of_store hpc
    have hLess := hFirst i (Nat.lt_of_lt_of_le hVisits.2.1 (hSplits.inside t ht))
    simp [hNot, Int.not_le.mpr hLess]
  | start | started | join | joined | again | leave | load => exact hNot

/-- In every state of a loop that splits the range. -/
theorem inv_reachable (hSplits : Splits size loop) (h : (system first loop).Reachable s) :
    Inv first loop s := by
  refine h.invariant (I := Inv first loop) ⟨elements_init first loop, ?_⟩ ?_
  · exact ⟨Nat.zero_le _, fun t _ => by simp [system]⟩
  · intro s a s' _ hI _ hst
    have hTurn := step_turn hst
    refine ⟨elements_turn hSplits hI.elements ?_ hTurn, main_turn hI.elements hI.main hTurn⟩
    intro k hMain
    have hOk := hI.main
    rw [hMain] at hOk
    by_cases hk : k < numThreads
    · exact (hOk.2 k hk).mpr (Nat.le_refl k)
    · exact hI.elements.unstarted k (by omega)

/-- Each element is incremented once, so none that is below `INT_MAX` overflows. -/
theorem overflow_reachable (hSplits : Splits size loop) (hFirst : Incrementable first size)
    (h : (system first loop).Reachable s) : s.overflow = false := by
  refine h.invariant (I := fun s => s.overflow = false) rfl ?_
  intro s a s' hs hNot _ hst
  exact overflow_turn hSplits hFirst (inv_reachable hSplits hs).elements hNot (step_turn hst)

-- ---------------------------------------------------------------------------
-- The end of the call
-- ---------------------------------------------------------------------------

/-- The steps that a worker has left, at most. -/
def Pc.left (l : Loop) : Pc → Nat
  | .unstarted => 3 * (l.last - l.first) + 2
  | .test i => 3 * (l.last - i) + 1
  | .load i => 3 * (l.last - i)
  | .store i _ => 3 * (l.last - i) - 1
  | .ended => 0

/-- The steps that the caller still makes, -/
def Main.left : Main → Nat
  | .start k => (numThreads - k) + numThreads + 2
  | .join k => (numThreads - k) + 1
  | .returned => 0

/-- and those of all. -/
def State.left (loop : Nat → Loop) (s : State) : Nat :=
  s.main.left + ∑ t ∈ Finset.range numThreads, (s.worker t).left (loop t)

/-- A step of a worker makes what it has left smaller. -/
theorem left_move (ht : t < numThreads) (hPc : s'.worker = Function.update s.worker t pc)
    (hMain : s'.main = s.main) (hLess : pc.left (loop t) < (s.worker t).left (loop t)) :
    s'.left loop < s.left loop := by
  have hSum := sum_update_lt (m := fun t pc => Pc.left (loop t) pc) hPc ht hLess
  unfold State.left
  rw [hMain]
  omega

/-- Every step is one less. -/
theorem left_turn (hSplits : Splits size loop) (h : Inv first loop s) (ha : Turn loop s a s') :
    s'.left loop < s.left loop := by
  cases ha with
  | @start k hMain hk =>
    have hOk := h.main
    rw [hMain] at hOk
    have hFresh : s.worker k = .unstarted := (hOk.2 k hk).mpr (Nat.le_refl k)
    have hSum := sum_update_lt (m := fun t pc => Pc.left (loop t) pc) (f := s.worker)
      (b := .test (loop k).first) rfl hk (by rw [hFresh]; simp [Pc.left])
    simp only [State.left, State.setPc, hMain, Main.left]
    omega
  | @started k hMain hk =>
    simp only [State.left, hMain, Main.left]
    omega
  | @join k hMain hk hEnded =>
    simp only [State.left, hMain, Main.left]
    omega
  | @joined k hMain hk =>
    simp only [State.left, hMain, Main.left]
    omega
  | @again t i hpc hIn =>
    refine left_move (h.elements.lt (by simp [hpc])) rfl rfl ?_
    simp [hpc, Pc.left]
  | @leave t i hpc hOut =>
    refine left_move (h.elements.lt (by simp [hpc])) rfl rfl ?_
    simp [hpc, Pc.left]
  | @load t i hpc =>
    have ht := h.elements.lt (t := t) (by simp [hpc])
    have hVisits := h.elements.pc t ht
    rw [hpc] at hVisits
    have hIn := hVisits.2.1
    refine left_move ht rfl rfl ?_
    simp only [hpc, Pc.left]
    omega
  | @store t i value hpc =>
    have ht := h.elements.lt (t := t) (by simp [hpc])
    have hOld := h.elements.pc t ht
    rw [hpc] at hOld
    have hIn := hOld.1.2.1
    have hPos := hSplits.advances t
    refine left_move ht rfl rfl ?_
    simp only [hpc, Pc.left]
    omega

/-- Until the caller has returned, it can go on or waits for a worker that can. -/
theorem exists_step (h : Inv first loop s) (hMain : s.main ≠ .returned) :
    ∃ a s', step loop s a = some s' := by
  have hOk := h.main
  cases hAt : s.main with
  | start k =>
    refine ⟨.main, ?_⟩
    simp only [step, runMain, hAt]
    split <;> exact ⟨_, rfl⟩
  | join k =>
    rw [hAt] at hOk
    by_cases hk : k < numThreads
    · cases hpc : s.worker k with
      | unstarted => exact absurd hpc (hOk.2.1 k hk)
      | ended =>
        refine ⟨.main, { s with main := .join (k + 1) }, ?_⟩
        simp [step, runMain, hAt, hk, hpc]
      | test i | load i | store i value =>
        refine ⟨.worker k, ?_⟩
        simp only [step, runWorker, hpc]
        exact ⟨_, rfl⟩
    · exact ⟨.main, { s with main := .returned }, by simp [step, runMain, hAt, hk]⟩
  | returned => exact absurd hAt hMain

-- ---------------------------------------------------------------------------
-- The contract
-- ---------------------------------------------------------------------------

/-- The element that the worker is about to load or to store. -/
def Pc.accesses : Pc → Option Nat
  | .load i | .store i _ => some i
  | _ => none

/-- The most steps of a call. -/
def stepBound (size : Nat) : Nat :=
  2 * numThreads + 2 + numThreads * (3 * size + 2)

/-- What a call on the vector `first` promises in every state. -/
structure Contract (first : Nat → Int) (size : Nat) (loop : Nat → Loop) (s : State) : Prop where
  /-- No `INT_MAX` was incremented. -/
  defined : s.overflow = false
  /-- No two workers are at one element: no increment is lost, and there is no data race. -/
  apart : ∀ t u i, (s.worker t).accesses = some i → (s.worker u).accesses = some i → t = u
  inside : ∀ t i, (s.worker t).accesses = some i → i < size
  element : ∀ i, s.data i = first i ∨ i < size ∧ s.data i = first i + 1
  result : s.main = .returned → ∀ i < size, s.data i = first i + 1
  /-- The call can go on until it returns, and it cannot go on for long. -/
  ends : (∃ schedule s', (system first loop).exec s schedule = some s' ∧ s'.main = .returned) ∧
    ∀ schedule s', (system first loop).exec s schedule = some s' → schedule.length ≤ stepBound size

/-- What a worker accesses is its own. -/
theorem Elements.visits (h : Elements first loop s) (hAt : (s.worker t).accesses = some i) :
    t < numThreads ∧ (loop t).Visits i := by
  have ht : t < numThreads := by
    refine h.lt fun hNot => ?_
    rw [hNot] at hAt
    cases hAt
  refine ⟨ht, ?_⟩
  have hOk := h.pc t ht
  cases hpc : s.worker t with
  | load j =>
    rw [hpc] at hAt hOk
    obtain rfl := Option.some.inj hAt
    exact hOk
  | store j value =>
    rw [hpc] at hAt hOk
    obtain rfl := Option.some.inj hAt
    exact hOk.1
  | unstarted | test | ended =>
    rw [hpc] at hAt
    cases hAt

/-- No run is longer than the bound. -/
theorem left_le (hSplits : Splits size loop) (h : (system first loop).Reachable s) :
    s.left loop ≤ stepBound size := by
  refine h.invariant (I := fun s => s.left loop ≤ stepBound size) ?_ ?_
  · have hSum : ∑ t ∈ Finset.range numThreads, Pc.left (loop t) .unstarted ≤
        numThreads * (3 * size + 2) := by
      have hEach : ∀ t ∈ Finset.range numThreads, Pc.left (loop t) .unstarted ≤ 3 * size + 2 := by
        intro t ht
        have hLast := hSplits.inside t (Finset.mem_range.mp ht)
        simp only [Pc.left]
        omega
      calc ∑ t ∈ Finset.range numThreads, Pc.left (loop t) .unstarted
          ≤ ∑ _ ∈ Finset.range numThreads, (3 * size + 2) := Finset.sum_le_sum hEach
        _ = numThreads * (3 * size + 2) := by
          rw [Finset.sum_const_nat fun _ _ => rfl, Finset.card_range]
    simp only [State.left, system, Main.left, stepBound]
    omega
  · intro s a s' hs hI _ hst
    have hLess := left_turn hSplits (inv_reachable hSplits hs) (step_turn hst)
    omega

/-- The contract for any loop that splits the range; nothing else about the two functions is
used. -/
theorem contract_of_splits (hSplits : Splits size loop) (hFirst : Incrementable first size)
    (h : (system first loop).Reachable s) : Contract first size loop s := by
  have hI := inv_reachable hSplits h
  refine ⟨overflow_reachable hSplits hFirst h, ?_, ?_, ?_, ?_, ?_, ?_⟩
  · intro t u i htAt huAt
    obtain ⟨ht, hti⟩ := hI.elements.visits htAt
    obtain ⟨hu, hui⟩ := hI.elements.visits huAt
    exact hSplits.apart t ht u hu i hti hui
  · intro t i hAt
    obtain ⟨ht, hVisits⟩ := hI.elements.visits hAt
    exact Nat.lt_of_lt_of_le hVisits.2.1 (hSplits.inside t ht)
  · intro i
    by_cases hi : i < size
    · obtain ⟨t, ht, hVisits⟩ := hSplits.covers i hi
      rw [hI.elements.own t ht i hVisits, incremented]
      split
      · exact Or.inr ⟨hi, rfl⟩
      · exact Or.inl (by simp)
    · refine Or.inl (hI.elements.others i fun t ht hVisits => hi ?_)
      exact Nat.lt_of_lt_of_le hVisits.2.1 (hSplits.inside t ht)
  · intro hMain i hi
    obtain ⟨t, ht, hVisits⟩ := hSplits.covers i hi
    have hEnded := hI.main
    rw [hMain] at hEnded
    rw [hI.elements.own t ht i hVisits, hEnded t ht]
    rfl
  · refine System.Reachable.exists_of_descent (m := State.left loop) ?_ h
    intro s hs hMain
    have hInv := inv_reachable hSplits hs
    obtain ⟨a, s', hst⟩ := exists_step hInv hMain
    exact ⟨a, s', hst, left_turn hSplits hInv (step_turn hst)⟩
  · intro schedule s' hExec
    have hLength := System.Reachable.length_le (m := State.left loop)
      (fun s a s' hs hst => left_turn hSplits (inv_reachable hSplits hs) (step_turn hst)) h hExec
    have hBound := left_le hSplits h
    omega

/-- **Both functions increment each element once**, in every interleaving of their threads.
What is excluded is a vector with an `INT_MAX`, whose increment is not defined. -/
theorem processing_contract (p : Processing) (first : Nat → Int) (size : Nat)
    (hFirst : Incrementable first size) (h : (system first (p.loop size)).Reachable s) :
    Contract first size (p.loop size) s :=
  contract_of_splits (splits p size) hFirst h

/-- Six elements in chunks, of which the last has what is left over. -/
theorem processing_contract_six :
    ∃ s, (system (fun _ => 0) (Processing.good.loop 6)).Reachable s ∧ s.main = .returned ∧
      Contract (fun _ => 0) 6 (Processing.good.loop 6) s := by
  obtain ⟨s, hs, hMain⟩ := System.exists_reachable_of_exec
    (S := system (fun _ => 0) (Processing.good.loop 6)) (p := fun s => s.main = .returned)
    (List.flatten [List.replicate 5 .main, List.replicate 10 (.worker 3),
      List.replicate 4 (.worker 1), List.replicate 4 (.worker 0), List.replicate 4 (.worker 2),
      List.replicate 5 .main]) (by decide +kernel)
  exact ⟨s, hs, hMain, processing_contract .good _ 6 (fun _ _ => by decide) hs⟩

end EmbLinux.DesignConcurrentCode.FalseSharing
