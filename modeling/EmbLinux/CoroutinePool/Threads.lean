import EmbLinux.CoroutinePool.Accounting
import EmbLinux.Lib.Linearizable
import EmbLinux.Lib.Mutex
import Mathlib.Data.Fintype.Basic

/-!
# EmbLinux — `CoroutinePoolAllocator` under its `Spinlock`

The calls of any number of threads after `init` took effect, each access of a member or of
a block a step of its own. `Spinlock::lock` tries `test_and_set`, and while the flag is set
it only tests. Clients write to the blocks that they hold at any moment, the lock or not.

The checks of `allocate` and `deallocate` come in the order of the source; `scoped_lock`
unlocks also when `std::bad_alloc` is thrown.
-/

namespace EmbLinux.CoroutinePool.Threads

-- ---------------------------------------------------------------------------
-- The threads
-- ---------------------------------------------------------------------------

/-- The operations that threads call. -/
inductive Op
  | allocate (size : Nat)
  | deallocate (ptr : Nat)
  deriving DecidableEq

/-- How a call ends; `badAlloc` is an exception. -/
inductive Ret
  | pointer (ptr : Nat)
  | badAlloc
  | deallocated
  deriving DecidableEq

/-- Where a thread stands. -/
inductive Pc
  | idle
  -- `if (!ptr) return;`
  | nullTest (ptr : Nat)
  -- `Spinlock::lock`
  | testAndSet (op : Op)
  | test (op : Op)
  -- `allocate`
  | initTest (size : Nat)
  | sizeTest (size : Nat)
  | freeTest (size : Nat)
  | head (size : Nat)
  | next (size block : Nat)
  | pop (size block next : Nat)
  -- `deallocate`
  | initTestBack (ptr : Nat)
  | headBack (ptr : Nat)
  | link (block head : Nat)
  | push (block : Nat)
  -- `Spinlock::unlock`, and the end of the call
  | clear (result : Ret)
  | leave (result : Ret)
  deriving DecidableEq

/-- The memory of the pool, the flag of the spinlock, and where each thread stands. -/
structure State (τ : Type*) where
  mem : CoroutinePool.State
  flag : Bool
  pc : τ → Pc

/-- What happens next: a call, an access of a thread, or a write of a client to a block that is
his. -/
inductive Action (τ : Type*)
  | call (t : τ) (op : Op)
  | run (t : τ)
  | write (ptr : Nat) (contents : Nat → Nat)

/-- The first program point of an operation: `deallocate` tests its argument before the lock. -/
def Op.entry : Op → Pc
  | .allocate size => .testAndSet (.allocate size)
  | .deallocate ptr => .nullTest ptr

/-- Where the thread stands when it has the lock. -/
def Op.region : Op → Pc
  | .allocate size => .initTest size
  | .deallocate ptr => .initTestBack ptr

variable {τ : Type*} [DecidableEq τ]

def State.setPc (s : State τ) (t : τ) (pc : Pc) : State τ :=
  { s with pc := Function.update s.pc t pc }

/-- `s_free_list = block->next`, with the pointer noted. -/
def popBlock (mem : CoroutinePool.State) (block next : Nat) : CoroutinePool.State :=
  { mem with pool := { mem.pool with freeList := next }, outstanding := block :: mem.outstanding }

/-- `block->next = s_free_list` -/
def linkBlock (mem : CoroutinePool.State) (block head : Nat) : CoroutinePool.State :=
  { mem with pool := { mem.pool with next := Function.update mem.pool.next block head } }

/-- `s_free_list = block`, with the pointer noted. -/
def pushBlock (mem : CoroutinePool.State) (block : Nat) : CoroutinePool.State :=
  { mem with
    pool := { mem.pool with freeList := block }
    outstanding := mem.outstanding.erase block }

/-- The next access of a thread, or its return. -/
def run (s : State τ) (t : τ) : Option (State τ) :=
  match s.pc t with
  | .idle => none
  | .nullTest ptr =>
    some (s.setPc t (if ptr = 0 then .leave .deallocated else .testAndSet (.deallocate ptr)))
  | .testAndSet op =>
    some (if s.flag then s.setPc t (.test op) else { s.setPc t op.region with flag := true })
  | .test op => some (s.setPc t (if s.flag then .test op else .testAndSet op))
  | .initTest size =>
    some (s.setPc t (if s.mem.pool.initialized then .sizeTest size else .clear .badAlloc))
  | .sizeTest size =>
    some (s.setPc t (if s.mem.pool.blockSize < size then .clear .badAlloc else .freeTest size))
  | .freeTest size =>
    some (s.setPc t (if s.mem.pool.freeList = 0 then .clear .badAlloc else .head size))
  | .head size => some (s.setPc t (.next size s.mem.pool.freeList))
  | .next size block => some (s.setPc t (.pop size block (s.mem.pool.next block)))
  | .pop _ block next =>
    some { s.setPc t (.clear (.pointer block)) with mem := popBlock s.mem block next }
  | .initTestBack ptr =>
    some (s.setPc t (if s.mem.pool.initialized then .headBack ptr else .clear .deallocated))
  | .headBack ptr => some (s.setPc t (.link ptr s.mem.pool.freeList))
  | .link block head => some { s.setPc t (.push block) with mem := linkBlock s.mem block head }
  | .push block => some { s.setPc t (.clear .deallocated) with mem := pushBlock s.mem block }
  | .clear result => some { s.setPc t (.leave result) with flag := false }
  | .leave _ => some (s.setPc t .idle)

/-- A call, the next access of a thread, or a write of a client. -/
def step (s : State τ) : Action τ → Option (State τ)
  | .call t op =>
    match s.pc t with
    | .idle => some (s.setPc t op.entry)
    | _ => none
  | .run t => run s t
  | .write ptr contents =>
    (callStep s.mem (.write ptr contents)).map fun mem => { s with mem := mem }

/-- The pool after `init`, with all threads outside. -/
def system (τ : Type*) [DecidableEq τ] (pool : Pool) (max_coroutines block_size buffer : Nat) :
    System (State τ) (Action τ) where
  init := ⟨(callSystem pool max_coroutines block_size buffer).init, false, fun _ => .idle⟩
  step := step

-- ---------------------------------------------------------------------------
-- The clients
-- ---------------------------------------------------------------------------

/-- The pointer that the thread is giving back. -/
def Pc.gives : Pc → Option Nat
  | .nullTest ptr => if ptr = 0 then none else some ptr
  | .testAndSet (.deallocate ptr) | .test (.deallocate ptr) => some ptr
  | .initTestBack ptr | .headBack ptr => some ptr
  | .link block _ | .push block => some block
  | _ => none

/-- What the clients promise: they give back pointers that are outstanding, each once, and
do not write to a block that they are giving back. -/
def Kept (s : State τ) : Action τ → Prop
  | .call _ (.deallocate ptr) =>
    ptr = 0 ∨ ptr ∈ s.mem.outstanding ∧ ∀ u, (s.pc u).gives ≠ some ptr
  | .write ptr _ => ∀ u, (s.pc u).gives ≠ some ptr
  | _ => True

instance [Fintype τ] (s : State τ) (a : Action τ) : Decidable (Kept s a) :=
  match a with
  | .call _ (.deallocate ptr) =>
    inferInstanceAs (Decidable (ptr = 0 ∨ ptr ∈ s.mem.outstanding ∧
      ∀ u, (s.pc u).gives ≠ some ptr))
  | .call _ (.allocate _) => .isTrue trivial
  | .run _ => .isTrue trivial
  | .write ptr _ => inferInstanceAs (Decidable (∀ u, (s.pc u).gives ≠ some ptr))

/-- The pool as its clients see it: the blocks, which are handed out and taken back at one
moment each. -/
def blockPool (blockSize : Nat) (blocks : List Nat) : Object Op Ret (BlockPool Nat) where
  init := ⟨blocks, []⟩
  apply p
    | .allocate size =>
      if blockSize < size then (p, .badAlloc)
      else
        match p.take with
        | some (block, p') => (p', .pointer block)
        | none => (p, .badAlloc)
    | .deallocate ptr => if ptr = 0 then (p, .deallocated) else (p.give ptr, .deallocated)

def calls : Action τ → Option (τ × Op)
  | .call t op => some (t, op)
  | _ => none

/-- The answer is given at the last program point, after the spinlock is open again. -/
def rets (s : State τ) (a : Action τ) (_ : State τ) : Option (τ × Ret) :=
  match a with
  | .run t =>
    match s.pc t with
    | .leave result => some (t, result)
    | _ => none
  | _ => none

-- ---------------------------------------------------------------------------
-- What a step does
-- ---------------------------------------------------------------------------

/-- The thread has the lock. -/
def Pc.holds : Pc → Bool
  | .initTest _ | .sizeTest _ | .freeTest _ | .head _ | .next _ _ | .pop _ _ _
  | .initTestBack _ | .headBack _ | .link _ _ | .push _ | .clear _ => true
  | _ => false

/-- What the thread has seen of the pool. -/
def Pc.Ok (mem : CoroutinePool.State) : Pc → Prop
  | .freeTest size => size ≤ mem.pool.blockSize
  | .head size => size ≤ mem.pool.blockSize ∧ mem.pool.freeList ≠ 0
  | .next size block =>
    size ≤ mem.pool.blockSize ∧ mem.pool.freeList ≠ 0 ∧ block = mem.pool.freeList
  | .pop size block rest =>
    size ≤ mem.pool.blockSize ∧ mem.pool.freeList ≠ 0 ∧ block = mem.pool.freeList ∧
      rest = mem.pool.next block
  | .link _ front => front = mem.pool.freeList
  | .push block => mem.pool.next block = mem.pool.freeList
  | _ => True

/-- Whether the call of a thread has taken effect. -/
def Pc.stage : Pc → Stage Op Ret
  | .idle => .idle
  | .nullTest ptr | .initTestBack ptr | .headBack ptr | .link ptr _ | .push ptr =>
    .pending (.deallocate ptr)
  | .testAndSet op | .test op => .pending op
  | .initTest size | .sizeTest size | .freeTest size | .head size | .next size _
  | .pop size _ _ => .pending (.allocate size)
  | .clear result | .leave result => .done result

/-- The steps. Most of them move a thread on within its call (`goOn`). -/
inductive Turn (s : State τ) : Action τ → State τ → Prop
  | call {t : τ} {op : Op} (hIdle : s.pc t = .idle) : Turn s (.call t op) (s.setPc t op.entry)
  | goOn {t : τ} {l : Pc} (hStage : l.stage = (s.pc t).stage)
      (hRuns : ∀ result, s.pc t ≠ .leave result) (hHolds : l.holds = (s.pc t).holds)
      (hGives : l.gives = (s.pc t).gives) (hOk : (s.pc t).Ok s.mem → l.Ok s.mem) :
      Turn s (.run t) (s.setPc t l)
  | null {t : τ} (hpc : s.pc t = .nullTest 0) : Turn s (.run t) (s.setPc t (.leave .deallocated))
  | lock {t : τ} {op : Op} (hpc : s.pc t = .testAndSet op) (hFlag : s.flag = false) :
      Turn s (.run t) { s.setPc t op.region with flag := true }
  | noPool {t : τ} {result : Ret} (hHolds : (s.pc t).holds = true)
      (hInit : s.mem.pool.initialized = false) : Turn s (.run t) (s.setPc t (.clear result))
  | tooLarge {t : τ} {size : Nat} (hpc : s.pc t = .sizeTest size)
      (hSize : s.mem.pool.blockSize < size) : Turn s (.run t) (s.setPc t (.clear .badAlloc))
  | exhausted {t : τ} {size : Nat} (hpc : s.pc t = .freeTest size)
      (hFree : s.mem.pool.freeList = 0) : Turn s (.run t) (s.setPc t (.clear .badAlloc))
  | pop {t : τ} {size block next : Nat} (hpc : s.pc t = .pop size block next) :
      Turn s (.run t) { s.setPc t (.clear (.pointer block)) with mem := popBlock s.mem block next }
  | link {t : τ} {block head : Nat} (hpc : s.pc t = .link block head) :
      Turn s (.run t) { s.setPc t (.push block) with mem := linkBlock s.mem block head }
  | push {t : τ} {block : Nat} (hpc : s.pc t = .push block) :
      Turn s (.run t) { s.setPc t (.clear .deallocated) with mem := pushBlock s.mem block }
  | clear {t : τ} {result : Ret} (hpc : s.pc t = .clear result) :
      Turn s (.run t) { s.setPc t (.leave result) with flag := false }
  | leave {t : τ} {result : Ret} (hpc : s.pc t = .leave result) :
      Turn s (.run t) (s.setPc t .idle)
  | write {ptr : Nat} {contents : Nat → Nat} {mem : CoroutinePool.State}
      (hWrite : callStep s.mem (.write ptr contents) = some mem) :
      Turn s (.write ptr contents) { s with mem := mem }

variable {s s' : State τ} {t u : τ} {a : Action τ} {l : Pc}

/-- What one access does, for each program point. -/
theorem run_turn (hst : run s t = some s') : Turn s (.run t) s' := by
  unfold run at hst
  split at hst
  · simp at hst
  · next ptr hpc =>
    obtain rfl := Option.some.inj hst
    by_cases hNull : ptr = 0
    · rw [if_pos hNull]
      exact .null (hNull ▸ hpc)
    · rw [if_neg hNull]
      refine .goOn ?_ ?_ ?_ ?_ ?_ <;> simp [hpc, Pc.stage, Pc.holds, Pc.gives, Pc.Ok, hNull]
  · next op hpc =>
    obtain rfl := Option.some.inj hst
    cases hFlag : s.flag with
    | false => exact .lock hpc hFlag
    | true =>
      refine .goOn ?_ ?_ ?_ ?_ ?_ <;> cases op <;>
        simp [hpc, Pc.stage, Pc.holds, Pc.gives, Pc.Ok]
  · next op hpc =>
    obtain rfl := Option.some.inj hst
    refine .goOn ?_ ?_ ?_ ?_ ?_ <;> cases s.flag <;> cases op <;>
      simp [hpc, Pc.stage, Pc.holds, Pc.gives, Pc.Ok]
  · next size hpc =>
    obtain rfl := Option.some.inj hst
    cases hInit : s.mem.pool.initialized with
    | false => exact .noPool (by simp [hpc, Pc.holds]) hInit
    | true =>
      refine .goOn ?_ ?_ ?_ ?_ ?_ <;> simp [hpc, Pc.stage, Pc.holds, Pc.gives, Pc.Ok]
  · next size hpc =>
    obtain rfl := Option.some.inj hst
    by_cases hSize : s.mem.pool.blockSize < size
    · rw [if_pos hSize]
      exact .tooLarge hpc hSize
    · rw [if_neg hSize]
      have hLe : size ≤ s.mem.pool.blockSize := Nat.le_of_not_lt hSize
      refine .goOn ?_ ?_ ?_ ?_ ?_ <;> simp [hpc, Pc.stage, Pc.holds, Pc.gives, Pc.Ok, hLe]
  · next size hpc =>
    obtain rfl := Option.some.inj hst
    by_cases hFree : s.mem.pool.freeList = 0
    · rw [if_pos hFree]
      exact .exhausted hpc hFree
    · rw [if_neg hFree]
      refine .goOn ?_ ?_ ?_ ?_ ?_ <;> simp [hpc, Pc.stage, Pc.holds, Pc.gives, Pc.Ok, hFree]
  · next size hpc =>
    obtain rfl := Option.some.inj hst
    refine .goOn ?_ ?_ ?_ ?_ ?_ <;> simp_all [Pc.stage, Pc.holds, Pc.gives, Pc.Ok]
  · next size block hpc =>
    obtain rfl := Option.some.inj hst
    refine .goOn ?_ ?_ ?_ ?_ ?_ <;> simp_all [Pc.stage, Pc.holds, Pc.gives, Pc.Ok]
  · next size block next hpc =>
    obtain rfl := Option.some.inj hst
    exact .pop hpc
  · next ptr hpc =>
    obtain rfl := Option.some.inj hst
    cases hInit : s.mem.pool.initialized with
    | false => exact .noPool (by simp [hpc, Pc.holds]) hInit
    | true =>
      refine .goOn ?_ ?_ ?_ ?_ ?_ <;> simp [hpc, Pc.stage, Pc.holds, Pc.gives, Pc.Ok]
  · next ptr hpc =>
    obtain rfl := Option.some.inj hst
    refine .goOn ?_ ?_ ?_ ?_ ?_ <;> simp [hpc, Pc.stage, Pc.holds, Pc.gives, Pc.Ok]
  · next block head hpc =>
    obtain rfl := Option.some.inj hst
    exact .link hpc
  · next block hpc =>
    obtain rfl := Option.some.inj hst
    exact .push hpc
  · next result hpc =>
    obtain rfl := Option.some.inj hst
    exact .clear hpc
  · next result hpc =>
    obtain rfl := Option.some.inj hst
    exact .leave hpc

/-- What one step does. -/
theorem step_turn (hst : step s a = some s') : Turn s a s' := by
  cases a with
  | call t op =>
    simp only [step] at hst
    split at hst
    · next hIdle =>
      obtain rfl := Option.some.inj hst
      exact .call hIdle
    · simp at hst
  | run t => exact run_turn hst
  | write ptr contents =>
    simp only [step, Option.map_eq_some_iff] at hst
    obtain ⟨mem, hWrite, rfl⟩ := hst
    exact .write hWrite

end EmbLinux.CoroutinePool.Threads
