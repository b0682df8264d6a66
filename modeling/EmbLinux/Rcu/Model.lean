import EmbLinux.Lib.System
import Mathlib.Algebra.Group.Nat.Defs
import Mathlib.Data.Nat.Notation

/-!
# EmbLinux — epoch-based RCU

The model of `rcu_domain`, `RcuThreadContext`, `scoped_rcu_reader` and
`RcuPtr`. Any number of threads use any number of domains and `RcuPtr`s; a step
is one atomic access of one thread, in a sequentially consistent memory. The
epochs are `uint64_t`, so `fetch_add` wraps modulo `2 ^ 64`.

* A `Slot` names the record `m_threads[i]` of a domain.
* `Thread.context` is the `thread_local RcuThreadContext`: created for the
  domain that the thread uses first, and shared by all its guards.
* `Thread.guards` are its open `scoped_rcu_reader`s, innermost first. What each
  of them `held` is history: the pointers read, while it was open, from
  `RcuPtr`s of its domain.
* `deleted`, `installed` and `syncs` are history too.

`~RcuPtr` and the destructors of domains are left out: the objects outlive the
runs considered.
-/

namespace EmbLinux.Rcu

/-- `kMaxRcuThreads` -/
def kMaxRcuThreads : Nat := 64

/-- The number of values of `uint64_t`. -/
def epochModulus : Nat := 2 ^ 64

-- ---------------------------------------------------------------------------
-- Threads and memory
-- ---------------------------------------------------------------------------

/-- The record `m_threads[i]` of a domain. -/
abbrev Slot (δ : Type*) := δ × Nat

/-- An open `scoped_rcu_reader`: the record it locked, and the pointers read
under it. -/
structure Guard (δ π : Type*) where
  slot : Slot δ
  held : List π
  deriving DecidableEq

/-- Where a thread stands in the operation it is running. `old` is the pointer
that `update` deletes after its `synchronize`, or none in `rcu_synchronize`. -/
inductive Pc (δ π : Type*)
  | idle
  | register (slot : Slot δ)
  | registerStore (slot : Slot δ)
  | lockLoad (slot : Slot δ)
  | lockPublish (slot : Slot δ) (currentEpoch : Nat)
  | unregisterStore (slot : Slot δ)
  | unregisterClear (slot : Slot δ)
  | syncAdd (domain : δ) (old : Option π)
  | scanInUse (slot : Slot δ) (old : Option π) (newEpoch : Nat)
  | scanEpoch (slot : Slot δ) (old : Option π) (newEpoch : Nat)
  | delete (old : π)
  deriving DecidableEq

/-- The thread is between two calls. -/
def Pc.isIdle {δ π : Type*} : Pc δ π → Bool
  | .idle => true
  | _ => false

/-- The `thread_local` context, the guards that are open, the innermost first, and the program
point. -/
structure Thread (δ π : Type*) where
  context : Option (Slot δ)
  guards : List (Guard δ π)
  pc : Pc δ π
  deriving DecidableEq

/-- The slots of every domain with their epochs, the pointers, and the threads; `deleted`,
`installed` and `syncs` are history. -/
structure State (τ δ ρ π : Type*) where
  epoch : Slot δ → Nat
  inUse : Slot δ → Bool
  globalEpoch : δ → Nat
  ptr : ρ → Option π
  threads : τ → Thread δ π
  deleted : List π
  installed : List π
  syncs : δ → Nat

-- ---------------------------------------------------------------------------
-- Programs
-- ---------------------------------------------------------------------------

/-- The `RcuPtr`s of the program: the domain and the first pointer of each. Each
owns its pointee, so no two start with the same one. -/
structure Config (δ ρ π : Type*) where
  domainOf : ρ → δ
  initialPtr : ρ → Option π
  initialPtr_inj : ∀ r r' p, initialPtr r = some p → initialPtr r' = some p → r = r'

/-- A program with one `RcuPtr`, bound to `domain`, that starts with the pointer 0. -/
def onePtr {δ : Type*} (domain : δ) : Config δ Unit Nat where
  domainOf := fun _ => domain
  initialPtr := fun _ => some 0
  initialPtr_inj := fun _ _ _ _ _ => rfl

/-- What a thread does next. `exit` is the end of the thread, where the
destructor of its `RcuThreadContext` runs; `run` is the next access of the
operation in progress. -/
inductive Action (τ δ ρ π : Type*)
  | openGuard (t : τ) (domain : δ)
  | closeGuard (t : τ)
  | read (t : τ) (r : ρ)
  | update (t : τ) (r : ρ) (newPtr : Option π)
  | synchronize (t : τ) (domain : δ)
  | exit (t : τ)
  | run (t : τ)

variable {τ δ ρ π : Type*} [DecidableEq τ] [DecidableEq δ] [DecidableEq ρ]

-- ---------------------------------------------------------------------------
-- The accesses
-- ---------------------------------------------------------------------------

def State.setPc (s : State τ δ ρ π) (t : τ) (pc : Pc δ π) : State τ δ ρ π :=
  { s with threads := Function.update s.threads t { s.threads t with pc := pc } }

/-- `read` under the open guards: each guard of the pointer's domain notes it. -/
def noteRead (domain : δ) (p : Option π) (guards : List (Guard δ π)) : List (Guard δ π) :=
  match p with
  | none => guards
  | some p => guards.map fun g => if g.slot.1 = domain then { g with held := p :: g.held } else g

/-- Past the last slot, `synchronize` returns, and `update` goes on to `delete`. -/
def afterSync (old : Option π) : Pc δ π :=
  match old with
  | none => .idle
  | some p => .delete p

/-- The next access of the operation that thread `t` is running. -/
def run (s : State τ δ ρ π) (t : τ) : Option (State τ δ ρ π) :=
  match (s.threads t).pc with
  | .idle => none
  | .register slot =>
    if slot.2 < kMaxRcuThreads then
      -- `in_use.compare_exchange_strong(false, true)`
      if s.inUse slot then
        some (s.setPc t (.register (slot.1, slot.2 + 1)))
      else
        some { s.setPc t (.registerStore slot) with inUse := Function.update s.inUse slot true }
    else
      -- `std::runtime_error`: no context, no guard
      some (s.setPc t .idle)
  | .registerStore slot =>
    some { s with
      epoch := Function.update s.epoch slot 0
      threads := Function.update s.threads t
        { s.threads t with context := some slot, pc := .lockLoad slot } }
  -- `lock` reads the global epoch here and publishes it in the next step
  | .lockLoad slot => some (s.setPc t (.lockPublish slot (s.globalEpoch slot.1)))
  | .lockPublish slot currentEpoch =>
    some { s with
      epoch := Function.update s.epoch slot currentEpoch
      threads := Function.update s.threads t
        { s.threads t with guards := ⟨slot, []⟩ :: (s.threads t).guards, pc := .idle } }
  -- `unregister_thread`: `epoch.store(0)`, then `in_use.store(false)`
  | .unregisterStore slot =>
    some { s.setPc t (.unregisterClear slot) with epoch := Function.update s.epoch slot 0 }
  | .unregisterClear slot =>
    some { s with
      inUse := Function.update s.inUse slot false
      threads := Function.update s.threads t { s.threads t with context := none, pc := .idle } }
  | .syncAdd domain old =>
    -- `new_epoch = m_global_epoch.fetch_add(1) + 1`
    let newEpoch := (s.globalEpoch domain + 1) % epochModulus
    some { s.setPc t (.scanInUse (domain, 0) old newEpoch) with
      globalEpoch := Function.update s.globalEpoch domain newEpoch
      syncs := Function.update s.syncs domain (s.syncs domain + 1) }
  | .scanInUse slot old newEpoch =>
    if slot.2 < kMaxRcuThreads then
      if s.inUse slot then
        some (s.setPc t (.scanEpoch slot old newEpoch))
      else
        some (s.setPc t (.scanInUse (slot.1, slot.2 + 1) old newEpoch))
    else
      some (s.setPc t (afterSync old))
  | .scanEpoch slot old newEpoch =>
    -- the spin-wait; `yield` is no step
    if s.epoch slot = 0 ∨ newEpoch ≤ s.epoch slot then
      some (s.setPc t (.scanInUse (slot.1, slot.2 + 1) old newEpoch))
    else
      some s
  | .delete p => some { s.setPc t .idle with deleted := p :: s.deleted }

/-- A guard is opened or closed, a pointer is read, an `update` begins, or a thread makes its
next access. -/
def step (cfg : Config δ ρ π) (s : State τ δ ρ π) : Action τ δ ρ π → Option (State τ δ ρ π)
  | .openGuard t domain =>
    if (s.threads t).pc.isIdle then
      match (s.threads t).context with
      | none => some (s.setPc t (.register (domain, 0)))
      -- the context's slot number, on whatever domain the guard is opened
      | some slot => some (s.setPc t (.lockLoad (domain, slot.2)))
    else none
  | .closeGuard t =>
    if (s.threads t).pc.isIdle then
      match (s.threads t).guards with
      | [] => none
      -- `unlock` stores 0, also when an outer guard is open
      | g :: rest =>
        some { s with
          epoch := Function.update s.epoch g.slot 0
          threads := Function.update s.threads t { s.threads t with guards := rest } }
    else none
  | .read t r =>
    if (s.threads t).pc.isIdle then
      some { s with
        threads := Function.update s.threads t
          { s.threads t with
            guards := noteRead (cfg.domainOf r) (s.ptr r) (s.threads t).guards } }
    else none
  | .update t r newPtr =>
    if (s.threads t).pc.isIdle then
      some {
        s.setPc t (if (s.ptr r).isSome then .syncAdd (cfg.domainOf r) (s.ptr r) else .idle) with
        ptr := Function.update s.ptr r newPtr
        installed := newPtr.toList ++ s.installed }
    else none
  | .synchronize t domain =>
    if (s.threads t).pc.isIdle then some (s.setPc t (.syncAdd domain none)) else none
  | .exit t =>
    if (s.threads t).pc.isIdle then
      -- automatic objects of a thread are destroyed before its thread-local ones
      match (s.threads t).guards, (s.threads t).context with
      | [], some slot => some (s.setPc t (.unregisterStore slot))
      | _, _ => none
    else none
  | .run t => run s t

-- ---------------------------------------------------------------------------
-- The system
-- ---------------------------------------------------------------------------

/-- No thread has registered, and epoch 1. -/
def init (τ : Type*) (cfg : Config δ ρ π) : State τ δ ρ π where
  epoch := fun _ => 0
  inUse := fun _ => false
  globalEpoch := fun _ => 1
  ptr := cfg.initialPtr
  threads := fun _ => ⟨none, [], .idle⟩
  deleted := []
  installed := []
  syncs := fun _ => 0

/-- Any number of threads and domains. -/
def system (τ : Type*) [DecidableEq τ] (cfg : Config δ ρ π) :
    System (State τ δ ρ π) (Action τ δ ρ π) where
  init := init τ cfg
  step := step cfg

end EmbLinux.Rcu
