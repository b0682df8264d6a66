import EmbLinux.Lib.OrderedMap
import EmbLinux.Lib.System

/-!
# EmbLinux — `threadsafe_lookup_table`

The model of the table with one `shared_mutex` for each bucket. Any number of threads call
`value_for`, `add_or_update_mapping`, `remove_mapping` and `get_map`. The region of a
bucket operation under its lock is one step, the shared one of `value_for` as well, so a
lock is held between two steps only by a `get_map`: it locks the buckets one after the
other, copies them one after the other, and the destructor of `locks` unlocks them in some
order.

`std::hash`, `operator==` and `operator<` of the keys belong to the `Table`; a hash that
respects `==` and an order that is compatible with it are part of it, and there is a
bucket. The `std::map` that `get_map` returns is the list of its pairs in their order.
-/

namespace EmbLinux.DesignLockBase.LookupTable

/-- What the constructor and the key type fix. -/
structure Table (κ : Type*) [BEq κ] where
  numBuckets : Nat
  pos : 0 < numBuckets
  hasher : κ → UInt64
  respects : ∀ k k', (k == k') = true → hasher k = hasher k'
  order : KeyOrder κ

-- ---------------------------------------------------------------------------
-- The buckets
-- ---------------------------------------------------------------------------

section

variable {κ α : Type*} [BEq κ]

/-- `get_bucket`: the index of the bucket of a key. -/
def Table.bucketIndex (T : Table κ) (key : κ) : Nat :=
  (T.hasher key).toNat % T.numBuckets

/-- The pair that the iterator points to, none for `end()`. -/
def findEntryFor (key : κ) (data : List (κ × α)) : Option (κ × α) :=
  data.find? fun item => item.1 == key

/-- `found_entry->second = value`, with the first pair that has the key found. -/
def assignFound (key : κ) (value : α) : List (κ × α) → List (κ × α)
  | [] => []
  | item :: rest =>
    if item.1 == key then (item.1, value) :: rest else item :: assignFound key value rest

/-- The operations on one bucket. -/
inductive BucketCall (κ α : Type*)
  | valueFor (key : κ) (defaultValue : α)
  | addOrUpdateMapping (key : κ) (value : α)
  | removeMapping (key : κ)
  deriving DecidableEq

/-- The key that decides on the bucket. -/
def BucketCall.key : BucketCall κ α → κ
  | .valueFor key _ | .addOrUpdateMapping key _ | .removeMapping key => key

/-- What a call returns. -/
inductive Ret (κ α : Type*)
  | value (v : α)
  | done
  | map (entries : List (κ × α))
  deriving DecidableEq

/-- The region of a bucket operation: the bucket after it, and what it returns. -/
def BucketCall.region (data : List (κ × α)) : BucketCall κ α → List (κ × α) × Ret κ α
  | .valueFor key defaultValue =>
    match findEntryFor key data with
    | none => (data, .value defaultValue)
    | some foundEntry => (data, .value foundEntry.2)
  | .addOrUpdateMapping key value =>
    match findEntryFor key data with
    | none => (data ++ [(key, value)], .done)
    | some _ => (assignFound key value data, .done)
  | .removeMapping key =>
    match findEntryFor key data with
    | none => (data, .done)
    | some _ => (data.eraseP fun item => item.1 == key, .done)

end

-- ---------------------------------------------------------------------------
-- The threads
-- ---------------------------------------------------------------------------

/-- The calls of the table. -/
inductive Call (κ α : Type*)
  | bucket (c : BucketCall κ α)
  | getMap
  deriving DecidableEq

/-- Where a thread stands. `mapUnlock held res` has the buckets `held` locked still. -/
inductive Pc (κ α : Type*)
  | idle (last : Option (Ret κ α))
  | locking (c : BucketCall κ α)
  | mapLock (i : Nat)
  | mapCopy (i : Nat) (res : List (κ × α))
  | mapUnlock (held : List Nat) (res : List (κ × α))
  | returning (ret : Ret κ α)
  deriving DecidableEq

/-- `lock i` is the `get_map` that has bucket `i` locked. -/
structure State (τ κ α : Type*) where
  data : Nat → List (κ × α)
  lock : Nat → Option τ
  pc : τ → Pc κ α

/-- What happens next: a call begins, or the thread makes its next step. `pick` is the
bucket that it unlocks, if the step is an unlock. -/
inductive Action (τ κ α : Type*)
  | call (t : τ) (c : Call κ α)
  | run (t : τ) (pick : Nat)

variable {τ κ α : Type*} [DecidableEq τ] [BEq κ]

-- ---------------------------------------------------------------------------
-- The steps
-- ---------------------------------------------------------------------------

def State.setPc (s : State τ κ α) (t : τ) (pc : Pc κ α) : State τ κ α :=
  { s with pc := Function.update s.pc t pc }

/-- After the lock of bucket `i`: the next one, or the first copy. -/
def Table.afterLock (T : Table κ) (i : Nat) : Pc κ α :=
  if i + 1 < T.numBuckets then .mapLock (i + 1) else .mapCopy 0 []

/-- After the copy of bucket `i`: the next one, or the unlocks. -/
def Table.afterCopy (T : Table κ) (i : Nat) (res : List (κ × α)) : Pc κ α :=
  if i + 1 < T.numBuckets then .mapCopy (i + 1) res else .mapUnlock (List.range T.numBuckets) res

/-- After an unlock: the others, or the end of the call. -/
def afterUnlock (held : List Nat) (res : List (κ × α)) : Pc κ α :=
  match held with
  | [] => .returning (.map res)
  | _ :: _ => .mapUnlock held res

/-- The next step of the call that thread `t` is running. -/
def run (T : Table κ) (s : State τ κ α) (t : τ) (pick : Nat) : Option (State τ κ α) :=
  match s.pc t with
  | .idle _ => none
  | .locking c =>
    match s.lock (T.bucketIndex c.key) with
    | none =>
      some { s.setPc t (.returning (c.region (s.data (T.bucketIndex c.key))).2) with
        data := Function.update s.data (T.bucketIndex c.key)
          (c.region (s.data (T.bucketIndex c.key))).1 }
    | some _ => none
  | .mapLock i =>
    match s.lock i with
    | none => some { s.setPc t (T.afterLock i) with lock := Function.update s.lock i (some t) }
    | some _ => none
  | .mapCopy i res => some (s.setPc t (T.afterCopy i (insertAll T.order res (s.data i))))
  | .mapUnlock held res =>
    if pick ∈ held then
      some { s.setPc t (afterUnlock (held.erase pick) res) with
        lock := Function.update s.lock pick none }
    else none
  | .returning ret => some (s.setPc t (.idle (some ret)))

/-- A call, or the next region or lock of a thread. -/
def step (T : Table κ) (s : State τ κ α) : Action τ κ α → Option (State τ κ α)
  | .call t c =>
    match s.pc t with
    | .idle _ =>
      match c with
      | .bucket c => some (s.setPc t (.locking c))
      | .getMap => some (s.setPc t (.mapLock 0))
    | _ => none
  | .run t pick => run T s t pick

/-- Empty buckets, free locks. -/
def init (τ κ α : Type*) : State τ κ α where
  data := fun _ => []
  lock := fun _ => none
  pc := fun _ => .idle none

/-- The threads and the table that they share. -/
def system (τ α : Type*) [DecidableEq τ] (T : Table κ) : System (State τ κ α) (Action τ κ α) where
  init := init τ κ α
  step := step T

end EmbLinux.DesignLockBase.LookupTable
