import EmbLinux.Lib.FiniteMap
import EmbLinux.Lib.System

/-!
# EmbLinux — `ThreadSafeHashMap`

The model of `ThreadSafeHashMap<K, V, NumBuckets>`. Any number of threads call
`insert`, `get` and `remove`. The region of a call under the `shared_mutex` of
its bucket is one step; the calls themselves begin and end at any time around
it. `std::hash` is a `Hashable` instance, with 64-bit results, and the `==` of
the keys is a `BEq` instance.

`log` is history: the operations in the order of their regions, with the thread
and the answer of each.
-/

namespace EmbLinux.ThreadSafeHashMap

open FiniteMap (Op Answer)

-- ---------------------------------------------------------------------------
-- The buckets
-- ---------------------------------------------------------------------------

section

variable {κ α : Type*} [BEq κ]

/-- `get_bucket`: the index of the bucket of a key. -/
def getBucket [Hashable κ] (NumBuckets : Nat) (key : κ) : Nat :=
  (hash key).toNat % NumBuckets

/-- The loop of `insert`: the first pair with the key gets the value; none if the
loop finds no such pair. -/
def assignFirst (key : κ) (value : α) : List (κ × α) → Option (List (κ × α))
  | [] => none
  | (first, second) :: rest =>
    if first == key then some ((first, value) :: rest)
    else (assignFirst key value rest).map ((first, second) :: ·)

/-- The region of `insert` on the list of its bucket. -/
def insertRegion (key : κ) (value : α) (data : List (κ × α)) : List (κ × α) :=
  match assignFirst key value data with
  | some data' => data'
  -- `emplace_back`
  | none => data ++ [(key, value)]

/-- The region of `get`. -/
def getRegion (key : κ) (data : List (κ × α)) : Option α :=
  (data.find? fun pair => pair.1 == key).map Prod.snd

/-- The region of `remove`: `remove_if`. -/
def removeRegion (key : κ) (data : List (κ × α)) : List (κ × α) :=
  data.filter fun pair => !(pair.1 == key)

end

-- ---------------------------------------------------------------------------
-- The threads
-- ---------------------------------------------------------------------------

/-- Between two calls, with the last answer, or before the lock of the bucket. -/
inductive Pc (κ α : Type*)
  | idle (last : Option (Answer α))
  | locking (op : Op κ α)

/-- The buckets, the threads, and as history the operations in the order of their regions. -/
structure State (τ κ α : Type*) where
  buckets : Nat → List (κ × α)
  pc : τ → Pc κ α
  log : List (τ × Op κ α × Answer α)

/-- A call, or the region of one. -/
inductive Action (τ κ α : Type*)
  | call (t : τ) (op : Op κ α)
  | run (t : τ)

variable {τ κ α : Type*} [DecidableEq τ] [BEq κ] [Hashable κ]

-- ---------------------------------------------------------------------------
-- The steps
-- ---------------------------------------------------------------------------

/-- What a region does to the buckets, and its answer. -/
def region (NumBuckets : Nat) (buckets : Nat → List (κ × α)) :
    Op κ α → Answer α × (Nat → List (κ × α))
  | .insert key value =>
    let bucket := getBucket NumBuckets key
    (.done, Function.update buckets bucket (insertRegion key value (buckets bucket)))
  | .get key => (.found (getRegion key (buckets (getBucket NumBuckets key))), buckets)
  | .remove key =>
    let bucket := getBucket NumBuckets key
    (.done, Function.update buckets bucket (removeRegion key (buckets bucket)))

/-- A region is one step, under the lock of its bucket. -/
def step (NumBuckets : Nat) (s : State τ κ α) : Action τ κ α → Option (State τ κ α)
  | .call t op =>
    match s.pc t with
    | .idle _ => some { s with pc := Function.update s.pc t (.locking op) }
    | .locking _ => none
  | .run t =>
    match s.pc t with
    | .idle _ => none
    | .locking op =>
      let (answer, buckets) := region NumBuckets s.buckets op
      some { s with
        buckets := buckets
        pc := Function.update s.pc t (.idle (some answer))
        log := s.log ++ [(t, op, answer)] }

/-- Empty buckets. -/
def init (τ κ α : Type*) : State τ κ α where
  buckets := fun _ => []
  pc := fun _ => .idle none
  log := []

/-- The threads and the map that they share. -/
def system (τ κ α : Type*) [DecidableEq τ] [BEq κ] [Hashable κ] (NumBuckets : Nat) :
    System (State τ κ α) (Action τ κ α) where
  init := init τ κ α
  step := step NumBuckets

end EmbLinux.ThreadSafeHashMap
