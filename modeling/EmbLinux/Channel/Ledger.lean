import EmbLinux.Lib.System

/-!
# EmbLinux — the accounts of a channel

An abstract model of `Channel` that keeps four numbers: the values in the
buffer, the parked senders, the parked receivers, and the claims, which are the
receivers that were woken and have not taken their value yet. What the channel
owes its coroutines is said here in arithmetic.

* `InTime` — who parks does so beside no value and no place that nobody is going
  to take. Then no wake-up is lost (`settled`).
* `Spare` — a receiver that did not park takes no claimed value. Then every
  claim is covered (`covered`).
-/

namespace EmbLinux.Channel

/-- The numbers of values in the buffer, of parked senders and receivers, and of the receivers
that were woken and have not taken their value yet. -/
structure Ledger where
  values : Nat
  senders : Nat
  receivers : Nat
  claims : Nat
  deriving DecidableEq

/-- What a step of the channel enters. `take` is the region of a receiver's
`await_ready`, `claim` that of its `await_resume`. -/
inductive Entry
  | nothing
  | push
  | pushWake
  | parkSender
  | parkReceiver
  | take
  | claim
  deriving DecidableEq

namespace Ledger

/-- A value leaves the buffer; the first parked sender's value takes its place. -/
def remove (l : Ledger) : Ledger :=
  if l.senders = 0 then { l with values := l.values - 1 }
  else { l with senders := l.senders - 1 }

/-- What an operation does to the numbers. A `take` refills the buffer from a parked sender. -/
def step (Capacity : Nat) (l : Ledger) : Entry → Option Ledger
  | .nothing => some l
  | .push =>
    if l.values < Capacity ∧ l.receivers = 0 then some { l with values := l.values + 1 } else none
  | .pushWake =>
    if l.values < Capacity ∧ 0 < l.receivers then
      some { l with
        values := l.values + 1
        receivers := l.receivers - 1
        claims := l.claims + 1 }
    else none
  | .parkSender => some { l with senders := l.senders + 1 }
  | .parkReceiver => some { l with receivers := l.receivers + 1 }
  | .take => if 0 < l.values then some l.remove else none
  | .claim =>
    if 0 < l.values ∧ 0 < l.claims then some { l.remove with claims := l.claims - 1 } else none

/-- An empty channel without waiters. -/
def system (Capacity : Nat) : System Ledger Entry where
  init := ⟨0, 0, 0, 0⟩
  step := step Capacity

/-- The step condition on parking. A receiver parks when every value, also those
of parked senders, is claimed. A sender parks when the buffer is full, or one
more claim than parked senders is open; and beside a parked receiver, when one
more claim is open than there are values. -/
def InTime (Capacity : Nat) (l : Ledger) : Entry → Prop
  | .parkReceiver => l.values + l.senders ≤ l.claims
  | .parkSender => (l.claims ≤ l.senders → l.values = Capacity) ∧
      (0 < l.receivers → l.values + l.senders < l.claims)
  | _ => True

/-- The step condition on `await_ready`: it takes a value that is not claimed. -/
def Spare (l : Ledger) : Entry → Prop
  | .take => l.claims < l.values + l.senders
  | _ => True

variable {Capacity : Nat} {l l' : Ledger} {e : Entry}

/-- No receiver is parked beside an unclaimed value, and no sender beside a free
place that the claims leave free. -/
structure Settled (Capacity : Nat) (l : Ledger) : Prop where
  receivers : 0 < l.receivers → l.values + l.senders ≤ l.claims
  senders : l.claims < l.senders → l.values = Capacity

/-- Every claim has its value, and the first one finds it in the buffer. -/
structure Covered (l : Ledger) : Prop where
  enough : l.claims ≤ l.values + l.senders
  front : 0 < l.claims → 0 < l.values

/-- Only the two ways to park can unsettle the numbers. -/
theorem settled_step (h : Settled Capacity l) (hok : InTime Capacity l e)
    (hst : step Capacity l e = some l') : Settled Capacity l' := by
  obtain ⟨hReceivers, hSenders⟩ := h
  cases e with
  | nothing =>
    cases hst
    exact ⟨hReceivers, hSenders⟩
  | push =>
    simp only [step] at hst
    split at hst
    · cases hst
      constructor <;> intro hPos <;> simp only at hPos ⊢ <;> omega
    · cases hst
  | pushWake =>
    simp only [step] at hst
    split at hst
    · cases hst
      constructor <;> intro hPos <;> simp only at hPos ⊢ <;> omega
    · cases hst
  -- the two entries that need the step condition
  | parkSender =>
    cases hst
    obtain ⟨hFull, hLeft⟩ := hok
    constructor <;> intro hPos <;> simp only at hPos ⊢ <;> omega
  | parkReceiver =>
    cases hst
    simp only [InTime] at hok
    constructor <;> intro hPos <;> simp only at hPos ⊢ <;> omega
  -- when a sender is parked its value fills the place, and one sender fewer waits
  | take =>
    simp only [step, remove] at hst
    split at hst
    · split at hst <;> cases hst <;> constructor <;> intro hPos <;> simp only at hPos ⊢ <;> omega
    · cases hst
  | claim =>
    simp only [step, remove] at hst
    split at hst
    · split at hst <;> cases hst <;> constructor <;> intro hPos <;> simp only at hPos ⊢ <;> omega
    · cases hst

/-- Only a `take` can leave a claim uncovered. -/
theorem covered_step (h : Covered l) (hok : Spare l e) (hst : step Capacity l e = some l') :
    Covered l' := by
  obtain ⟨hEnough, hFront⟩ := h
  cases e with
  | nothing =>
    cases hst
    exact ⟨hEnough, hFront⟩
  | push =>
    simp only [step] at hst
    split at hst
    · cases hst
      exact ⟨by simp only; omega, fun _ => Nat.succ_pos _⟩
    · cases hst
  | pushWake =>
    simp only [step] at hst
    split at hst
    · cases hst
      exact ⟨by simp only; omega, fun _ => Nat.succ_pos _⟩
    · cases hst
  | parkSender =>
    cases hst
    exact ⟨by simp only; omega, hFront⟩
  | parkReceiver =>
    cases hst
    exact ⟨hEnough, hFront⟩
  -- the entry that needs the step condition: one value more than the claims is there
  | take =>
    simp only [Spare] at hok
    simp only [step, remove] at hst
    split at hst
    · split at hst <;> cases hst <;> constructor <;> simp only <;> omega
    · cases hst
  | claim =>
    simp only [step, remove] at hst
    split at hst
    · split at hst <;> cases hst <;> constructor <;> simp only <;> omega
    · cases hst

/-- In every run whose waiters park in time. -/
theorem settled (h : (system Capacity).ReachableWhere (InTime Capacity) l) : Settled Capacity l :=
  h.invariant (I := Settled Capacity) ⟨fun hPos => absurd hPos (Nat.lt_irrefl 0),
    fun hPos => absurd hPos (Nat.lt_irrefl 0)⟩ fun _ _ _ _ hI hok hst => settled_step hI hok hst

/-- In every run whose takers leave the claimed values. -/
theorem covered (h : (system Capacity).ReachableWhere Spare l) : Covered l :=
  h.invariant (I := Covered) ⟨Nat.le_refl 0, fun hPos => hPos⟩
    fun _ _ _ _ hI hok hst => covered_step hI hok hst

end Ledger

end EmbLinux.Channel
