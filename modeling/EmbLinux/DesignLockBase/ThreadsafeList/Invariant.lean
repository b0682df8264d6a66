import EmbLinux.DesignLockBase.ThreadsafeList.Steps
import EmbLinux.Lib.Exclusive
import EmbLinux.Lib.Mutex

/-!
# EmbLinux — the nodes and mutexes of `threadsafe_list`

`Inv` says that the pointers run through `nodes`, except behind a node whose `next` one thread
has moved out, and what every thread knows at its program point: the node that it has locked
is in the list and does not leave it, and the node behind that one stays the same.
-/

namespace EmbLinux.DesignLockBase.ThreadsafeList

variable {τ α : Type*} [DecidableEq τ] {s s' : State τ α} {a : Action τ α} {t u : τ}
  {pc : Pc α} {p q : Nat}

-- ---------------------------------------------------------------------------
-- The invariant
-- ---------------------------------------------------------------------------

/-- The node behind `p`, or null. -/
def State.succ (s : State τ α) (p : Nat) : Nat :=
  (following p (head :: s.nodes)).headD 0

/-- What a thread knows at its program point. -/
def PcOk (s : State τ α) : Pc α → Prop
  | .pushLink p => s.next p = s.succ head
  | .readNext _ c => c ∈ head :: s.nodes
  | .unlockLast _ c => c ∈ head :: s.nodes ∧ s.succ c = 0
  | .lockNext _ c n | .unlockCurrent _ c n | .callPredicate c n | .removeTake c n
  | .removePass c n => c ∈ head :: s.nodes ∧ n ≠ 0 ∧ s.succ c = n
  | .callBack _ n | .findReturn n | .findUnlock n _ => n ∈ s.nodes
  | .removeLink c n => c ∈ head :: s.nodes ∧ s.next n = s.succ c
  | .removeUnlock c _ | .removeDelete c _ => c ∈ head :: s.nodes
  | _ => True

/-- A node that exists, apart from `head`. -/
structure Live (s : State τ α) (p : Nat) : Prop where
  ge : 2 ≤ p
  lt : p < s.news + 2
  allocated : s.allocated p = true
  data : (s.data p).isSome = true

/-- The mutexes belong to the threads that hold them, the nodes are linked in the order of
`nodes` except where a thread with the lock is about to relink, and each thread outside the list
owns the node that it made or took out. -/
structure Inv (s : State τ α) : Prop where
  /-- The mutex of a node is with the thread that stands where it has it locked. -/
  locks : ∀ p, Guards (s.mutex p) fun t => (s.pc t).holds p
  nodup : (head :: s.nodes).Nodup
  headLive : s.allocated head = true
  /-- The nodes of the list exist and have an element, -/
  live : ∀ p ∈ s.nodes, Live s p
  /-- and each points to the next one, unless a thread has moved its pointer out. -/
  next : ∀ p ∈ head :: s.nodes, (∀ t, (s.pc t).breaks ≠ some p) → s.next p = s.succ p
  /-- A node outside of the list is with one thread. -/
  owned : Exclusive fun t => (s.pc t).owned
  ownedLive : ∀ t p, (s.pc t).owned = some p → Live s p ∧ p ∉ s.nodes
  /-- What the threads know of the nodes that they have locked. -/
  pcs : ∀ t, PcOk s (s.pc t)

section

omit [DecidableEq τ]

/-- An empty list. -/
theorem inv_init : Inv (init τ α) := by
  refine ⟨fun p t => ?_, ?_, rfl, ?_, ?_, ?_, ?_, fun _ => trivial⟩
  · simp [init, Pc.holds]
  · exact List.nodup_singleton head
  · intro p hp
    exact absurd hp List.not_mem_nil
  · intro p hp _
    rw [List.mem_singleton.mp hp]
    rfl
  · exact Exclusive.empty
  · intro t p h
    cases h

/-- A node with a successor is in the list, -/
theorem mem_of_succ {c n : Nat} (hSucc : s.succ c = n) (hn : n ≠ 0) :
    ∃ r, following c (head :: s.nodes) = n :: r := by
  unfold State.succ at hSucc
  cases hList : following c (head :: s.nodes) with
  | nil =>
    rw [hList] at hSucc
    exact absurd hSucc.symm hn
  | cons m r =>
    rw [hList] at hSucc
    obtain rfl : m = n := hSucc
    exact ⟨r, rfl⟩

/-- and so is the successor. -/
theorem succ_mem {c n : Nat} (hSucc : s.succ c = n) (hn : n ≠ 0) : n ∈ s.nodes := by
  obtain ⟨r, hList⟩ := mem_of_succ hSucc hn
  exact (following_cons_sublist c head s.nodes).subset (hList ▸ List.mem_cons_self)

end

namespace Inv

variable (h : Inv s)

include h

section

omit [DecidableEq τ]

/-- What a thread has locked is in the list, or its own. -/
theorem mem_of_holds (hHolds : (s.pc t).holds p = true) :
    p ∈ head :: s.nodes ∨ (s.pc t).owned = some p := by
  have hOk := h.pcs t
  cases hpc : s.pc t <;> rw [hpc] at hOk hHolds <;>
    simp only [Pc.holds, decide_eq_true_eq] at hHolds
  case pushTake | pushLink | pushUnlock =>
    exact Or.inl (hHolds ▸ List.mem_cons_self)
  case readNext | removeDelete => exact Or.inl (hHolds ▸ hOk)
  case lockNext | unlockLast => exact Or.inl (hHolds ▸ hOk.1)
  case callBack | findReturn | findUnlock => exact Or.inl (hHolds ▸ List.mem_cons_of_mem _ hOk)
  case unlockCurrent | callPredicate | removeTake | removePass =>
    rcases hHolds with rfl | rfl
    · exact Or.inl hOk.1
    · exact Or.inl (List.mem_cons_of_mem _ (succ_mem hOk.2.2 hOk.2.1))
  case removeLink =>
    rcases hHolds with rfl | rfl
    · exact Or.inl hOk.1
    · exact Or.inr rfl
  case removeUnlock =>
    rcases hHolds with rfl | rfl
    · exact Or.inl hOk
    · exact Or.inr rfl
  all_goals cases hHolds

/-- The head is not one of the nodes with a value. -/
theorem head_not_mem : head ∉ s.nodes :=
  (List.nodup_cons.mp h.nodup).1

/-- A node that a thread owns is not in the list. -/
theorem owned_ne (ht : (s.pc t).owned = some p) : p ∉ head :: s.nodes := by
  obtain ⟨hLive, hOut⟩ := h.ownedLive t p ht
  intro hMem
  rcases List.mem_cons.mp hMem with rfl | hMem
  · exact absurd hLive.ge (by decide)
  · exact hOut hMem

/-- What two threads hold is different. -/
theorem ne_of_holds (hut : u ≠ t) (hu : (s.pc u).holds p = true) (ht : (s.pc t).holds q = true) :
    p ≠ q := by
  rintro rfl
  exact hut ((h.locks p).unique hu ht)

/-- The `next` of a node that is locked, and not broken by the thread itself. -/
theorem next_eq (hp : p ∈ head :: s.nodes) (hHolds : (s.pc t).holds p = true)
    (hNot : (s.pc t).breaks ≠ some p) : s.next p = s.succ p := by
  refine h.next p hp fun u hu => ?_
  obtain rfl := (h.locks p).unique (Pc.holds_of_breaks hu) hHolds
  exact hNot hu

end

end Inv

-- ---------------------------------------------------------------------------
-- Threads that do not move
-- ---------------------------------------------------------------------------

omit [DecidableEq τ] in
/-- A thread keeps what it knows, if what it has locked stays in the list with the same node
behind it, and nobody writes to its own node. -/
theorem PcOk.keep (h : PcOk s pc) (hHead : head ∉ s.nodes)
    (hSucc : ∀ p ∈ head :: s.nodes, pc.holds p = true → p ∈ head :: s'.nodes ∧ s'.succ p = s.succ p)
    (hNext : ∀ p, pc.owned = some p → s'.next p = s.next p) : PcOk s' pc := by
  have hNode : ∀ n ∈ s.nodes, pc.holds n = true → n ∈ s'.nodes := by
    intro n hn hHolds
    rcases List.mem_cons.mp (hSucc n (List.mem_cons_of_mem _ hn) hHolds).1 with rfl | hMem
    · exact absurd hn hHead
    · exact hMem
  cases pc with
  | pushLink p =>
    have hFirst := (hSucc head List.mem_cons_self (by simp [Pc.holds])).2
    exact (hNext p rfl).trans (Eq.trans h hFirst.symm)
  | readNext v c | removeUnlock c n | removeDelete c n =>
    exact (hSucc c h (by simp [Pc.holds])).1
  | unlockLast v c =>
    obtain ⟨hMem, hSame⟩ := hSucc c h.1 (by simp [Pc.holds])
    exact ⟨hMem, hSame.trans h.2⟩
  | lockNext v c n | unlockCurrent v c n | callPredicate c n | removeTake c n | removePass c n =>
    obtain ⟨hMem, hSame⟩ := hSucc c h.1 (by simp [Pc.holds])
    exact ⟨hMem, h.2.1, hSame.trans h.2.2⟩
  | callBack v n | findReturn n | findUnlock n res => exact hNode n h (by simp [Pc.holds])
  | removeLink c n =>
    obtain ⟨hMem, hSame⟩ := hSucc c h.1 (by simp [Pc.holds])
    exact ⟨hMem, (hNext n rfl).trans (h.2.trans hSame.symm)⟩
  | _ => trivial

end EmbLinux.DesignLockBase.ThreadsafeList
