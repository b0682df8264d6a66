import EmbLinux.HazardPointer.Model
import EmbLinux.Lib.ChainFamily

/-!
# EmbLinux — where the nodes of retired objects are

The shared list and what is left for each reclaimer are chains over one memory
(`ChainFamily`), and a thread has at most one more node in its hands. `Placed`
says that every allocated node is on one chain or in the hands of one thread,
and `Recorded` that the allocated nodes are those of the objects retired and not
deleted.
-/

namespace EmbLinux.HazardPointer

variable {τ ο π : Type*} [DecidableEq τ] [DecidableEq ο] [DecidableEq π] {addr : ο → π}
  {s s' : State τ ο π} {a : Action τ ο π} {t : τ} {o : ο}

/-- The node that a thread has taken off its chain, or made. -/
def Pc.hand : Pc → Option Nat
  | .addLoad node _ _ => some node
  | .addCas node _ _ => some node
  | .scan current _ _ => some current
  | .delete current _ => some current
  | _ => none

/-- The start of the chain that is left for a thread. -/
def Pc.rest : Pc → Nat
  | .addLoad _ rest _ => rest
  | .addCas _ rest _ => rest
  | .readNext current => current
  | .scan _ next _ => next
  | .delete _ next => next
  | _ => 0

@[simp] theorem rest_nextNode (node : Nat) : (nextNode node).rest = node := by
  unfold nextNode
  split
  · next hNull => rw [hNull]; rfl
  · rfl

@[simp] theorem hand_nextNode (node : Nat) : (nextNode node).hand = none := by
  unfold nextNode
  split <;> rfl

/-- The starts of the chains: of the shared list, and of each thread's. -/
def starts (s : State τ ο π) : Option τ → Nat
  | none => s.nodesToReclaim
  | some t => (s.pc t).rest

omit [DecidableEq ο] [DecidableEq π] in
/-- A step changes the list of its own thread. -/
theorem starts_update (h : s'.nodesToReclaim = s.nodesToReclaim) {pc : Pc}
    (hpc : s'.pc = Function.update s.pc t pc) :
    starts s' = Function.update (starts s) (some t) pc.rest := by
  funext k
  cases k with
  | none => simpa [starts] using h
  | some u =>
    rcases update_cases hpc u with ⟨rfl, hu⟩ | ⟨hne, hu⟩
    · simp [starts, hu]
    · simp [starts, hu, hne]

-- ---------------------------------------------------------------------------
-- Every allocated node is in one place
-- ---------------------------------------------------------------------------

/-- `place` says on which chain a node is, if on any. -/
structure Placed (s : State τ ο π) (place : Nat → Option (Option τ)) : Prop where
  /-- The lists of retired nodes have no node in common. -/
  chains : ChainFamily s.next 0 (starts s) place
  reading : ∀ t n, s.pc t = .readNext n → n ≠ 0
  /-- A node in a thread's hand is in none of them, -/
  hand : ∀ t n, (s.pc t).hand = some n → n ≠ 0 ∧ place n = none ∧ s.object n ≠ none
  /-- nor in the hand of another thread. -/
  handUnique : ∀ t u n, (s.pc t).hand = some n → (s.pc u).hand = some n → t = u
  /-- What is at one of these places exists, -/
  allocated : ∀ n, place n ≠ none → s.object n ≠ none
  /-- and what exists is at one of them. -/
  cover : ∀ n, s.object n ≠ none → place n ≠ none ∨ ∃ t, (s.pc t).hand = some n

omit [DecidableEq τ] [DecidableEq ο] [DecidableEq π] in
/-- No node is anywhere. -/
theorem placed_init : Placed (init τ ο π) fun _ => none where
  chains := by
    intro k
    refine ⟨[], ?_, fun i => ⟨nofun, nofun⟩⟩
    cases k <;> rfl
  reading := by simp [init]
  hand := by simp [init, Pc.hand]
  handUnique := by simp [init, Pc.hand]
  allocated := fun _ hNone => absurd rfl hNone
  cover := fun _ hNone => absurd rfl hNone

variable {place : Nat → Option (Option τ)}

section

omit [DecidableEq ο] [DecidableEq π]

/-- A step that changes neither the nodes nor what a thread has of them. -/
theorem Placed.still (h : Placed s place) {pc : Pc} (hpc : s'.pc = Function.update s.pc t pc)
    (hNext : s'.next = s.next) (hHead : s'.nodesToReclaim = s.nodesToReclaim)
    (hObject : s'.object = s.object) (hHand : pc.hand = (s.pc t).hand)
    (hRest : pc.rest = (s.pc t).rest) (hReading : ∀ n, pc ≠ .readNext n) : Placed s' place := by
  have hHands : ∀ u, (s'.pc u).hand = (s.pc u).hand := observe_update Pc.hand hpc hHand
  have hStarts : starts s' = starts s := by
    rw [starts_update hHead hpc, hRest]
    exact Function.update_eq_self (some t) (starts s)
  refine ⟨?_, ?_, ?_, ?_, ?_, ?_⟩
  · rw [hNext, hStarts]
    exact h.chains
  · intro u n hu
    rcases update_cases hpc u with ⟨-, hAt⟩ | ⟨-, hAt⟩ <;> rw [hAt] at hu
    · exact absurd hu (hReading n)
    · exact h.reading u n hu
  · intro u n hu
    rw [hHands] at hu
    rw [hObject]
    exact h.hand u n hu
  · intro u v n hu hv
    rw [hHands] at hu hv
    exact h.handUnique u v n hu hv
  · intro n hn
    rw [hObject]
    exact h.allocated n hn
  · intro n hn
    rw [hObject] at hn
    rcases h.cover n hn with hPlace | ⟨u, hu⟩
    · exact Or.inl hPlace
    · exact Or.inr ⟨u, (hHands u).trans hu⟩

/-- A step of thread `t` that may change the chains and what `t` has in its
hands. -/
theorem Placed.change (h : Placed s place) {pc : Pc} (hpc : s'.pc = Function.update s.pc t pc)
    {place' : Nat → Option (Option τ)} (hChains : ChainFamily s'.next 0 (starts s') place')
    (hReading : ∀ n, pc = .readNext n → n ≠ 0)
    (hHand : ∀ n, pc.hand = some n → n ≠ 0 ∧ place' n = none ∧ s'.object n ≠ none ∧
      ∀ u, u ≠ t → (s.pc u).hand ≠ some n)
    (hOther : ∀ u n, u ≠ t → (s.pc u).hand = some n → place' n = none ∧ s'.object n ≠ none)
    (hAllocated : ∀ n, place' n ≠ none → s'.object n ≠ none)
    (hCover : ∀ n, s'.object n ≠ none →
      place' n ≠ none ∨ pc.hand = some n ∨ ∃ u, u ≠ t ∧ (s.pc u).hand = some n) :
    Placed s' place' := by
  have hCases : ∀ u n, (s'.pc u).hand = some n →
      (u = t ∧ pc.hand = some n) ∨ (u ≠ t ∧ (s.pc u).hand = some n) := by
    intro u n hu
    rcases update_cases hpc u with ⟨hEq, hAt⟩ | ⟨hne, hAt⟩ <;> rw [hAt] at hu
    · exact Or.inl ⟨hEq, hu⟩
    · exact Or.inr ⟨hne, hu⟩
  refine ⟨hChains, ?_, ?_, ?_, hAllocated, ?_⟩
  · intro u n hu
    rcases update_cases hpc u with ⟨-, hAt⟩ | ⟨-, hAt⟩ <;> rw [hAt] at hu
    · exact hReading n hu
    · exact h.reading u n hu
  · intro u n hu
    rcases hCases u n hu with ⟨-, hNew⟩ | ⟨hne, hOld⟩
    · obtain ⟨hNull, hPlace, hObject, -⟩ := hHand n hNew
      exact ⟨hNull, hPlace, hObject⟩
    · exact ⟨(h.hand u n hOld).1, hOther u n hne hOld⟩
  · intro u v n hu hv
    rcases hCases u n hu with ⟨rfl, hNewU⟩ | ⟨hneU, hOldU⟩ <;>
      rcases hCases v n hv with ⟨rfl, hNewV⟩ | ⟨hneV, hOldV⟩
    · rfl
    · exact absurd hOldV ((hHand n hNewU).2.2.2 v hneV)
    · exact absurd hOldU ((hHand n hNewV).2.2.2 u hneU)
    · exact h.handUnique u v n hOldU hOldV
  · intro n hn
    rcases hCover n hn with hPlace | hNew | ⟨u, hne, hOld⟩
    · exact Or.inl hPlace
    · refine Or.inr ⟨t, ?_⟩
      rw [hpc, Function.update_self]
      exact hNew
    · refine Or.inr ⟨u, ?_⟩
      rw [hpc, Function.update_of_ne hne]
      exact hOld

/-- A thread other than `t` has its node in its hands still, if the step frees no
node and places none of these. -/
theorem Placed.cover_of_hand (h : Placed s place) {n : Nat} (hn : s.object n ≠ none) (t : τ) :
    place n ≠ none ∨ (s.pc t).hand = some n ∨ ∃ u, u ≠ t ∧ (s.pc u).hand = some n := by
  rcases h.cover n hn with hPlace | ⟨u, hu⟩
  · exact Or.inl hPlace
  · by_cases hut : u = t
    · exact Or.inr (Or.inl (hut ▸ hu))
    · exact Or.inr (Or.inr ⟨u, hut, hu⟩)

end

-- ---------------------------------------------------------------------------
-- The steps on nodes
-- ---------------------------------------------------------------------------

section

omit [DecidableEq ο] [DecidableEq π]

/-- `reclaim_later` makes a node. -/
theorem Placed.retire (h : Placed s place) {node : Nat} (hIdle : s.pc t = .idle) (hNull : node ≠ 0)
    (hFree : s.object node = none) (hpc : s'.pc = Function.update s.pc t (.addLoad node 0 true))
    (hNext : s'.next = Function.update s.next node 0)
    (hHead : s'.nodesToReclaim = s.nodesToReclaim)
    (hObject : s'.object = Function.update s.object node (some o)) : Placed s' place := by
  have hOut : place node = none := by
    by_contra hPlace
    exact h.allocated node hPlace hFree
  have hHandOther : ∀ u, (s.pc u).hand ≠ some node :=
    fun u hu => (h.hand u node hu).2.2 hFree
  have hStarts : starts s' = starts s := by
    rw [starts_update hHead hpc]
    have hRest : starts s (some t) = 0 := congrArg Pc.rest hIdle
    exact hRest ▸ Function.update_eq_self (some t) (starts s)
  have hOld : ∀ n, s.object n ≠ none → s'.object n ≠ none := by
    intro n hn
    rcases update_cases hObject n with ⟨-, hAt⟩ | ⟨-, hAt⟩ <;> rw [hAt]
    · exact nofun
    · exact hn
  refine h.change hpc ?_ nofun ?_ ?_ (fun n hn => hOld n (h.allocated n hn)) ?_
  · rw [hNext, hStarts]
    exact h.chains.store hOut 0
  · intro n hn
    obtain rfl : node = n := Option.some.inj hn
    refine ⟨hNull, hOut, ?_, fun u _ => hHandOther u⟩
    rw [hObject, Function.update_self]
    exact nofun
  · intro u n _ hu
    obtain ⟨-, hPlace, hn⟩ := h.hand u n hu
    exact ⟨hPlace, hOld n hn⟩
  · intro n hn
    rcases update_cases hObject n with ⟨rfl, -⟩ | ⟨-, hAt⟩
    · exact Or.inr (Or.inl rfl)
    · rw [hAt] at hn
      rcases h.cover_of_hand hn t with hPlace | hHand | hOther
      · exact Or.inl hPlace
      · rw [hIdle] at hHand
        cases hHand
      · exact Or.inr (Or.inr hOther)

/-- A store to `next` of the node in a thread's hands. -/
theorem Placed.store (h : Placed s place) {pc : Pc} {node : Nat}
    (hNode : (s.pc t).hand = some node) (hpc : s'.pc = Function.update s.pc t pc) (j : Nat)
    (hNext : s'.next = Function.update s.next node j)
    (hHead : s'.nodesToReclaim = s.nodesToReclaim) (hObject : s'.object = s.object)
    (hHand : pc.hand = some node) (hRest : pc.rest = (s.pc t).rest)
    (hReading : ∀ n, pc ≠ .readNext n) : Placed s' place := by
  have hStarts : starts s' = starts s := by
    rw [starts_update hHead hpc, hRest]
    exact Function.update_eq_self (some t) (starts s)
  obtain ⟨hNull, hOut, hLive⟩ := h.hand t node hNode
  refine h.change hpc ?_ (fun n hn => absurd hn (hReading n)) ?_ ?_ ?_ ?_
  · rw [hNext, hStarts]
    exact h.chains.store hOut j
  · intro n hn
    obtain rfl : node = n := Option.some.inj (hHand ▸ hn)
    rw [hObject]
    exact ⟨hNull, hOut, hLive, fun u hne hu => hne (h.handUnique u t node hu hNode)⟩
  · intro u n _ hu
    rw [hObject]
    exact (h.hand u n hu).2
  · rw [hObject]
    exact h.allocated
  · intro n hn
    rw [hObject] at hn
    rw [hHand, ← hNode]
    exact h.cover_of_hand hn t

/-- The exchange of `add_to_reclaim_list` puts the node in front of the list. -/
theorem Placed.add (h : Placed s place) {pc : Pc} {node : Nat} (hNode : (s.pc t).hand = some node)
    (hNext : s.next node = s.nodesToReclaim) (hpc : s'.pc = Function.update s.pc t pc)
    (hSame : s'.next = s.next) (hHead : s'.nodesToReclaim = node) (hObject : s'.object = s.object)
    (hHand : pc.hand = none) (hRest : pc.rest = (s.pc t).rest)
    (hReading : ∀ n, pc = .readNext n → n ≠ 0) :
    Placed s' (Function.update place node (some none)) := by
  obtain ⟨hNull, hOut, hLive⟩ := h.hand t node hNode
  have hStarts : starts s' = Function.update (starts s) none node := by
    funext k
    cases k with
    | none => exact hHead
    | some u => exact observe_update Pc.rest hpc hRest u
  refine h.change hpc ?_ hReading ?_ ?_ ?_ ?_
  · rw [hSame, hStarts]
    exact h.chains.push hNull hOut hNext
  · intro n hn
    rw [hHand] at hn
    cases hn
  · intro u n hne hu
    have hOther : n ≠ node := fun hEq => hne (h.handUnique u t node (hEq ▸ hu) hNode)
    rw [Function.update_of_ne hOther, hObject]
    exact (h.hand u n hu).2
  · intro n hn
    rw [hObject]
    rcases update_at place node (some none) n with ⟨rfl, -⟩ | ⟨-, hAt⟩
    · exact hLive
    · exact h.allocated n (hAt ▸ hn)
  · intro n hn
    rw [hObject] at hn
    rcases update_at place node (some none) n with ⟨rfl, hAt⟩ | ⟨hne, hAt⟩ <;> rw [hAt]
    · exact Or.inl nofun
    · rcases h.cover_of_hand hn t with hPlace | hOld | hOther
      · exact Or.inl hPlace
      · exact absurd (Option.some.inj (hOld.symm.trans hNode)) hne
      · exact Or.inr (Or.inr hOther)

/-- The exchange of `delete_nodes_with_no_hazards` takes the whole list. -/
theorem Placed.takeAll (h : Placed s place) {pc : Pc} (hRest : (s.pc t).rest = 0)
    (hNone : (s.pc t).hand = none) (hpc : s'.pc = Function.update s.pc t pc)
    (hSame : s'.next = s.next) (hHead : s'.nodesToReclaim = 0) (hObject : s'.object = s.object)
    (hHand : pc.hand = none) (hNew : pc.rest = s.nodesToReclaim)
    (hReading : ∀ n, pc = .readNext n → n ≠ 0) :
    Placed s' fun n => if place n = some none then some (some t) else place n := by
  have hStarts : starts s' =
      Function.update (Function.update (starts s) none 0) (some t) (starts s none) := by
    funext k
    cases k with
    | none => exact hHead
    | some u =>
      rcases update_cases hpc u with ⟨rfl, hu⟩ | ⟨hne, hu⟩
      · simp [starts, hu, hNew]
      · simp [starts, hu, hne]
  have hPlace : ∀ n, (if place n = some none then some (some t) else place n) = none ↔
      place n = none := by
    intro n
    split
    · next hShared => simp [hShared]
    · exact Iff.rfl
  refine h.change hpc ?_ hReading ?_ ?_ ?_ ?_
  · rw [hSame, hStarts]
    exact h.chains.moveAll hRest nofun
  · intro n hn
    rw [hHand] at hn
    cases hn
  · intro u n _ hu
    rw [hPlace, hObject]
    exact (h.hand u n hu).2
  · intro n hn
    rw [Ne, hPlace] at hn
    rw [hObject]
    exact h.allocated n hn
  · intro n hn
    rw [hObject] at hn
    rw [Ne, hPlace]
    rcases h.cover_of_hand hn t with hOld | hOld | hOther
    · exact Or.inl hOld
    · rw [hNone] at hOld
      cases hOld
    · exact Or.inr (Or.inr hOther)

/-- A reclaimer takes the next node of its chain. -/
theorem Placed.takeNext (h : Placed s place) {pc : Pc} {node : Nat} (hpc₀ : s.pc t = .readNext node)
    (hpc : s'.pc = Function.update s.pc t pc) (hSame : s'.next = s.next)
    (hHead : s'.nodesToReclaim = s.nodesToReclaim) (hObject : s'.object = s.object)
    (hHand : pc.hand = some node) (hRest : pc.rest = s.next node)
    (hReading : ∀ n, pc ≠ .readNext n) : Placed s' (Function.update place node none) := by
  have hNull := h.reading t node hpc₀
  have hStart : starts s (some t) = node := congrArg Pc.rest hpc₀
  have hAt : place node = some (some t) := by
    have hPlace := h.chains.place_start (k := some t) (hStart ▸ hNull)
    rwa [hStart] at hPlace
  have hHandOther : ∀ u, (s.pc u).hand ≠ some node := by
    intro u hu
    rw [(h.hand u node hu).2.1] at hAt
    cases hAt
  refine h.change hpc ?_ (fun n hn => absurd hn (hReading n)) ?_ ?_ ?_ ?_
  · have hPop := h.chains.pop (k := some t) (hStart ▸ hNull)
    rw [hStart] at hPop
    rw [hSame, starts_update hHead hpc, hRest]
    exact hPop
  · intro n hn
    obtain rfl : node = n := Option.some.inj (hHand ▸ hn)
    rw [Function.update_self, hObject]
    refine ⟨hNull, rfl, h.allocated node ?_, fun u _ => hHandOther u⟩
    rw [hAt]
    exact nofun
  · intro u n _ hu
    have hOther : n ≠ node := fun hEq => hHandOther u (hEq ▸ hu)
    rw [Function.update_of_ne hOther, hObject]
    exact (h.hand u n hu).2
  · intro n hn
    rw [hObject]
    rcases update_at place node none n with ⟨-, hEq⟩ | ⟨-, hEq⟩ <;> rw [hEq] at hn
    · exact absurd rfl hn
    · exact h.allocated n hn
  · intro n hn
    rw [hObject] at hn
    rcases update_at place node none n with ⟨rfl, -⟩ | ⟨-, hEq⟩
    · exact Or.inr (Or.inl hHand)
    · rw [hEq]
      rcases h.cover_of_hand hn t with hOld | hOld | hOther
      · exact Or.inl hOld
      · rw [hpc₀] at hOld
        cases hOld
      · exact Or.inr (Or.inr hOther)

/-- A reclaimer deletes the node in its hands. -/
theorem Placed.delete (h : Placed s place) {pc : Pc} {node : Nat}
    (hNode : (s.pc t).hand = some node) (hpc : s'.pc = Function.update s.pc t pc)
    (hSame : s'.next = s.next)
    (hHead : s'.nodesToReclaim = s.nodesToReclaim)
    (hObject : s'.object = Function.update s.object node none)
    (hHand : pc.hand = none) (hRest : pc.rest = (s.pc t).rest)
    (hReading : ∀ n, pc = .readNext n → n ≠ 0) : Placed s' place := by
  have hStarts : starts s' = starts s := by
    rw [starts_update hHead hpc, hRest]
    exact Function.update_eq_self (some t) (starts s)
  obtain ⟨-, hOut, -⟩ := h.hand t node hNode
  have hKeep : ∀ n, n ≠ node → s'.object n = s.object n := by
    intro n hne
    rw [hObject, Function.update_of_ne hne]
  refine h.change hpc ?_ hReading ?_ ?_ ?_ ?_
  · rw [hSame, hStarts]
    exact h.chains
  · intro n hn
    rw [hHand] at hn
    cases hn
  · intro u n hne hu
    rw [hKeep n fun hEq => hne (h.handUnique u t node (hEq ▸ hu) hNode)]
    exact (h.hand u n hu).2
  · intro n hn
    rw [hKeep n fun hEq => hn (hEq ▸ hOut)]
    exact h.allocated n hn
  · intro n hn
    rcases update_cases hObject n with ⟨-, hAt⟩ | ⟨hne, hAt⟩ <;> rw [hAt] at hn
    · exact absurd rfl hn
    · rcases h.cover_of_hand hn t with hOld | hOld | hOther
      · exact Or.inl hOld
      · exact absurd (Option.some.inj (hOld.symm.trans hNode)) hne
      · exact Or.inr (Or.inr hOther)

end

-- ---------------------------------------------------------------------------
-- Every step
-- ---------------------------------------------------------------------------

/-- A thread that reads on has a node. -/
theorem nextNode_reading (node : Nat) (n : Nat) (h : nextNode node = .readNext n) : n ≠ 0 := by
  unfold nextNode at h
  split at h <;> cases h
  next hNull => exact hNull

omit [DecidableEq τ] [DecidableEq ο] in
/-- A scan finds the address and puts the node back, goes on, or has come to the end and
deletes. -/
theorem afterScan_cases (s : State τ ο π) (current next i : Nat) :
    (s.pointer i = s.data current ∧ s.afterScan current next i = .addLoad current next false) ∨
    (s.pointer i ≠ s.data current ∧
      ((i + 1 < kMaxHazardPointers ∧ s.afterScan current next i = .scan current next (i + 1)) ∨
      (kMaxHazardPointers ≤ i + 1 ∧ s.afterScan current next i = .delete current next))) := by
  unfold State.afterScan
  split
  · next hHeld => exact Or.inl ⟨hHeld, rfl⟩
  · next hFree =>
    refine Or.inr ⟨hFree, ?_⟩
    split
    · next hMore => exact Or.inl ⟨hMore, rfl⟩
    · next hLast => exact Or.inr ⟨Nat.le_of_not_lt hLast, rfl⟩

/-- The next access of a thread. -/
theorem placed_run (h : Placed s place) {spurious : Bool}
    (hst : run addr s t spurious = some s') : ∃ place', Placed s' place' := by
  unfold run at hst
  split at hst
  · cases hst
  · next i hpc =>
    split at hst <;> cases hst
    · exact ⟨place, h.still rfl rfl rfl rfl (by rw [hpc]; rfl) (by rw [hpc]; rfl) nofun⟩
    · refine ⟨place, h.still rfl rfl rfl rfl ?_ ?_ ?_⟩ <;> split
      all_goals first | rw [hpc]; rfl | exact nofun
  · next i hpc =>
    cases hst
    exact ⟨place, h.still rfl rfl rfl rfl (by rw [hpc]; rfl) (by rw [hpc]; rfl) nofun⟩
  · next i hpc =>
    cases hst
    exact ⟨place, h.still rfl rfl rfl rfl (by rw [hpc]; rfl) (by rw [hpc]; rfl) nofun⟩
  · next node rest new hpc =>
    cases hst
    have hNode : (s.pc t).hand = some node := by rw [hpc]; rfl
    exact ⟨place, h.store hNode rfl _ rfl rfl rfl rfl (by rw [hpc]; rfl) nofun⟩
  · next node rest new hpc =>
    have hNode : (s.pc t).hand = some node := by rw [hpc]; rfl
    split at hst <;> cases hst
    · next hCas =>
      refine ⟨_, h.add hNode hCas.1.symm rfl rfl rfl rfl (hand_nextNode rest) ?_
        (nextNode_reading rest)⟩
      rw [rest_nextNode, hpc]
      rfl
    · exact ⟨place, h.store hNode (Function.update_eq_self t s.pc).symm _ rfl rfl rfl hNode rfl
        (by rw [hpc]; exact nofun)⟩
  · next hpc =>
    cases hst
    exact ⟨_, h.takeAll (by rw [hpc]; rfl) (by rw [hpc]; rfl) rfl rfl rfl rfl
      (hand_nextNode _) (rest_nextNode _) (nextNode_reading _)⟩
  · next current hpc =>
    cases hst
    exact ⟨_, h.takeNext hpc rfl rfl rfl rfl rfl rfl nofun⟩
  · next current next i hpc =>
    cases hst
    refine ⟨place, h.still rfl rfl rfl rfl ?_ ?_ ?_⟩ <;>
      rcases afterScan_cases s current next i with ⟨-, hPc⟩ | ⟨-, ⟨-, hPc⟩ | ⟨-, hPc⟩⟩ <;> rw [hPc]
    all_goals first | rw [hpc]; rfl | exact nofun
  · next current next hpc =>
    cases hst
    refine ⟨place, h.delete (by rw [hpc]; rfl) rfl rfl rfl rfl (hand_nextNode next) ?_
      (nextNode_reading next)⟩
    rw [rest_nextNode, hpc]
    rfl

/-- A case for each action. -/
theorem placed_step (h : Placed s place) (hst : step addr s a = some s') :
    ∃ place', Placed s' place' := by
  cases a with
  | run t spurious => exact placed_run h hst
  | retire t o node =>
    simp only [step] at hst
    split at hst <;> cases hst
    next hGuard =>
    exact ⟨place, h.retire hGuard.1 hGuard.2.1 hGuard.2.2 rfl rfl rfl rfl⟩
  | acquire t =>
    simp only [step] at hst
    split at hst <;> cases hst
    next hIdle =>
    exact ⟨place, h.still rfl rfl rfl rfl (by rw [hIdle]; rfl) (by rw [hIdle]; rfl) nofun⟩
  | release t i =>
    simp only [step] at hst
    split at hst <;> cases hst
    next hGuard =>
    exact ⟨place, h.still rfl rfl rfl rfl (by rw [hGuard.1]; rfl) (by rw [hGuard.1]; rfl) nofun⟩
  | store t i p =>
    simp only [step] at hst
    split at hst <;> cases hst
    next hGuard =>
    exact ⟨place, h.still (Function.update_eq_self t s.pc).symm rfl rfl rfl rfl rfl
      (by rw [hGuard.1]; exact nofun)⟩
  | reclaim t =>
    simp only [step] at hst
    split at hst <;> cases hst
    next hIdle =>
    exact ⟨place, h.still rfl rfl rfl rfl (by rw [hIdle]; rfl) (by rw [hIdle]; rfl) nofun⟩

end EmbLinux.HazardPointer
