import EmbLinux.HazardPointer.Places

/-!
# EmbLinux — hazard-pointer reclamation is safe and loses nothing

Three invariants on top of `Placed`:

* `Recorded` — the allocated nodes are those of the objects retired and not yet
  deleted, one for each;
* `Slots` — the owners of a thread hold the slots that have its id;
* `Guarded` — a reclaimer that has read the slots below `i` has seen that none of
  them holds the address of its object since before it was retired. A slot that
  gets the address later does not count, so what was seen stays true.
-/

namespace EmbLinux.HazardPointer

variable {τ ο π : Type*} [DecidableEq τ] [DecidableEq ο] [DecidableEq π] {addr : ο → π}
  {s s' : State τ ο π} {a : Action τ ο π} {t : τ} {o : ο} {place : Nat → Option (Option τ)}

/-- Each object is retired once. -/
def RetiredOnce (s : State τ ο π) : Action τ ο π → Prop
  | .retire _ o _ => o ∉ s.retired
  | _ => True

instance (s : State τ ο π) : DecidablePred (RetiredOnce s)
  | .retire _ o _ => inferInstanceAs (Decidable (o ∉ s.retired))
  | .acquire _ => inferInstanceAs (Decidable True)
  | .release _ _ => inferInstanceAs (Decidable True)
  | .store _ _ _ => inferInstanceAs (Decidable True)
  | .reclaim _ => inferInstanceAs (Decidable True)
  | .run _ _ => inferInstanceAs (Decidable True)

-- ---------------------------------------------------------------------------
-- The objects and their nodes
-- ---------------------------------------------------------------------------

/-- A node is for one object, which is retired and not yet deleted, and has its address. -/
structure Recorded (addr : ο → π) (s : State τ ο π) : Prop where
  /-- An object has one node, -/
  node : ∀ n m o, s.object n = some o → s.object m = some o → n = m
  /-- while it is retired and not deleted. -/
  present : ∀ n o, s.object n = some o → o ∈ s.retired ∧ o ∉ s.deleted
  /-- A retired object has its node or is deleted, -/
  gone : ∀ o, o ∈ s.retired → (∃ n, s.object n = some o) ∨ o ∈ s.deleted
  retired : ∀ o, o ∈ s.deleted → o ∈ s.retired
  /-- and is deleted once. -/
  once : s.deleted.Nodup
  /-- The node has the object's address. -/
  data : ∀ n o, s.object n = some o → s.data n = some (addr o)

section

omit [DecidableEq τ] [DecidableEq ο] [DecidableEq π]

/-- Nothing is retired. -/
theorem recorded_init : Recorded addr (init τ ο π) := by
  refine ⟨?_, ?_, ?_, ?_, List.nodup_nil, ?_⟩ <;> simp [init]

/-- Most steps change none of this. -/
theorem Recorded.of_eq (h : Recorded addr s) (hObject : s'.object = s.object)
    (hRetired : s'.retired = s.retired) (hDeleted : s'.deleted = s.deleted)
    (hData : s'.data = s.data) : Recorded addr s' := by
  refine ⟨?_, ?_, ?_, ?_, ?_, ?_⟩
  · rw [hObject]
    exact h.node
  · rw [hObject, hRetired, hDeleted]
    exact h.present
  · rw [hObject, hRetired, hDeleted]
    exact h.gone
  · rw [hRetired, hDeleted]
    exact h.retired
  · rw [hDeleted]
    exact h.once
  · rw [hObject, hData]
    exact h.data

/-- `add_to_reclaim_list` makes a node for its object, -/
theorem Recorded.retire (h : Recorded addr s) {node : Nat} (hFree : s.object node = none)
    (hNew : o ∉ s.retired) (hObject : s'.object = Function.update s.object node (some o))
    (hRetired : s'.retired = s.retired ++ [o]) (hDeleted : s'.deleted = s.deleted)
    (hData : s'.data = Function.update s.data node (some (addr o))) : Recorded addr s' := by
  have hCases : ∀ n o', s'.object n = some o' →
      (n = node ∧ o' = o) ∨ (n ≠ node ∧ s.object n = some o') := by
    intro n o' hn
    rcases update_cases hObject n with ⟨hEq, hAt⟩ | ⟨hne, hAt⟩ <;> rw [hAt] at hn
    · exact Or.inl ⟨hEq, (Option.some.inj hn).symm⟩
    · exact Or.inr ⟨hne, hn⟩
  refine ⟨?_, ?_, ?_, ?_, hDeleted ▸ h.once, ?_⟩
  · intro n m o' hn hm
    rcases hCases n o' hn with ⟨rfl, rfl⟩ | ⟨-, hn⟩ <;>
      rcases hCases m _ hm with ⟨rfl, hEq⟩ | ⟨-, hm⟩
    · rfl
    · exact absurd (h.present m _ hm).1 hNew
    · exact absurd (hEq ▸ (h.present n _ hn).1) hNew
    · exact h.node n m _ hn hm
  · intro n o' hn
    rw [hRetired, hDeleted]
    rcases hCases n o' hn with ⟨-, rfl⟩ | ⟨-, hn⟩
    · exact ⟨by simp, fun hMem => hNew (h.retired _ hMem)⟩
    · obtain ⟨hIn, hOut⟩ := h.present n o' hn
      exact ⟨List.mem_append_left _ hIn, hOut⟩
  · intro o' ho
    rw [hRetired] at ho
    rw [hDeleted]
    rcases List.mem_append.mp ho with ho | ho
    · rcases h.gone o' ho with ⟨n, hn⟩ | hDel
      · have hne : n ≠ node := fun hEq => by rw [hEq, hFree] at hn; cases hn
        refine Or.inl ⟨n, ?_⟩
        rw [hObject, Function.update_of_ne hne]
        exact hn
      · exact Or.inr hDel
    · obtain rfl := List.mem_singleton.mp ho
      refine Or.inl ⟨node, ?_⟩
      rw [hObject, Function.update_self]
  · intro o' ho
    rw [hRetired]
    exact List.mem_append_left _ (h.retired o' (hDeleted ▸ ho))
  · intro n o' hn
    rw [hData]
    rcases hCases n o' hn with ⟨rfl, rfl⟩ | ⟨hne, hn⟩
    · rw [Function.update_self]
    · rw [Function.update_of_ne hne]
      exact h.data n o' hn

/-- and a deletion removes both. -/
theorem Recorded.delete (h : Recorded addr s) {node : Nat} (hNode : s.object node = some o)
    (hObject : s'.object = Function.update s.object node none) (hRetired : s'.retired = s.retired)
    (hDeleted : s'.deleted = s.deleted ++ [o]) (hData : s'.data = s.data) :
    Recorded addr s' := by
  obtain ⟨hIn, hOut⟩ := h.present node o hNode
  have hCases : ∀ n o', s'.object n = some o' → n ≠ node ∧ s.object n = some o' := by
    intro n o' hn
    rcases update_cases hObject n with ⟨-, hAt⟩ | ⟨hne, hAt⟩ <;> rw [hAt] at hn
    · cases hn
    · exact ⟨hne, hn⟩
  refine ⟨?_, ?_, ?_, ?_, ?_, ?_⟩
  · intro n m o' hn hm
    exact h.node n m o' (hCases n o' hn).2 (hCases m o' hm).2
  · intro n o' hn
    obtain ⟨hne, hn⟩ := hCases n o' hn
    obtain ⟨hIn', hOut'⟩ := h.present n o' hn
    rw [hRetired, hDeleted]
    refine ⟨hIn', fun hMem => ?_⟩
    rcases List.mem_append.mp hMem with hMem | hMem
    · exact hOut' hMem
    · obtain rfl := List.mem_singleton.mp hMem
      exact hne (h.node n node _ hn hNode)
  · intro o' ho
    rw [hRetired] at ho
    rw [hDeleted]
    rcases h.gone o' ho with ⟨n, hn⟩ | hDel
    · by_cases hne : n = node
      · rw [hne, hNode] at hn
        exact Or.inr (List.mem_append_right _ (List.mem_singleton.mpr (Option.some.inj hn).symm))
      · refine Or.inl ⟨n, ?_⟩
        rw [hObject, Function.update_of_ne hne]
        exact hn
    · exact Or.inr (List.mem_append_left _ hDel)
  · intro o' ho
    rw [hRetired]
    rw [hDeleted] at ho
    rcases List.mem_append.mp ho with ho | ho
    · exact h.retired o' ho
    · rwa [List.mem_singleton.mp ho]
  · rw [hDeleted]
    exact List.nodup_append'.mpr ⟨h.once, List.nodup_singleton o, by simpa using hOut⟩
  · intro n o' hn
    rw [hData]
    exact h.data n o' (hCases n o' hn).2

end

/-- What an access does to the objects: nothing, but for the deletion. -/
theorem run_records {spurious : Bool} (hst : run addr s t spurious = some s') :
    s'.retired = s.retired ∧ s'.data = s.data ∧
      ((s'.object = s.object ∧ s'.deleted = s.deleted) ∨
      ∃ current next, s.pc t = .delete current next ∧
        s'.object = Function.update s.object current none ∧
        s'.deleted = s.deleted ++ (s.object current).toList) := by
  unfold run at hst
  split at hst
  · cases hst
  · split at hst <;> cases hst <;> exact ⟨rfl, rfl, Or.inl ⟨rfl, rfl⟩⟩
  · cases hst
    exact ⟨rfl, rfl, Or.inl ⟨rfl, rfl⟩⟩
  · cases hst
    exact ⟨rfl, rfl, Or.inl ⟨rfl, rfl⟩⟩
  · cases hst
    exact ⟨rfl, rfl, Or.inl ⟨rfl, rfl⟩⟩
  · split at hst <;> cases hst <;> exact ⟨rfl, rfl, Or.inl ⟨rfl, rfl⟩⟩
  · cases hst
    exact ⟨rfl, rfl, Or.inl ⟨rfl, rfl⟩⟩
  · cases hst
    exact ⟨rfl, rfl, Or.inl ⟨rfl, rfl⟩⟩
  · cases hst
    exact ⟨rfl, rfl, Or.inl ⟨rfl, rfl⟩⟩
  · next current next hpc =>
    cases hst
    exact ⟨rfl, rfl, Or.inr ⟨current, next, hpc, rfl, rfl⟩⟩

/-- A case for each action; the condition is that of retiring. -/
theorem recorded_step (hP : Placed s place) (h : Recorded addr s) (hOnce : RetiredOnce s a)
    (hst : step addr s a = some s') : Recorded addr s' := by
  cases a with
  | run t spurious =>
    obtain ⟨hRetired, hData, ⟨hObject, hDeleted⟩ | ⟨current, next, hpc, hObject, hDeleted⟩⟩ :=
      run_records hst
    · exact h.of_eq hObject hRetired hDeleted hData
    · obtain ⟨-, -, hLive⟩ := hP.hand t current (by rw [hpc]; rfl)
      obtain ⟨o, hNode⟩ := Option.ne_none_iff_exists'.mp hLive
      rw [hNode] at hDeleted
      exact h.delete hNode hObject hRetired hDeleted hData
  | retire t o node =>
    simp only [step] at hst
    split at hst <;> cases hst
    next hGuard =>
    exact h.retire hGuard.2.2 hOnce rfl rfl rfl rfl
  | acquire t =>
    simp only [step] at hst
    split at hst <;> cases hst
    exact h.of_eq rfl rfl rfl rfl
  | release t i =>
    simp only [step] at hst
    split at hst <;> cases hst
    exact h.of_eq rfl rfl rfl rfl
  | store t i p =>
    simp only [step] at hst
    split at hst <;> cases hst
    exact h.of_eq rfl rfl rfl rfl
  | reclaim t =>
    simp only [step] at hst
    split at hst <;> cases hst
    exact h.of_eq rfl rfl rfl rfl

-- ---------------------------------------------------------------------------
-- The slots and their owners
-- ---------------------------------------------------------------------------

/-- The slot that `~HazardPointerOwner` is giving up. -/
def Pc.releasing : Pc → Option Nat
  | .clear i => some i
  | .free i => some i
  | _ => none

/-- A slot belongs to the thread whose id is in it. -/
structure Slots (s : State τ ο π) : Prop where
  owner : ∀ t i, i ∈ s.slots t ↔ s.id i = some t
  nodup : ∀ t, (s.slots t).Nodup
  releasing : ∀ t i, (s.pc t).releasing = some i → i ∈ s.slots t

omit [DecidableEq τ] [DecidableEq ο] [DecidableEq π] in
/-- No slot is taken. -/
theorem slots_init : Slots (init τ ο π) := by
  refine ⟨?_, ?_, ?_⟩ <;> simp [init, Pc.releasing]

omit [DecidableEq ο] [DecidableEq π] in
/-- A step that acquires and releases no slot. -/
theorem Slots.stay (h : Slots s) {pc : Pc} (hpc : s'.pc = Function.update s.pc t pc)
    (hId : s'.id = s.id) (hSlots : s'.slots = s.slots)
    (hReleasing : ∀ i, pc.releasing = some i → i ∈ s.slots t) : Slots s' := by
  refine ⟨?_, ?_, ?_⟩
  · rw [hId, hSlots]
    exact h.owner
  · rw [hSlots]
    exact h.nodup
  · intro u i hu
    rw [hSlots]
    rcases update_cases hpc u with ⟨rfl, hAt⟩ | ⟨-, hAt⟩ <;> rw [hAt] at hu
    · exact hReleasing i hu
    · exact h.releasing u i hu

omit [DecidableEq ο] [DecidableEq π] in
/-- After the step the thread gives up no slot. -/
theorem Slots.keep (h : Slots s) {pc : Pc} (hpc : s'.pc = Function.update s.pc t pc)
    (hId : s'.id = s.id) (hSlots : s'.slots = s.slots) (hNone : pc.releasing = none) :
    Slots s' := by
  refine h.stay hpc hId hSlots ?_
  intro i hi
  rw [hNone] at hi
  cases hi

/-- A thread that reclaims gives back no slot. -/
theorem releasing_nextNode (node : Nat) : (nextNode node).releasing = none := by
  unfold nextNode
  split <;> rfl

omit [DecidableEq ο] [DecidableEq π] in
/-- A free slot is taken by one exchange, -/
theorem Slots.acquire (h : Slots s) {i : Nat} (hFree : s.id i = none) :
    Slots { s with
      id := Function.update s.id i (some t)
      slots := Function.update s.slots t (i :: s.slots t)
      pc := Function.update s.pc t .idle } := by
  have hNew : ∀ u, i ∉ s.slots u := by
    intro u hu
    rw [(h.owner u i).mp hu] at hFree
    cases hFree
  refine ⟨?_, ?_, ?_⟩
  · intro u j
    show j ∈ Function.update s.slots t (i :: s.slots t) u ↔
      Function.update s.id i (some t) j = some u
    rcases update_at s.id i (some t) j with ⟨hji, hj⟩ | ⟨hji, hj⟩ <;>
      rcases update_at s.slots t (i :: s.slots t) u with ⟨hut, hu⟩ | ⟨hut, hu⟩ <;> rw [hu, hj]
    · rw [hji, hut]
      exact ⟨fun _ => rfl, fun _ => List.mem_cons_self⟩
    · rw [hji]
      exact ⟨fun hMem => absurd hMem (hNew u), fun hEq => absurd (Option.some.inj hEq).symm hut⟩
    · rw [hut, List.mem_cons, ← h.owner t j]
      exact ⟨fun hOr => hOr.resolve_left hji, Or.inr⟩
    · exact h.owner u j
  · intro u
    show (Function.update s.slots t (i :: s.slots t) u).Nodup
    rcases update_at s.slots t (i :: s.slots t) u with ⟨rfl, hu⟩ | ⟨-, hu⟩ <;> rw [hu]
    · exact List.nodup_cons.mpr ⟨hNew u, h.nodup u⟩
    · exact h.nodup u
  · intro u j hu
    replace hu : (Function.update s.pc t .idle u).releasing = some j := hu
    show j ∈ Function.update s.slots t (i :: s.slots t) u
    by_cases hut : u = t
    · rw [hut, Function.update_self] at hu
      cases hu
    · rw [Function.update_of_ne hut] at hu ⊢
      exact h.releasing u j hu

omit [DecidableEq ο] [DecidableEq π] in
/-- and given back by its owner. -/
theorem Slots.free (h : Slots s) {i : Nat} (hpc : s.pc t = .free i) :
    Slots { s with
      id := Function.update s.id i none
      slots := Function.update s.slots t ((s.slots t).erase i)
      pc := Function.update s.pc t .idle } := by
  have hId : s.id i = some t := (h.owner t i).mp (h.releasing t i (by rw [hpc]; rfl))
  refine ⟨?_, ?_, ?_⟩
  · intro u j
    show j ∈ Function.update s.slots t ((s.slots t).erase i) u ↔
      Function.update s.id i none j = some u
    rcases update_at s.slots t ((s.slots t).erase i) u with ⟨rfl, hu⟩ | ⟨hut, hu⟩ <;>
      rcases update_at s.id i none j with ⟨rfl, hj⟩ | ⟨hji, hj⟩ <;> rw [hu, hj]
    · rw [(h.nodup u).mem_erase_iff]
      exact ⟨fun hMem => absurd rfl hMem.1, nofun⟩
    · rw [(h.nodup u).mem_erase_iff, ← h.owner u j]
      exact ⟨And.right, fun hMem => ⟨hji, hMem⟩⟩
    · refine ⟨fun hMem => ?_, nofun⟩
      rw [h.owner, hId] at hMem
      exact absurd (Option.some.inj hMem).symm hut
    · exact h.owner u j
  · intro u
    show (Function.update s.slots t ((s.slots t).erase i) u).Nodup
    rcases update_at s.slots t ((s.slots t).erase i) u with ⟨rfl, hu⟩ | ⟨-, hu⟩ <;> rw [hu]
    · exact (h.nodup u).erase i
    · exact h.nodup u
  · intro u j hu
    replace hu : (Function.update s.pc t .idle u).releasing = some j := hu
    show j ∈ Function.update s.slots t ((s.slots t).erase i) u
    by_cases hut : u = t
    · rw [hut, Function.update_self] at hu
      cases hu
    · rw [Function.update_of_ne hut] at hu ⊢
      exact h.releasing u j hu

/-- A case for each action. -/
theorem slots_step (h : Slots s) (hst : step addr s a = some s') : Slots s' := by
  cases a with
  | acquire t =>
    simp only [step] at hst
    split at hst <;> cases hst
    exact h.keep rfl rfl rfl rfl
  | release t i =>
    simp only [step] at hst
    split at hst <;> cases hst
    next hGuard =>
    exact h.stay rfl rfl rfl fun j hj => Option.some.inj hj ▸ hGuard.2
  | store t i p =>
    simp only [step] at hst
    split at hst <;> cases hst
    exact ⟨h.owner, h.nodup, h.releasing⟩
  | retire t o node =>
    simp only [step] at hst
    split at hst <;> cases hst
    exact h.keep rfl rfl rfl rfl
  | reclaim t =>
    simp only [step] at hst
    split at hst <;> cases hst
    exact h.keep rfl rfl rfl rfl
  | run t spurious =>
    replace hst : run addr s t spurious = some s' := hst
    unfold run at hst
    split at hst
    · cases hst
    · next i hpc =>
      split at hst <;> cases hst
      · next hFree => exact h.acquire hFree
      · refine h.stay rfl rfl rfl ?_
        intro j hj
        split at hj <;> cases hj
    · next i hpc =>
      cases hst
      exact h.stay rfl rfl rfl fun j hj =>
        h.releasing t j (by rw [hpc]; exact hj)
    · next i hpc =>
      cases hst
      exact h.free hpc
    · cases hst
      exact h.keep rfl rfl rfl rfl
    · next node rest new hpc =>
      split at hst <;> cases hst
      · exact h.keep rfl rfl rfl (releasing_nextNode rest)
      · exact ⟨h.owner, h.nodup, h.releasing⟩
    · cases hst
      exact h.keep rfl rfl rfl (releasing_nextNode _)
    · cases hst
      exact h.keep rfl rfl rfl rfl
    · next current next i hpc =>
      cases hst
      refine h.keep rfl rfl rfl ?_
      rcases afterScan_cases s current next i with ⟨-, hPc⟩ | ⟨-, ⟨-, hPc⟩ | ⟨-, hPc⟩⟩ <;>
        rw [hPc] <;> rfl
    · cases hst
      exact h.keep rfl rfl rfl (releasing_nextNode _)

-- ---------------------------------------------------------------------------
-- What a reclaimer has seen
-- ---------------------------------------------------------------------------

/-- The node that a reclaimer tests, and the number of slots that it has read. -/
def Pc.scanned : Pc → Option (Nat × Nat)
  | .scan current _ i => some (current, i)
  | .delete current _ => some (current, kMaxHazardPointers)
  | _ => none

/-- The node that is scanned for is in the hand of the thread. -/
theorem hand_of_scanned {pc : Pc} {n i : Nat} (h : pc.scanned = some (n, i)) :
    pc.hand = some n := by
  cases pc <;> cases h <;> rfl

/-- A slot that has held an address since before the retirement still does, and a scan has not
gone past it. -/
structure Guarded (addr : ο → π) (s : State τ ο π) : Prop where
  pointer : ∀ o i, s.held o i = true → s.pointer i = some (addr o)
  scanned : ∀ t n i, (s.pc t).scanned = some (n, i) → ∀ o, s.object n = some o →
    ∀ j, j < i → s.held o j = false

omit [DecidableEq τ] [DecidableEq ο] [DecidableEq π] in
/-- Nothing is held. -/
theorem guarded_init : Guarded addr (init τ ο π) := by
  refine ⟨?_, ?_⟩ <;> simp [init, Pc.scanned]

section

omit [DecidableEq ο] [DecidableEq π]

/-- A step after which no more is held of the objects in the hands of reclaimers. -/
theorem Guarded.change (h : Guarded addr s) {pc : Pc} (hpc : s'.pc = Function.update s.pc t pc)
    (hPointer : ∀ o i, s'.held o i = true → s'.pointer i = some (addr o))
    (hOther : ∀ u n o j, u ≠ t → (s.pc u).hand = some n → s'.object n = some o →
      s.object n = some o ∧ (s'.held o j = true → s.held o j = true))
    (hHere : ∀ n i, pc.scanned = some (n, i) → ∀ o, s'.object n = some o →
      ∀ j, j < i → s'.held o j = false) : Guarded addr s' := by
  refine ⟨hPointer, ?_⟩
  intro u n i hu o hn j hj
  rcases update_cases hpc u with ⟨-, hAt⟩ | ⟨hne, hAt⟩ <;> rw [hAt] at hu
  · exact hHere n i hu o hn j hj
  · obtain ⟨hOld, hLess⟩ := hOther u n o j hne (hand_of_scanned hu) hn
    have hNot := h.scanned u n i hu o hOld j hj
    exact Bool.eq_false_iff.mpr fun hHeld => Bool.eq_false_iff.mp hNot (hLess hHeld)

/-- A step that does not change what is held. -/
theorem Guarded.stay (h : Guarded addr s) {pc : Pc} (hpc : s'.pc = Function.update s.pc t pc)
    (hHeld : s'.held = s.held) (hPointer : s'.pointer = s.pointer) (hObject : s'.object = s.object)
    (hHere : ∀ n i, pc.scanned = some (n, i) → ∀ o, s.object n = some o →
      ∀ j, j < i → s.held o j = false) : Guarded addr s' := by
  refine h.change hpc ?_ ?_ ?_
  · rw [hHeld, hPointer]
    exact h.pointer
  · intro u n o j _ _ hn
    rw [hObject] at hn
    rw [hHeld]
    exact ⟨hn, id⟩
  · rw [hHeld, hObject]
    exact hHere

/-- After the step the thread has no node to test. -/
theorem Guarded.keep (h : Guarded addr s) {pc : Pc} (hpc : s'.pc = Function.update s.pc t pc)
    (hHeld : s'.held = s.held) (hPointer : s'.pointer = s.pointer) (hObject : s'.object = s.object)
    (hNone : pc.scanned = none) : Guarded addr s' := by
  refine h.stay hpc hHeld hPointer hObject ?_
  intro n i hi
  rw [hNone] at hi
  cases hi

end

omit [DecidableEq τ] [DecidableEq ο] in
/-- A store to a slot ends what it held, unless it stores the same address. -/
theorem Guarded.setPointer (h : Guarded addr s) (i : Nat) (p : Option π) :
    Guarded addr (s.setPointer i p) := by
  have hLess : ∀ o j, (s.setPointer i p).held o j = true →
      s.held o j = true ∧ (j ≠ i ∨ s.pointer i = p) := by
    intro o j hHeld
    simpa [State.setPointer] using hHeld
  refine ⟨?_, ?_⟩
  · intro o j hHeld
    obtain ⟨hOld, hKept⟩ := hLess o j hHeld
    have hAddr := h.pointer o j hOld
    show Function.update s.pointer i p j = some (addr o)
    rcases update_at s.pointer i p j with ⟨rfl, hAt⟩ | ⟨-, hAt⟩ <;> rw [hAt]
    · rcases hKept with hne | hSame
      · exact absurd rfl hne
      · rw [← hSame, hAddr]
    · exact hAddr
  · intro u n k hu o hn j hj
    have hNot := h.scanned u n k hu o hn j hj
    exact Bool.eq_false_iff.mpr fun hHeld => Bool.eq_false_iff.mp hNot (hLess o j hHeld).1

/-- The exchange that retires an object notes the slots that hold it then. -/
theorem Guarded.noteHeld (hP : Placed s place) (hR : Recorded addr s) (h : Guarded addr s)
    (node : Nat) (hNode : (s.pc t).hand = some node) {pc : Pc}
    (hpc : s'.pc = Function.update s.pc t pc) (hHeld : s'.held = s.noteHeld addr node)
    (hPointer : s'.pointer = s.pointer) (hObject : s'.object = s.object)
    (hScanned : pc.scanned = none) : Guarded addr s' := by
  refine h.change hpc ?_ ?_ ?_
  · intro o i hi
    rw [hHeld] at hi
    rw [hPointer]
    unfold State.noteHeld at hi
    split at hi
    · exact of_decide_eq_true hi
    · exact h.pointer o i hi
  · intro u n o j hne hu hn
    rw [hObject] at hn
    refine ⟨hn, ?_⟩
    -- the object is another one, as its node is in other hands
    have hOther : s.object node ≠ some o := by
      intro hSame
      have hEq := hR.node n node o hn hSame
      exact hne (hP.handUnique u t node (hEq ▸ hu) hNode)
    rw [hHeld]
    unfold State.noteHeld
    rw [if_neg hOther]
    exact id
  · intro n i hi
    rw [hScanned] at hi
    cases hi

omit [DecidableEq ο] in
/-- A reclaimer reads one more slot. -/
theorem Guarded.scan (hR : Recorded addr s) (h : Guarded addr s) {current next i : Nat}
    (hpc : s.pc t = .scan current next i) :
    Guarded addr (s.setPc t (s.afterScan current next i)) := by
  have hBelow : s.pointer i ≠ s.data current → ∀ o, s.object current = some o →
      ∀ j, j < i + 1 → s.held o j = false := by
    intro hFree o ho j hj
    by_cases hji : j = i
    · -- the slot has another address
      refine Bool.eq_false_iff.mpr fun hHeld => hFree ?_
      rw [hR.data current o ho, ← h.pointer o j hHeld, hji]
    · exact h.scanned t current i (by rw [hpc]; rfl) o ho j (by omega)
  rcases afterScan_cases s current next i with ⟨-, hPc⟩ | ⟨hFree, hMore | hLast⟩
  · rw [hPc]
    exact h.keep rfl rfl rfl rfl rfl
  · rw [hMore.2]
    refine h.stay rfl rfl rfl rfl ?_
    intro n k hk
    cases hk
    exact hBelow hFree
  · rw [hLast.2]
    refine h.stay rfl rfl rfl rfl ?_
    intro n k hk o ho j hj
    cases hk
    exact hBelow hFree o ho j (by omega)

/-- A scan begins with no slot behind it. -/
theorem scanned_nextNode (node : Nat) : (nextNode node).scanned = none := by
  unfold nextNode
  split <;> rfl

/-- A case for each program point: a scan that finds the address in a slot does not go past it.
-/
theorem guarded_run (hP : Placed s place) (hR : Recorded addr s) (h : Guarded addr s)
    {spurious : Bool} (hst : run addr s t spurious = some s') : Guarded addr s' := by
  unfold run at hst
  split at hst
  · cases hst
  · split at hst <;> cases hst
    · exact h.keep rfl rfl rfl rfl rfl
    · refine h.stay rfl rfl rfl rfl ?_
      intro n i hi
      split at hi <;> cases hi
  · next i hpc =>
    cases hst
    exact (h.setPointer i none).keep rfl rfl rfl rfl rfl
  · cases hst
    exact h.keep rfl rfl rfl rfl rfl
  · cases hst
    exact h.keep rfl rfl rfl rfl rfl
  · next node rest new hpc =>
    split at hst <;> cases hst
    · cases new with
      | true =>
        exact h.noteHeld hP hR node (by rw [hpc]; rfl) rfl rfl rfl rfl
          (scanned_nextNode rest)
      | false =>
        exact h.keep rfl rfl rfl rfl (scanned_nextNode rest)
    · exact ⟨h.pointer, h.scanned⟩
  · cases hst
    exact h.keep rfl rfl rfl rfl (scanned_nextNode _)
  · cases hst
    refine h.stay rfl rfl rfl rfl ?_
    intro n i hi o _ j hj
    cases hi
    exact absurd hj (Nat.not_lt_zero j)
  · next current next i hpc =>
    cases hst
    exact h.scan hR hpc
  · next current next hpc =>
    cases hst
    refine h.change rfl h.pointer ?_ ?_
    · intro u n o j _ _ hn
      replace hn : Function.update s.object current none n = some o := hn
      rcases update_at s.object current none n with ⟨-, hAt⟩ | ⟨-, hAt⟩ <;> rw [hAt] at hn
      · cases hn
      · exact ⟨hn, id⟩
    · intro n i hi
      rw [scanned_nextNode] at hi
      cases hi

/-- A case for each action; an object that is retired has the slots noted that hold its address
then. -/
theorem guarded_step (hP : Placed s place) (hR : Recorded addr s) (h : Guarded addr s)
    (hst : step addr s a = some s') : Guarded addr s' := by
  cases a with
  | run t spurious => exact guarded_run hP hR h hst
  | acquire t =>
    simp only [step] at hst
    split at hst <;> cases hst
    exact h.keep rfl rfl rfl rfl rfl
  | release t i =>
    simp only [step] at hst
    split at hst <;> cases hst
    exact h.keep rfl rfl rfl rfl rfl
  | store t i p =>
    simp only [step] at hst
    split at hst <;> cases hst
    exact h.setPointer i p
  | retire t o node =>
    simp only [step] at hst
    split at hst <;> cases hst
    next hGuard =>
    refine h.change rfl h.pointer ?_ ?_
    · intro u n o' j _ hu hn
      replace hn : Function.update s.object node (some o) n = some o' := hn
      -- the node that `new` returned was in no hands
      have hne : n ≠ node := fun hEq => (hP.hand u n hu).2.2 (hEq ▸ hGuard.2.2)
      rw [Function.update_of_ne hne] at hn
      exact ⟨hn, id⟩
    · intro n i hi
      cases hi
  | reclaim t =>
    simp only [step] at hst
    split at hst <;> cases hst
    exact h.keep rfl rfl rfl rfl rfl

end EmbLinux.HazardPointer
