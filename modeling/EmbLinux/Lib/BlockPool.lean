import Mathlib.Data.List.Nodup
import Mathlib.Data.List.Perm.Lattice

/-!
# EmbLinux — a pool of fixed blocks

What an allocator of equal blocks is for: it hands out the blocks of a fixed
list, and takes them back, in any order. `free` are the blocks that it still has,
in the order in which it will hand them out; `taken` are the pointers that its
clients hold, which may be of other pools too. `Accounts blocks p` says that each
block is in exactly one of the two.
-/

namespace EmbLinux

/-- The free blocks, in the order in which they are given out, and the pointers that clients
hold. -/
structure BlockPool (β : Type*) where
  free : List β
  taken : List β

namespace BlockPool

variable {β : Type*}

/-- Hand out the front block. -/
def take (p : BlockPool β) : Option (β × BlockPool β) :=
  match p.free with
  | [] => none
  | b :: rest => some (b, ⟨rest, b :: p.taken⟩)

/-- Take a block back. -/
def give [DecidableEq β] (p : BlockPool β) (b : β) : BlockPool β :=
  ⟨b :: p.free, p.taken.erase b⟩

/-- Every block is free or taken, and only once. -/
structure Accounts (blocks : List β) (p : BlockPool β) : Prop where
  freeNodup : p.free.Nodup
  takenNodup : p.taken.Nodup
  freeMem : ∀ b ∈ p.free, b ∈ blocks
  /-- A block is free or taken, and not both. -/
  split : ∀ b ∈ blocks, b ∈ p.free ↔ b ∉ p.taken

namespace Accounts

variable {blocks : List β} {p p' : BlockPool β} {b : β}

/-- A new pool has all its blocks, when no client holds one already. -/
theorem fresh {taken : List β} (hNodup : blocks.Nodup) (hTaken : taken.Nodup)
    (hNew : ∀ b ∈ blocks, b ∉ taken) : Accounts blocks ⟨blocks, taken⟩ where
  freeNodup := hNodup
  takenNodup := hTaken
  freeMem := fun _ hb => hb
  split := fun b hb => ⟨fun _ => hNew b hb, fun _ => hb⟩

/-- The block handed out was not taken. -/
theorem not_taken (h : Accounts blocks p) (hTake : p.take = some (b, p')) : b ∉ p.taken := by
  obtain ⟨free, taken⟩ := p
  cases free with
  | nil => cases hTake
  | cons c rest =>
    cases hTake
    exact (h.split b (h.freeMem b List.mem_cons_self)).mp List.mem_cons_self

/-- What is given out is a block. -/
theorem mem_of_take (h : Accounts blocks p) (hTake : p.take = some (b, p')) : b ∈ blocks := by
  obtain ⟨free, taken⟩ := p
  cases free with
  | nil => cases hTake
  | cons c rest =>
    cases hTake
    exact h.freeMem b List.mem_cons_self

/-- A block that was free is taken. -/
theorem take (h : Accounts blocks p) (hTake : p.take = some (b, p')) : Accounts blocks p' := by
  have hNot := h.not_taken hTake
  obtain ⟨free, taken⟩ := p
  cases free with
  | nil => cases hTake
  | cons c rest =>
    cases hTake
    obtain ⟨hFront, hRest⟩ := List.nodup_cons.mp h.freeNodup
    refine ⟨hRest, List.nodup_cons.mpr ⟨hNot, h.takenNodup⟩, ?_, ?_⟩
    · exact fun d hd => h.freeMem d (List.mem_cons_of_mem _ hd)
    · intro d hd
      have hSplit := h.split d hd
      by_cases hdb : d = b
      · subst hdb
        exact ⟨fun hMem => absurd hMem hFront, fun hMem => absurd List.mem_cons_self hMem⟩
      · simpa [hdb] using hSplit

variable [DecidableEq β]

/-- A taken block becomes free again. -/
theorem give (h : Accounts blocks p) (hTaken : b ∈ p.taken) (hBlock : b ∈ blocks) :
    Accounts blocks (p.give b) := by
  have hFree : b ∉ p.free := fun hMem => (h.split b hBlock).mp hMem hTaken
  refine ⟨List.nodup_cons.mpr ⟨hFree, h.freeNodup⟩, h.takenNodup.erase b, ?_, ?_⟩
  · intro d hd
    rcases List.mem_cons.mp hd with rfl | hd
    · exact hBlock
    · exact h.freeMem d hd
  · intro d hd
    have hSplit := h.split d hd
    show d ∈ b :: p.free ↔ d ∉ p.taken.erase b
    rw [h.takenNodup.mem_erase_iff, List.mem_cons, hSplit]
    tauto

/-- When the clients hold pointers of this pool only, the free and the taken
blocks are the blocks, each once. -/
theorem perm (h : Accounts blocks p) (hNodup : blocks.Nodup) (hOwn : ∀ b ∈ p.taken, b ∈ blocks) :
    (p.free ++ p.taken).Perm blocks := by
  refine (List.perm_ext_iff_of_nodup ?_ hNodup).mpr ?_
  · refine List.nodup_append'.mpr ⟨h.freeNodup, h.takenNodup, ?_⟩
    intro b hFree hTaken
    exact (h.split b (h.freeMem b hFree)).mp hFree hTaken
  · intro b
    rw [List.mem_append]
    constructor
    · rintro (hb | hb)
      · exact h.freeMem b hb
      · exact hOwn b hb
    · intro hb
      by_cases hTaken : b ∈ p.taken
      · exact Or.inr hTaken
      · exact Or.inl ((h.split b hb).mpr hTaken)

/-- The counting: a block is left exactly while fewer are taken than there are. -/
theorem free_ne_nil_iff (h : Accounts blocks p) (hNodup : blocks.Nodup)
    (hOwn : ∀ b ∈ p.taken, b ∈ blocks) : p.free ≠ [] ↔ p.taken.length < blocks.length := by
  have hLength := (h.perm hNodup hOwn).length_eq
  rw [List.length_append] at hLength
  rw [← List.length_pos_iff]
  omega

end Accounts

end BlockPool

end EmbLinux
