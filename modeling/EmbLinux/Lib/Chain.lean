import Mathlib.Data.List.Nodup
import Mathlib.Logic.Function.Basic

/-!
# EmbLinux — chains of next indices

A singly linked list as memory holds it: a start index and a function that gives
the next index of each node, up to an index `stop` that is no node. `Linked next
stop start l` says that the chain from `start` runs through the nodes `l` and
ends at `stop`. As `l` is a list, the chain ends, so it has no cycle: that no
node comes twice is `Linked.nodup`.
-/

namespace EmbLinux

variable {ι : Type*}

/-- The chain from `start` runs through `l` and ends at `stop`. -/
def Linked (next : ι → ι) (stop : ι) (start : ι) : List ι → Prop
  | [] => start = stop
  | i :: rest => start = i ∧ i ≠ stop ∧ Linked next stop (next i) rest

namespace Linked

variable {next next' : ι → ι} {stop start i : ι} {l l' : List ι}

/-- A node in front of a chain. -/
theorem cons (hne : start ≠ stop) (h : Linked next stop (next start) l) :
    Linked next stop start (start :: l) :=
  ⟨rfl, hne, h⟩

/-- A chain that begins where it stops is empty, -/
theorem eq_nil (h : Linked next stop stop l) : l = [] := by
  cases l with
  | nil => rfl
  | cons i rest => exact absurd h.1.symm h.2.1

/-- and any other one has a first cell. -/
theorem eq_cons (h : Linked next stop start l) (hne : start ≠ stop) :
    ∃ rest, l = start :: rest ∧ Linked next stop (next start) rest := by
  cases l with
  | nil => exact absurd h hne
  | cons i rest =>
    obtain ⟨rfl, -, hRest⟩ := h
    exact ⟨rest, rfl, hRest⟩

/-- The stop is not on the chain. -/
theorem ne_stop (h : Linked next stop start l) (hi : i ∈ l) : i ≠ stop := by
  induction l generalizing start with
  | nil => cases hi
  | cons j rest ih =>
    obtain ⟨rfl, hne, hRest⟩ := h
    rcases List.mem_cons.mp hi with rfl | hi
    · exact hne
    · exact ih hRest hi

/-- The nodes of a chain are determined by its start. -/
theorem unique (h : Linked next stop start l) (h' : Linked next stop start l') : l = l' := by
  induction l generalizing start l' with
  | nil =>
    obtain rfl : start = stop := h
    exact h'.eq_nil.symm
  | cons i rest ih =>
    obtain ⟨rfl, hne, hRest⟩ := h
    obtain ⟨rest', rfl, hRest'⟩ := h'.eq_cons hne
    rw [ih hRest hRest']

/-- The chain from a node of a chain is a part of it. -/
theorem suffix_of_mem (h : Linked next stop start l) (hi : i ∈ l) :
    ∃ l', Linked next stop i l' ∧ l' <:+ l := by
  induction l generalizing start with
  | nil => cases hi
  | cons j rest ih =>
    obtain ⟨rfl, hne, hRest⟩ := h
    rcases List.mem_cons.mp hi with rfl | hi
    · exact ⟨_, cons hne hRest, List.suffix_refl _⟩
    · obtain ⟨l', hl', hSuffix⟩ := ih hRest hi
      exact ⟨l', hl', hSuffix.trans (List.suffix_cons _ _)⟩

/-- A chain that ends has no cycle. -/
theorem nodup (h : Linked next stop start l) : l.Nodup := by
  induction l generalizing start with
  | nil => exact List.nodup_nil
  | cons i rest ih =>
    obtain ⟨rfl, hne, hRest⟩ := h
    refine List.nodup_cons.mpr ⟨?_, ih hRest⟩
    intro hMem
    -- the chain from the second occurrence would be the whole chain, and shorter
    obtain ⟨l', hl', hSuffix⟩ := hRest.suffix_of_mem hMem
    have hEq : start :: rest = l' := (cons hne hRest).unique hl'
    have hLe := hSuffix.length_le
    rw [← hEq, List.length_cons] at hLe
    omega

/-- A chain does not begin at a node that follows itself. -/
theorem ne_loop (h : Linked next stop start l) (hne : start ≠ stop) : next start ≠ start := by
  intro hLoop
  obtain ⟨rest, rfl, hRest⟩ := h.eq_cons hne
  rw [hLoop] at hRest
  have hLength := congrArg List.length (h.unique hRest)
  rw [List.length_cons] at hLength
  omega

/-- A chain is a matter of the pointers in its own cells. -/
theorem congr (h : Linked next stop start l) (hNext : ∀ i ∈ l, next' i = next i) :
    Linked next' stop start l := by
  induction l generalizing start with
  | nil => exact h
  | cons i rest ih =>
    obtain ⟨rfl, hne, hRest⟩ := h
    refine ⟨rfl, hne, ?_⟩
    rw [hNext start List.mem_cons_self]
    exact ih hRest fun j hj => hNext j (List.mem_cons_of_mem _ hj)

/-- A store to a node outside the chain. -/
theorem update [DecidableEq ι] (h : Linked next stop start l) (hi : i ∉ l) (j : ι) :
    Linked (Function.update next i j) stop start l := by
  refine h.congr ?_
  intro k hk
  have hne : k ≠ i := fun hki => hi (hki ▸ hk)
  rw [Function.update_of_ne hne]

/-- The rest of a chain, from one of its nodes on. -/
theorem append_right (h : Linked next stop start (l ++ i :: l')) :
    Linked next stop i (i :: l') := by
  induction l generalizing start with
  | nil =>
    obtain ⟨-, hne, hRest⟩ := h
    exact ⟨rfl, hne, hRest⟩
  | cons k rest ih => exact ih h.2.2

/-- The index behind the last node becomes a node, and the chain ends at the next one. -/
theorem extend {stop' : ι} (h : Linked next stop start l) (hNext : next stop = stop')
    (hne : stop ≠ stop') (hOut : stop' ∉ l) : Linked next stop' start (l ++ [stop]) := by
  induction l generalizing start with
  | nil =>
    obtain rfl : start = stop := h
    exact ⟨rfl, hne, hNext⟩
  | cons i rest ih =>
    obtain ⟨rfl, -, hRest⟩ := h
    have hi : start ≠ stop' := fun hEq => hOut (hEq ▸ List.mem_cons_self)
    exact ⟨rfl, hi, ih hRest fun hMem => hOut (List.mem_cons_of_mem _ hMem)⟩

/-- A node is linked behind the last one. -/
theorem snoc [DecidableEq ι] {j : ι} (h : Linked next stop start (l ++ [i])) (hj : j ≠ stop)
    (hji : j ≠ i) (hEnd : next j = stop) :
    Linked (Function.update next i j) stop start (l ++ [i, j]) := by
  induction l generalizing start with
  | nil =>
    obtain ⟨rfl, hne, -⟩ := h
    refine ⟨rfl, hne, ?_⟩
    rw [Function.update_self]
    exact ⟨rfl, hj, by rw [Function.update_of_ne hji]; exact hEnd⟩
  | cons k rest ih =>
    have hki : k ≠ i := by
      rintro rfl
      exact (List.nodup_cons.mp h.nodup).1 (List.mem_append_right _ List.mem_cons_self)
    obtain ⟨rfl, hne, hRest⟩ := h
    refine ⟨rfl, hne, ?_⟩
    rw [Function.update_of_ne hki]
    exact ih hRest

end Linked

end EmbLinux
