import EmbLinux.Task.Model

/-!
# EmbLinux — direct calls

What a tree of coroutines computes when its bodies are ordinary functions: `coAwait`
is the call, made and finished on the spot. Creating a `Task` only prepares the call
and takes one of the `free` blocks, or throws when none is left; the block comes back
when the `Task` is destroyed. There are no frames, no handles and no control to hand
over.

`WellFormed` is what the header asks of callers: a `Task` is awaited at most once, and
while it is alive.
-/

namespace EmbLinux.Task

variable {V E : Type}

/-- A prepared call: from the number of free blocks to the result and the number of
free blocks afterwards. -/
abbrev Call (V E : Type) := Nat → Option (Except E (Option V) × Nat)

/-- The rest of a body; `none` if it awaits or destroys a `Task` that it does not have.
`calls` are its `Task` objects, `none` where the call was made. -/
def Body.eval (bad_alloc : E) : Body V E → List (Option (Call V E)) → Call V E
  | .coReturn value, calls, free => some (.ok value, free + calls.length)
  | .raise e, calls, free => some (.error e, free + calls.length)
  | .create _ child next, calls, free =>
    if free = 0 then (next (.error bad_alloc)).eval bad_alloc calls free
    else (next (.ok ())).eval bad_alloc (calls ++ [some (child.eval bad_alloc [])]) (free - 1)
  | .coAwait i next, calls, free =>
    match calls[i]? with
    | some (some call) =>
      match call free with
      | some (result, free) => (next result).eval bad_alloc (calls.set i none) free
      | none => none
    | _ => none
  | .drop i next, calls, free =>
    if i < calls.length then next.eval bad_alloc (calls.eraseIdx i) (free + 1) else none

/-- The call of the root, while `free` blocks are free. -/
def callRoot (bad_alloc : E) (root : Body V E) (free : Nat) : Option (Except E (Option V)) :=
  if free = 0 then some (.error bad_alloc) else (root.eval bad_alloc [] (free - 1)).map Prod.fst

/-- The body awaits each `Task` at most once, and every frame fits a block. `tasks`
are its `Task` objects, `true` where the `Task` is not awaited yet. -/
def Body.WellFormed (block_size : Nat) : Body V E → List Bool → Prop
  | .coReturn _, _ => True
  | .raise _, _ => True
  | .create size child next, tasks =>
    size ≤ block_size ∧ child.WellFormed block_size [] ∧
      (∀ e, (next (.error e)).WellFormed block_size tasks) ∧
      (next (.ok ())).WellFormed block_size (tasks ++ [true])
  | .coAwait i next, tasks =>
    tasks[i]? = some true ∧ ∀ result, (next result).WellFormed block_size (tasks.set i false)
  | .drop i next, tasks => i < tasks.length ∧ next.WellFormed block_size (tasks.eraseIdx i)

/-- A tree of coroutines whose frames fit blocks of `block_size` bytes. -/
structure Tree (V E : Type) (block_size : Nat) where
  size : Nat
  root : Body V E
  fits : size ≤ block_size
  wellFormed : root.WellFormed block_size []

end EmbLinux.Task
