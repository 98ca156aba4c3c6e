import Mathlib.Data.List.Basic

/-!
Patches laid over a function.

A patch gives new values at some arguments. Patches are laid over a function
one after the other, and what the function then is at an argument is decided
there alone: by the last patch that has a value at it, and by the old function
when there is none.
-/

namespace Overlay

/-- New values at some arguments. -/
abbrev Patch (α β : Type*) := α → Option β

variable {α β : Type*}

def lay (f : α → β) (p : Patch α β) : α → β := fun x => (p x).getD (f x)

/-- The function after all patches, the first one laid first. -/
def layAll (f : α → β) (ps : List (Patch α β)) : α → β := ps.foldl lay f

def top : List (Patch α β) → Patch α β
  | [], _ => none
  | p :: ps, x => (top ps x).or (p x)

variable {f : α → β} {p : Patch α β} {ps qs : List (Patch α β)} {x : α} {v : β}

@[simp] theorem top_nil : top ([] : List (Patch α β)) x = none := rfl

end Overlay
