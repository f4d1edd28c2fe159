import Arbor.Forest.Basic

/-!
# Changes

What an operation on a forest leaves behind: its result, the forest as it is then, and the notices
about it for a reader of the log.
-/

namespace Arbor

/-- Something that happened without being a fault.  Its text is read from the forest as it is after
the operation. -/
inductive Notice where
  /-- the value to be removed is not a branch of the node -/
  | nothingToRemove (branch : Value) (node : NodeId)
  /-- the value to be replaced is not a branch of the node -/
  | nothingToReplace (old : Value) (node : NodeId)
  /-- so many nodes were released with the node -/
  | released (count : Nat) (node : NodeId)
  deriving DecidableEq

structure Change (α : Type) where
  result : α
  forest : Forest
  notices : List Notice

namespace Change

def map {α β : Type} (g : α → β) (c : Change α) : Change β := ⟨g c.result, c.forest, c.notices⟩

/-- a change that nobody needs to hear of -/
def silent {α : Type} (result : α) (forest : Forest) : Change α := ⟨result, forest, []⟩

end Change
end Arbor
