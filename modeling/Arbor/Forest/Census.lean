import Arbor.Forest.Basic
import Arbor.Loop

/-!
# Counting nodes

* `Census.step`   counts one of the waiting nodes and lets its branches wait;
* `Forest.count`  the number of nodes in a subtree.
-/

namespace Arbor

structure Census where
  total : Nat
  waiting : List NodeId
  deriving DecidableEq

namespace Census

def start (n : NodeId) : Census := ⟨0, [n]⟩

def step (f : Forest) (c : Census) : Option Census :=
  match c.waiting with
  | [] => none
  | n :: rest => some ⟨c.total + 1, (f.node n).branches.reverse ++ rest⟩

end Census

/-- the number of nodes in the subtree of a node, itself included -/
def Forest.count (f : Forest) (n : NodeId) : Nat :=
  (drive (Census.step f) f.size (Census.start n)).total

end Arbor
