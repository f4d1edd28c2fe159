import Arbor.Forest.Basic
import Arbor.Text.Path

/-!
# Lineages

The lineage of a node is the node itself, its parent, the parent of its parent and so on up to a
node without parent.

* `Forest.lineage`  the nodes met on the way up, the lowest first;
* `Forest.root`, `Forest.depth`, `Forest.path`  read off the lineage;
* `Forest.under`    whether some node of the lineage passes a test;
* `Forest.under_eq_any_lineage`  the test stops early and still decides the same.
-/

namespace Arbor
namespace Forest

/-! ## the way up -/

/-- the way up from a node, cut after the given number of parents -/
def climb (f : Forest) : Nat → NodeId → List NodeId
  | 0, n => [n]
  | k + 1, n =>
    match (f.node n).parent with
    | none => [n]
    | some p => n :: climb f k p

/-- no way up is longer than the number of nodes, as links make no cycle -/
def lineage (f : Forest) (n : NodeId) : List NodeId := f.climb f.size n

def root (f : Forest) (n : NodeId) : NodeId := (f.lineage n).getLastD n

/-- the number of ancestors -/
def depth (f : Forest) (n : NodeId) : Nat := (f.lineage n).length - 1

/-- the names from the root down to the node -/
def path (f : Forest) (n : NodeId) : String :=
  Path.join ((f.lineage n).reverse.map fun m => (f.node m).name)

/-! ## tests on the way up -/

def climbsTo (f : Forest) (test : NodeId → Bool) : Nat → NodeId → Bool
  | 0, n => test n
  | k + 1, n =>
    test n ||
      match (f.node n).parent with
      | none => false
      | some p => climbsTo f test k p

/-- whether the node or an ancestor of it passes a test -/
def under (f : Forest) (test : NodeId → Bool) (n : NodeId) : Bool := f.climbsTo test f.size n

theorem climbsTo_eq_any_climb (f : Forest) (test : NodeId → Bool) (k : Nat) (n : NodeId) :
    f.climbsTo test k n = (f.climb k n).any test := by
  induction k generalizing n with
  | zero => simp [climbsTo, climb]
  | succ k ih =>
    rw [climbsTo, climb]
    cases (f.node n).parent with
    | none => simp
    | some p => simp [ih]

theorem under_eq_any_lineage (f : Forest) (test : NodeId → Bool) (n : NodeId) :
    f.under test n = (f.lineage n).any test := f.climbsTo_eq_any_climb test f.size n

end Forest
end Arbor
