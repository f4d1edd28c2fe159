import Arbor.Forest.Lineage

/-!
# Lifetime

A node owns its branches and does not own its parent.  It lives as long as it is anchored or has an
anchored ancestor.  Other nodes are gone: nothing is kept of them but their names and attributes, and
what was attached to them and lives on has no parent from then on.

* `Forest.living`  marks the nodes that live, given the anchored ones;
* `Forest.settle`  the forest after the others are gone.
-/

namespace Arbor

/-! ## marks -/

/-- a flag for each node by its number -/
abbrev Marks := Array Bool

namespace Marks

def has (marks : Marks) (n : NodeId) : Bool := marks[n]?.getD false

def set (marks : Marks) (n : NodeId) (flag : Bool) : Marks := marks.setIfInBounds n flag

end Marks

/-! ## the living -/

namespace Forest

def living (f : Forest) (anchored : Marks) : Marks :=
  (Array.range f.size).map (f.under anchored.has)

/-- a living node keeps a living parent -/
def settle (f : Forest) (living : Marks) : Forest :=
  ⟨f.nodes.mapIdx fun n node =>
    if living.has n then { node with parent := node.parent.filter living.has } else node.remains⟩

end Forest
end Arbor
