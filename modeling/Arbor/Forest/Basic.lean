import Arbor.Dictionary
import Arbor.Value.Basic

/-!
# Forests

A forest holds every node that was ever created, by its number.  A node names its branches in
order, and it names its parent; the two directions of a link are stored apart.

* `Forest.node`    the node of a number;
* `Forest.update`  changes one node;
* `Forest.plant`   adds a node without parent and branches, under the next number.
-/

namespace Arbor

structure Node where
  name : String
  parent : Option NodeId
  branches : List NodeId
  attributes : Dictionary String
  tags : List String
  deriving DecidableEq

namespace Node

def fresh (name : String) : Node := ⟨name, none, [], [], []⟩

/-- a released node keeps its name and nothing else -/
def released (node : Node) : Node := fresh node.name

/-- what is left of a node that is gone: its name, and its attributes for those who look at them
still -/
def remains (node : Node) : Node := { fresh node.name with attributes := node.attributes }

end Node

structure Forest where
  nodes : Array Node
  deriving DecidableEq

namespace Forest

def empty : Forest := ⟨#[]⟩

def size (f : Forest) : Nat := f.nodes.size

/-! ## one node -/

/-- the node of a number; a number without a node reads as a nameless node that stands alone -/
def node (f : Forest) (n : NodeId) : Node := f.nodes[n]?.getD (Node.fresh "")

def update (f : Forest) (n : NodeId) (change : Node → Node) : Forest :=
  ⟨f.nodes.modify n change⟩

def plant (f : Forest) (name : String) : Forest := ⟨f.nodes.push (Node.fresh name)⟩

@[simp] theorem size_update (f : Forest) (n : NodeId) (change : Node → Node) :
    (f.update n change).size = f.size := Array.size_modify

@[simp] theorem size_plant (f : Forest) (name : String) : (f.plant name).size = f.size + 1 :=
  Array.size_push _

theorem node_of_size_le {f : Forest} {n : NodeId} (h : f.size ≤ n) : f.node n = Node.fresh "" := by
  rw [node, Array.getElem?_eq_none h]
  rfl

theorem node_update_self {f : Forest} {n : NodeId} (h : n < f.size) (change : Node → Node) :
    (f.update n change).node n = change (f.node n) := by
  have hn : n < f.nodes.size := h
  simp [node, update, Array.getElem_modify, hn]

theorem node_update_of_ne {f : Forest} {n m : NodeId} (h : n ≠ m) (change : Node → Node) :
    (f.update n change).node m = f.node m := by
  simp [node, update, Array.getElem?_modify, h]

theorem node_plant_self (f : Forest) (name : String) :
    (f.plant name).node f.size = Node.fresh name := by
  simp [node, plant, size]

theorem node_plant_of_lt {f : Forest} {n : NodeId} (h : n < f.size) (name : String) :
    (f.plant name).node n = f.node n := by
  have hn : n ≠ f.nodes.size := Nat.ne_of_lt h
  simp [node, plant, Array.getElem?_push, hn]

/-! ## annotations -/

def setAttribute (f : Forest) (n : NodeId) (name value : String) : Forest :=
  f.update n fun node => { node with attributes := Dictionary.put name value node.attributes }

/-- the value of an attribute, empty for one that is not set -/
def attributeValue (f : Forest) (n : NodeId) (name : String) : String :=
  ((f.node n).attributes.get? name).getD ""

def removeAttribute (f : Forest) (n : NodeId) (name : String) : Forest :=
  f.update n fun node => { node with attributes := node.attributes.erase name }

/-- a tag that the node has already keeps its place -/
def tag (f : Forest) (n : NodeId) (t : String) : Forest :=
  f.update n fun node => { node with tags := if t ∈ node.tags then node.tags else node.tags ++ [t] }

def hasTag (f : Forest) (n : NodeId) (t : String) : Bool := t ∈ (f.node n).tags

end Forest
end Arbor
