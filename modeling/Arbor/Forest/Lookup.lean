import Arbor.Forest.Basic
import Arbor.Text.Path

/-!
# Lookup by path

* `Forest.descend`  follows names downwards, at each node to the first branch of that name;
* `Forest.find`     the node of a path whose first name is that of the start.
-/

namespace Arbor
namespace Forest

def descend (f : Forest) : NodeId → List String → Option NodeId
  | n, [] => some n
  | n, name :: rest =>
    match (f.node n).branches.find? fun b => (f.node b).name == name with
    | none => none
    | some b => descend f b rest

def find (f : Forest) (n : NodeId) (path : String) : Option NodeId :=
  match Path.segments path with
  | [] => none
  | name :: rest => if name = (f.node n).name then f.descend n rest else none

end Forest
end Arbor
