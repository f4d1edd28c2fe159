import Arbor.Forest.Attachment
import Arbor.Forest.Enumeration

/-!
# Destroying subtrees

* `Forest.release`  takes everything but its name from a node;
* `Forest.destroy`  parts a node from its parent and releases it and all nodes below it.
-/

namespace Arbor
namespace Forest

def release (f : Forest) (n : NodeId) : Forest := f.update n Node.released

/-- parts a node from the parent it may have -/
def uproot (f : Forest) (n : NodeId) : Change Unit :=
  match (f.node n).parent with
  | none => .silent () f
  | some p => (f.removeBranch p (.node n)).map fun _ => ()

/-- The nodes are listed before anything changes.  The result is their number. -/
def destroy (f : Forest) (n : NodeId) : Change Nat :=
  let doomed := f.enumerate n ++ [n]
  let uprooted := f.uproot n
  ⟨doomed.length, doomed.foldl release uprooted.forest,
    uprooted.notices ++ [.released doomed.length n]⟩

end Forest
end Arbor
