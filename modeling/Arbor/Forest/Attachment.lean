import Arbor.Fault
import Arbor.Forest.Change
import Arbor.Forest.Lineage

/-!
# Attaching and detaching branches

* `Forest.attachable`     the node that a value names, if it may become a branch of a node;
* `Forest.addBranch`      makes it the last branch;
* `Forest.removeBranch`   takes a branch away and leaves it as a root;
* `Forest.replaceBranch`  puts a node in the place of a branch.

A value that is no branch is nothing to remove or to replace, which is no fault.
-/

namespace Arbor
namespace Forest

/-! ## links -/

/-- makes `b` the last branch of `p` -/
def attach (f : Forest) (p b : NodeId) : Forest :=
  (f.update b fun node => { node with parent := some p }).update p fun node =>
    { node with branches := node.branches ++ [b] }

/-- parts `b` from its parent `p` -/
def detach (f : Forest) (p b : NodeId) : Forest :=
  (f.update p fun node => { node with branches := node.branches.erase b }).update b fun node =>
    { node with parent := none }

/-- puts `new` in the place of the branch `old` of `p` -/
def substitute (f : Forest) (p old new : NodeId) : Forest :=
  ((f.update new fun node => { node with parent := some p }).update p fun node =>
    { node with branches := node.branches.replace old new }).update old fun node =>
    { node with parent := none }

/-! ## checks -/

/-- the branch of `p` that a value is -/
def branch? (f : Forest) (p : NodeId) : Value → Option NodeId
  | .node b => if b ∈ (f.node p).branches then some b else none
  | _ => none

/-- the node that a value names, if it may become a branch of `p` -/
def attachable (f : Forest) (p : NodeId) : Value → Except Fault NodeId
  | .node b =>
    match (f.node b).parent with
    | some q => .error (.alreadyAttached (f.node b).name (f.node q).name)
    | none => if f.under (· == b) p then .error (.ownSubtree (f.node b).name) else .ok b
  | .absent => .error .missingBranch
  | v => .error (.notANode v.kindName)

/-! ## operations -/

def addBranch (f : Forest) (p : NodeId) (branch : Value) : Except Fault (Change NodeId) :=
  match f.attachable p branch with
  | .ok b => .ok (.silent b (f.attach p b))
  | .error e => .error e

def removeBranch (f : Forest) (p : NodeId) (branch : Value) : Change (Option NodeId) :=
  match f.branch? p branch with
  | some b => .silent (some b) (f.detach p b)
  | none => ⟨none, f, [.nothingToRemove branch p]⟩

/-- Nothing happens when a branch is replaced by itself.  The new value is looked at only when there
is a branch to replace. -/
def replaceBranch (f : Forest) (p : NodeId) (old new : Value) :
    Except Fault (Change (Option NodeId)) :=
  match f.branch? p old with
  | none => .ok ⟨none, f, [.nothingToReplace old p]⟩
  | some b =>
    if new = .node b then .ok (.silent none f)
    else
      match f.attachable p new with
      | .ok c => .ok (.silent (some b) (f.substitute p b c))
      | .error e => .error e

end Forest
end Arbor
