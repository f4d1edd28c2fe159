import Arbor.Forest.Teardown
import Arbor.Session.Command
import Arbor.Value.Stored

/-!
# Edits of a forest

* `Forest.edit`  carries out an edit, or refuses it.
-/

namespace Arbor
namespace Forest

/-- an attribute gets the stored form of the value, if it has one -/
def storeAttribute (f : Forest) (n : NodeId) (name : String) (value : Value) :
    Except Fault Forest := do
  let text ← value.stored
  return f.setAttribute n name text

def edit (f : Forest) : Edit → Except Fault (Change Answer)
  | .add n branch => return (← f.addBranch n branch).map .node
  | .remove n branch => return (f.removeBranch n branch).map .ofNode?
  | .replace n old new => return (← f.replaceBranch n old new).map .ofNode?
  | .setAttribute n name value => return .silent .nothing (← f.storeAttribute n name value)
  | .removeAttribute n name => return .silent .nothing (f.removeAttribute n name)
  | .tag n t => return .silent .nothing (f.tag n t)
  | .destroy n => return (f.destroy n).map .number

end Forest
end Arbor
