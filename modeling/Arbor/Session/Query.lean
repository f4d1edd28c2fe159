import Arbor.Forest.Description
import Arbor.Forest.Dump
import Arbor.Forest.Lineage
import Arbor.Forest.Lookup
import Arbor.Session.Command
import Arbor.Text.Printable

/-!
# Answers about one node

* `Forest.ask`  answers a query.
-/

namespace Arbor

def Forest.ask (f : Forest) (n : NodeId) : Query → Answer
  | .name => .text (f.node n).name
  | .parent => .ofNode? (f.node n).parent
  | .root => .node (f.root n)
  | .depth => .number (f.depth n)
  | .path => .text (f.path n)
  | .count => .number (f.count n)
  | .description => .text ((f.node n).describe isPrintable)
  | .branches => .nodes (f.node n).branches
  | .walk => .visits (f.walk n)
  | .attributeValue name => .text (f.attributeValue n name)
  | .hasTag t => .flag (f.hasTag n t)
  | .find path => .ofNode? (f.find n path)
  | .line coloured => .text ((f.node n).line coloured)
  | .dump coloured indent => .text (f.dump coloured indent n)

end Arbor
