import Arbor.Forest.Census
import Arbor.Forest.Walk
import Arbor.Number.Digits

/-!
# Dumps

A subtree for human readers: a line with the number of nodes, then a line for each node in the order
of a walk, indented by depth.

* `Node.line`    a node on one line: its name, its attributes by name, its tags in order;
* `Forest.dump`  the whole text; each line ends in a line break.
-/

namespace Arbor

/-! ## colour -/

inductive Colour where
  | bold
  | yellow
  | green
  deriving DecidableEq

namespace Colour

def code : Colour → String
  | .bold => "\x1b[1m"
  | .yellow => "\x1b[33m"
  | .green => "\x1b[32m"

/-- ends any colour -/
def reset : String := "\x1b[0m"

def paint (c : Colour) (coloured : Bool) (text : String) : String :=
  if coloured then c.code ++ text ++ reset else text

end Colour

/-! ## lines -/

namespace Node

/-- entries in the order of their keys -/
def keyLe (a b : String × String) : Bool := a.1 ≤ b.1

def attributeText (coloured : Bool) (entry : String × String) : String :=
  " " ++ entry.1 ++ "=\x27" ++ Colour.yellow.paint coloured entry.2 ++ "\x27"

def attributesText (coloured : Bool) (node : Node) : String :=
  String.join ((node.attributes.mergeSort keyLe).map (attributeText coloured))

/-- the tags between blanks; a single empty tag leaves no trace -/
def tagsText (coloured : Bool) (node : Node) : String :=
  let tags := " ".intercalate node.tags
  if tags = "" then "" else " " ++ Colour.green.paint coloured tags

def line (coloured : Bool) (node : Node) : String :=
  Colour.bold.paint coloured node.name ++ node.attributesText coloured ++ node.tagsText coloured

end Node

/-! ## texts -/

namespace Forest

def dumpLine (f : Forest) (coloured : Bool) (indent : String) (v : Visit) : String :=
  String.join (List.replicate (v.depth + 1) indent) ++ (f.node v.node).line coloured ++ "\n"

/-- the lines of the nodes, without the header -/
def dumpLines (f : Forest) (coloured : Bool) (indent : String) (n : NodeId) : List String :=
  (f.walk n).map (f.dumpLine coloured indent)

def dump (f : Forest) (coloured : Bool) (indent : String) (n : NodeId) : String :=
  "Tree (" ++ naturalText (f.count n) ++ " nodes)\n" ++
    String.join (f.dumpLines coloured indent n)

/-- two blanks -/
def defaultIndent : String := "  "

end Forest
end Arbor
