import Arbor.Forest.Change
import Arbor.Number.Shortest
import Arbor.Text.Quoted

/-!
# Descriptions

Values and notices on one line.  Names are quoted, with the characters that a test calls printable
as they are.

* `Node.describe`    a node by its name and the number of its branches;
* `Forest.describe`  any value;
* `Notice.text`      the line of a notice.
-/

namespace Arbor

/-! ## values -/

def quoted (printable : Char → Bool) (text : String) : String :=
  String.ofList (Quoted.encode printable text.toList)

def Node.describe (printable : Char → Bool) (node : Node) : String :=
  "Tree(" ++ quoted printable node.name ++ ", branches=" ++ naturalText node.branches.length ++ ")"

def Foreign.describe : Foreign → String
  | .list => "[]"
  | .dictionary => "\x7b\x7d"
  | .tuple => "()"
  | .set => "set()"
  | .bytes => "b\x27\x27"
  | .complex => "0j"

/-- a node of the forest or another value; a double is shown by its shortest digits, not as it would be
stored -/
def Forest.describe (printable : Char → Bool) (f : Forest) : Value → String
  | .absent => "None"
  | .flag true => "True"
  | .flag false => "False"
  | .text s => quoted printable s
  | .integer n => integerText n
  | .double x => x.shown
  | .foreign k => k.describe
  | .node n => (f.node n).describe printable

/-! ## notices -/

/-- the text of a notice, with what it names as it is in the forest -/
def Notice.text (printable : Char → Bool) (f : Forest) : Notice → String
  | .nothingToRemove branch n =>
    "remove_branch: " ++ f.describe printable branch ++ " is not a branch of " ++
      (f.node n).describe printable
  | .nothingToReplace old n =>
    "replace_branch: " ++ f.describe printable old ++ " is not a branch of " ++
      (f.node n).describe printable
  | .released count n =>
    "destroy: released " ++ naturalText count ++ " nodes under \x27" ++ (f.node n).name ++ "\x27"

end Arbor
