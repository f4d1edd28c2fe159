import Arbor.Number.Double

/-!
# Values

What can be offered to a tree: as an attribute, as a number to write, or as a branch.

* `Value`           one value;
* `Value.kindName`  the name of its kind, as messages show it;
* `Value.nodes`     the nodes that it names.
-/

namespace Arbor

/-- nodes are numbered in the order of their creation, from 0 -/
abbrev NodeId := Nat

/-- the kinds of values that no tree can hold, of which only empty values occur -/
inductive Foreign where
  | list
  | dictionary
  | tuple
  | set
  | bytes
  | complex
  deriving DecidableEq

inductive Value where
  | absent
  | flag (b : Bool)
  | text (s : String)
  | integer (n : Int)
  | double (x : Double)
  | foreign (k : Foreign)
  | node (n : NodeId)
  deriving DecidableEq

/-! ## kinds -/

def Foreign.kindName : Foreign → String
  | .list => "list"
  | .dictionary => "dict"
  | .tuple => "tuple"
  | .set => "set"
  | .bytes => "bytes"
  | .complex => "complex"

namespace Value

def kindName : Value → String
  | .absent => "NoneType"
  | .flag _ => "bool"
  | .text _ => "str"
  | .integer _ => "int"
  | .double _ => "float"
  | .foreign k => k.kindName
  | .node _ => "Tree"

/-! ## nodes -/

def nodes : Value → List NodeId
  | .node n => [n]
  | _ => []

end Value
end Arbor
