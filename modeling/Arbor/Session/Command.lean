import Arbor.Fault
import Arbor.Session.Answer
import Arbor.Value.Basic

/-!
# Commands

* `Edit`     the operations that change nodes;
* `Query`    the questions about one node;
* `Listing`  the lists of a node that can be saved under a label;
* `Command`  everything that can be asked of a session.
-/

namespace Arbor

inductive Edit where
  | add (node : NodeId) (branch : Value)
  | remove (node : NodeId) (branch : Value)
  | replace (node : NodeId) (old new : Value)
  | setAttribute (node : NodeId) (name : String) (value : Value)
  | removeAttribute (node : NodeId) (name : String)
  | tag (node : NodeId) (tag : String)
  | destroy (node : NodeId)
  deriving DecidableEq

inductive Query where
  | name
  | parent
  | root
  | depth
  | path
  | count
  | description
  | branches
  | walk
  | attributeValue (name : String)
  | hasTag (tag : String)
  | find (path : String)
  | line (coloured : Bool)
  | dump (coloured : Bool) (indent : String)
  deriving DecidableEq

inductive Listing where
  | branches
  | attributes
  | tags
  | enumeration
  deriving DecidableEq

inductive Command where
  /-- a new node that stands alone -/
  | create (name : String)
  /-- new nodes, each the only branch of the one before -/
  | chain (stem : String) (count : Nat)
  /-- new branches of a node -/
  | fan (node : NodeId) (stem : String) (count : Nat)
  | edit (edit : Edit)
  | ask (node : NodeId) (query : Query)
  /-- a list, which is saved as well if a label is given -/
  | list (node : NodeId) (listing : Listing) (label : Option String)
  /-- a list that was saved -/
  | read (label : String)
  | forget (label : String)
  /-- saves a new walk -/
  | openWalk (node : NodeId) (label : String)
  /-- saves a new iterator over the branches as they are now -/
  | openIterator (node : NodeId) (label : String)
  /-- the next items of a walk or an iterator -/
  | next (label : String) (count : Nat)
  /-- holds the node of a path -/
  | hold (node : NodeId) (path : String)
  /-- does not hold the node any longer -/
  | drop (node : NodeId)
  | logDump (node : NodeId) (channel : Channel) (level : Int)
  | setThreshold (channel : Channel) (level : Int)
  | duplicate (node : NodeId) (way : Duplication)
  | state
  deriving DecidableEq

/-! ## the nodes that a command names -/

def Edit.nodes : Edit → List NodeId
  | .add n branch | .remove n branch => n :: branch.nodes
  | .replace n old new => n :: (old.nodes ++ new.nodes)
  | .setAttribute n _ value => n :: value.nodes
  | .removeAttribute n _ | .tag n _ | .destroy n => [n]

def Command.nodes : Command → List NodeId
  | .edit e => e.nodes
  | .fan n _ _ | .ask n _ | .list n _ _ | .openWalk n _ | .openIterator n _ | .hold n _ | .drop n
  | .logDump n _ _ | .duplicate n _ => [n]
  | .create _ | .chain _ _ | .read _ | .forget _ | .next _ _ | .setThreshold _ _ | .state => []

end Arbor
