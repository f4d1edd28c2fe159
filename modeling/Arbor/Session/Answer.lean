import Arbor.Fault
import Arbor.Forest.Basic
import Arbor.Forest.Walk

/-!
# Answers and replies

* `Answer`  what a command gives back;
* `Record`  a line of a log;
* `Reply`   an answer or a fault, with the lines that were logged meanwhile.
-/

namespace Arbor

inductive Answer where
  | nothing
  | node (n : NodeId)
  | number (k : Nat)
  | flag (b : Bool)
  | text (s : String)
  | nodes (ns : List NodeId)
  | texts (ss : List String)
  | attributes (entries : Dictionary String)
  | visits (vs : List Visit)
  /-- the next nodes of an iterator, and whether it has ended -/
  | nextNodes (ns : List NodeId) (ended : Bool)
  /-- the next visits of a walk, and whether it has ended -/
  | nextVisits (vs : List Visit) (ended : Bool)
  /-- every living node -/
  | state (nodes : List (NodeId × Node))
  deriving DecidableEq

/-- a node that may be missing -/
def Answer.ofNode? : Option NodeId → Answer
  | none => .nothing
  | some n => .node n

/-! ## logs -/

/-- the library's own log and that of its user -/
inductive Channel where
  | core
  | custom
  deriving DecidableEq

structure Record where
  channel : Channel
  level : Int
  text : String
  deriving DecidableEq

/-- the level of the library's own lines, and of a dump unless another is given -/
def debugLevel : Int := 10

/-- Lines below the threshold of their log are dropped.  Levels and thresholds are meant to be positive:
a threshold of 0 would stand for that of a log further up, and lines of level 0 and below are switched
off for all logs in common. -/
structure Thresholds where
  core : Int
  custom : Int
  deriving DecidableEq

namespace Thresholds

def start : Thresholds := ⟨debugLevel, debugLevel⟩

def get (t : Thresholds) : Channel → Int
  | .core => t.core
  | .custom => t.custom

def set (t : Thresholds) (c : Channel) (level : Int) : Thresholds :=
  match c with
  | .core => { t with core := level }
  | .custom => { t with custom := level }

/-- the line of a log, if the threshold lets it through; otherwise its text is not even made -/
def record (t : Thresholds) (c : Channel) (level : Int) (text : Unit → String) : List Record :=
  if t.get c ≤ level then [⟨c, level, text ()⟩] else []

end Thresholds

/-! ## replies -/

structure Reply where
  outcome : Except Fault Answer
  log : List Record

end Arbor
