import Arbor.Forest.Lifetime
import Arbor.Number.Digits
import Arbor.Session.Saved

/-!
# Sessions

A session is a forest together with what keeps its nodes alive: the nodes that are held and the
lists, walks and iterators that are saved.

* `Session.living`  marks the nodes that live;
* `Session.settle`  lets go of the others;
* `Session.grow`    goes on with new nodes, which are held.
-/

namespace Arbor

structure Session where
  forest : Forest
  held : Marks
  saved : Dictionary Saved
  thresholds : Thresholds
  deriving DecidableEq

namespace Session

def start : Session := ⟨.empty, #[], [], .start⟩

/-! ## lifetime -/

/-- the held nodes and those that saved things refer to -/
def anchored (s : Session) : Marks :=
  s.saved.foldl (fun marks entry => entry.2.anchors.foldl (fun marks n => marks.set n true) marks)
    s.held

def living (s : Session) : Marks := s.forest.living s.anchored

def settle (s : Session) : Session := { s with forest := s.forest.settle s.living }

/-- every living node by number -/
def state (s : Session) : List (NodeId × Node) :=
  ((List.range s.forest.size).filter s.living.has).map fun n => (n, s.forest.node n)

/-! ## new nodes -/

/-- the number of the next node -/
def nextNode (s : Session) : NodeId := s.forest.size

/-- goes on with a forest that has more nodes; the new ones are held -/
def grow (s : Session) (forest : Forest) : Session :=
  { s with
    forest := forest
    held := s.held ++ Array.replicate (forest.size - s.held.size) true }

end Session

/-- texts that differ in the number behind the stem, which counts from 0 -/
def numbered (stem : String) (count : Nat) : List String :=
  (List.range count).map fun i => stem ++ naturalText i

end Arbor
