import Arbor.Forest.Basic
import Arbor.Loop

/-!
# Enumerations

The nodes below a node, each after its own branches and what is below them, from left to right.

* `Enumeration.step`  goes to the next branch of the innermost open node, or closes that node;
* `Forest.enumerate`  the nodes in the order in which they are closed.
-/

namespace Arbor

/-- an open node and its branches that were not entered yet; no node stands for the start -/
structure Opened where
  node : Option NodeId
  rest : List NodeId
  deriving DecidableEq

/-- the open nodes, the innermost first, and the closed ones, the latest first -/
structure Enumeration where
  opened : List Opened
  closed : List NodeId
  deriving DecidableEq

namespace Enumeration

def start (f : Forest) (n : NodeId) : Enumeration := ⟨[⟨none, (f.node n).branches⟩], []⟩

def step (f : Forest) (e : Enumeration) : Option Enumeration :=
  match e.opened with
  | [] => none
  | ⟨n, b :: rest⟩ :: outer => some ⟨⟨some b, (f.node b).branches⟩ :: ⟨n, rest⟩ :: outer, e.closed⟩
  | ⟨none, []⟩ :: outer => some ⟨outer, e.closed⟩
  | ⟨some n, []⟩ :: outer => some ⟨outer, n :: e.closed⟩

end Enumeration

/-- the nodes below a node; each of them is opened once and closed once, and the start is closed -/
def Forest.enumerate (f : Forest) (n : NodeId) : List NodeId :=
  (drive (Enumeration.step f) (2 * f.size + 1) (Enumeration.start f n)).closed.reverse

end Arbor
