/-!
# Faults

Why a request is refused.  A refused request changes nothing.

* `Fault`          the causes;
* `Fault.message`  the text of a cause, for those that are explained.
-/

namespace Arbor

/-- the ways to make a second tree out of a tree, none of which is supported -/
inductive Duplication where
  | shallow
  | deep
  | serialized
  deriving DecidableEq

inductive Fault where
  /-- no node was given where a branch is needed -/
  | missingBranch
  /-- a value of another kind was given where a branch is needed -/
  | notANode (kind : String)
  /-- the branch has a parent -/
  | alreadyAttached (branch parent : String)
  /-- the branch is the receiver or one of its ancestors -/
  | ownSubtree (branch : String)
  /-- the way of duplicating a tree is not supported -/
  | duplication (way : Duplication)
  /-- a value of this kind has no stored form -/
  | unstorable (kind : String)
  /-- the value is no number -/
  | notNumeric
  /-- the number that is no number has no integer part -/
  | integerOfNan
  /-- an infinity has no integer part -/
  | integerOfInfinity
  /-- the integer is beyond the largest double -/
  | beyondDouble
  /-- the number of fractional digits is negative or beyond the greatest one -/
  | precisionOutOfRange
  /-- the width does not fit into a machine word -/
  | widthOutOfRange
  /-- the node is not held -/
  | notHeld
  /-- nothing of the needed kind is saved under the label -/
  | unknownLabel
  deriving DecidableEq

namespace Fault

/-- names are shown as they are, without escapes -/
def message : Fault → Option String
  | .missingBranch => some "Cannot add a missing branch"
  | .notANode kind => some ("branch must be a Tree, not " ++ kind)
  | .alreadyAttached branch parent =>
    some ("\x27" ++ branch ++ "\x27 is already a branch of \x27" ++ parent ++ "\x27")
  | .ownSubtree branch => some ("\x27" ++ branch ++ "\x27 cannot be a branch of its own subtree")
  | .duplication .shallow => some "Tree cannot be copied"
  | .duplication .deep => some "Tree cannot be deep-copied"
  | .duplication .serialized => some "Tree cannot be pickled"
  | .unstorable kind => some ("attribute value must be str, int or float, not " ++ kind)
  | .notNumeric | .integerOfNan | .integerOfInfinity | .beyondDouble | .precisionOutOfRange
  | .widthOutOfRange | .notHeld | .unknownLabel => none

end Fault
end Arbor
