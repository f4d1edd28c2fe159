import Arbor.Forest.Enumeration
import Arbor.Session.Command

/-!
# Saved things

What a label of a session stands for.  Lists are kept as they were, except the attributes of a
node, which are read anew each time, also after the node is gone.

* `Saved.ofListing`  a list of a node;
* `Saved.read`       the list that is saved;
* `Saved.next`       goes on with a walk or an iterator;
* `Saved.anchors`    the nodes that live because what is saved refers to them.
-/

namespace Arbor

inductive Saved where
  | nodes (ns : List NodeId)
  | texts (ss : List String)
  /-- the attributes of the node at the time of reading -/
  | attributes (n : NodeId)
  /-- a walk of a node, as far as it has come -/
  | walk (start : NodeId) (w : Walk)
  /-- an iterator, with the branches that it has given out and those that it has not -/
  | iterator (given rest : List NodeId)
  deriving DecidableEq

namespace Saved

def ofListing (f : Forest) (n : NodeId) : Listing → Saved
  | .branches => .nodes (f.node n).branches
  | .attributes => .attributes n
  | .tags => .texts (f.node n).tags
  | .enumeration => .nodes (f.enumerate n)

def read (f : Forest) : Saved → Except Fault Answer
  | .nodes ns => .ok (.nodes ns)
  | .texts ss => .ok (.texts ss)
  | .attributes n => .ok (.attributes (f.node n).attributes)
  | .walk _ _ | .iterator _ _ => .error .unknownLabel

/-- An iterator lets go of its list as soon as it is asked for more than there is. -/
def next (f : Forest) (k : Nat) : Saved → Except Fault (Answer × Saved)
  | .walk start w =>
    let (visits, ended, after) := w.take f k
    .ok (.nextVisits visits ended, .walk start after)
  | .iterator given rest =>
    .ok (.nextNodes (rest.take k) (rest.length < k),
      if rest.length < k then .iterator [] [] else .iterator (given ++ rest.take k) (rest.drop k))
  | .nodes _ | .texts _ | .attributes _ => .error .unknownLabel

/-- A walk refers to its start, to the node it visited last and to those that wait, until it has
ended; an iterator refers to its whole list. -/
def anchors : Saved → List NodeId
  | .nodes ns => ns
  | .texts _ | .attributes _ => []
  | .walk start w => if w = .finished then [] else start :: w.nodes
  | .iterator given rest => given ++ rest

/-- a walk that has not visited anything refers to its start only -/
theorem mem_anchors_start {n m : NodeId} (h : m ∈ (Saved.walk n (.start n)).anchors) :
    m = n := by
  have hne : Walk.start n ≠ .finished := fun he => by cases he
  rw [anchors, if_neg hne] at h
  rcases List.mem_cons.mp h with h | h
  · exact h
  · exact List.mem_singleton.mp h

/-- What is saved after a walk or an iterator went on refers to what was referred to before, and to
branches of it. -/
theorem anchors_next {f : Forest} {k : Nat} {saved after : Saved} {answer : Answer}
    (hnext : saved.next f k = .ok (answer, after)) {p : NodeId → Prop}
    (hbranches : ∀ n, p n → ∀ b ∈ (f.node n).branches, p b) (hsaved : ∀ m ∈ saved.anchors, p m) :
    ∀ m ∈ after.anchors, p m := by
  cases saved with
  | walk start w =>
    cases hnext
    rw [anchors] at hsaved ⊢
    by_cases hw : w = .finished
    · rw [hw, Walk.take_finished, if_pos rfl]
      exact fun m hm => absurd hm List.not_mem_nil
    · rw [if_neg hw] at hsaved
      split
      · exact fun m hm => absurd hm List.not_mem_nil
      · exact List.forall_mem_cons.mpr ⟨hsaved start List.mem_cons_self,
          Walk.nodes_take hbranches k fun m hm => hsaved m (List.mem_cons_of_mem start hm)⟩
  | iterator given rest =>
    cases hnext
    split
    · exact fun m hm => absurd hm List.not_mem_nil
    · intro m hm
      rw [anchors, List.append_assoc, List.take_append_drop] at hm
      exact hsaved m hm
  | _ => cases hnext

end Saved
end Arbor
