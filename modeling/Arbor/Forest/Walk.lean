import Arbor.Forest.Basic

/-!
# Walks

A walk visits a node and all that is below it, each node before its branches, with the depth below
the start.  It goes one visit at a time, so the forest may change in between: the branches of the
node visited last are read when the next visit is asked for, and not before.

* `Walk.advance`  the next visit, if there is one;
* `Walk.take`     up to a number of visits;
* `Walk.nodes`    the nodes that a walk refers to, from which it goes on;
* `Forest.walk`   all visits of a walk while nothing changes.
-/

namespace Arbor

structure Visit where
  depth : Nat
  node : NodeId
  deriving DecidableEq

/-- the visit made last, whose branches are still to be read, and the visits that wait -/
structure Walk where
  last : Option Visit
  waiting : List Visit
  deriving DecidableEq

namespace Walk

/-- a walk that has not visited anything yet -/
def start (n : NodeId) : Walk := ⟨none, [⟨0, n⟩]⟩

/-- a walk that has visited everything it ever will -/
def finished : Walk := ⟨none, []⟩

/-! ## one visit at a time -/

/-- the visits to come, as far as they are known now -/
def pending (f : Forest) (w : Walk) : List Visit :=
  match w.last with
  | none => w.waiting
  | some v => (f.node v.node).branches.map (⟨v.depth + 1, ·⟩) ++ w.waiting

def advance (f : Forest) (w : Walk) : Option (Visit × Walk) :=
  match w.pending f with
  | [] => none
  | v :: rest => some (v, ⟨some v, rest⟩)

/-- Up to `k` visits, whether the walk ended before them, and the walk afterwards.  A walk that has
ended stays so. -/
def take (f : Forest) : Nat → Walk → List Visit × Bool × Walk
  | 0, w => ([], false, w)
  | k + 1, w =>
    match w.advance f with
    | none => ([], true, finished)
    | some (v, next) =>
      let (visits, ended, after) := take f k next
      (v :: visits, ended, after)

/-! ## what a walk refers to -/

/-- the node visited last and the nodes that wait -/
def nodes (w : Walk) : List NodeId := (w.last.toList ++ w.waiting).map Visit.node

/-- what a walk visits next is a node that it refers to, or a branch of one -/
theorem node_mem_of_mem_pending {f : Forest} {w : Walk} {p : NodeId → Prop}
    (hw : ∀ m ∈ w.nodes, p m) (hbranches : ∀ n, p n → ∀ b ∈ (f.node n).branches, p b) {v : Visit}
    (hv : v ∈ w.pending f) : p v.node := by
  obtain ⟨last, waiting⟩ := w
  cases last with
  | none => exact hw v.node (List.mem_map_of_mem hv)
  | some l =>
    rcases List.mem_append.mp hv with hv | hv
    · obtain ⟨b, hb, rfl⟩ := List.mem_map.mp hv
      exact hbranches l.node (hw l.node List.mem_cons_self) b hb
    · exact hw v.node (List.mem_cons_of_mem l.node (List.mem_map_of_mem hv))

/-- A walk goes on to nodes that it refers to and to branches of them. -/
theorem nodes_take {f : Forest} {p : NodeId → Prop}
    (hbranches : ∀ n, p n → ∀ b ∈ (f.node n).branches, p b) (k : Nat) {w : Walk}
    (hw : ∀ m ∈ w.nodes, p m) : ∀ m ∈ (w.take f k).2.2.nodes, p m := by
  induction k generalizing w with
  | zero => exact hw
  | succ k ih =>
    have hpending : ∀ v ∈ w.pending f, p v.node := fun v hv =>
      node_mem_of_mem_pending hw hbranches hv
    rw [take, advance]
    cases hnext : w.pending f with
    | nil =>
      intro m hm
      cases hm
    | cons v rest =>
      rw [hnext] at hpending
      refine ih fun m hm => ?_
      obtain ⟨u, hu, rfl⟩ := List.mem_map.mp hm
      exact hpending u hu

theorem take_finished (f : Forest) (k : Nat) : (finished.take f k).2.2 = finished := by
  cases k <;> rfl

end Walk

/-! ## whole walks -/

/-- the walk of a node, which visits no node twice -/
def Forest.walk (f : Forest) (n : NodeId) : List Visit := ((Walk.start n).take f f.size).1

end Arbor
