import Arbor.Forest.Dump
import Arbor.Forest.Lookup
import Arbor.Proofs.Traversals
import Mathlib.Data.List.Find

/-!
# Subtrees that two forests share

Walks, enumerations, counts, lookups and dumps read what is below their start and no parent link.
They are the same in two forests that agree on all this, whatever else became of the nodes.

* `Node.content`       a node without its parent link;
* `Forest.SameBelow`   two forests agree on the contents of a node and of all that is below it;
* `SameBelow.walk_eq`, `SameBelow.enumerate_eq`, `SameBelow.count_eq`, `SameBelow.find_eq`,
  `SameBelow.dump_eq`  so both read the same from there.
-/

namespace Arbor

/-- all of a node but its parent link -/
def Node.content (node : Node) : Node := { node with parent := none }

theorem Node.content_eq_iff {x y : Node} :
    x.content = y.content ↔
      x.name = y.name ∧ x.branches = y.branches ∧ x.attributes = y.attributes ∧ x.tags = y.tags := by
  simp [content]

theorem Node.line_content (coloured : Bool) (node : Node) :
    node.content.line coloured = node.line coloured := rfl

namespace Forest

/-- the second forest has the contents of the first one at a node and at all that is below it -/
def SameBelow (f g : Forest) (n : NodeId) : Prop :=
  ∀ k m, f.ancestor? k m = some n → (g.node m).content = (f.node m).content

namespace SameBelow

variable {f g : Forest} {n : NodeId}

theorem self (h : SameBelow f g n) : (g.node n).content = (f.node n).content := h 0 n rfl

theorem name_eq (h : SameBelow f g n) : (g.node n).name = (f.node n).name :=
  (Node.content_eq_iff.mp h.self).1

theorem branches_eq (h : SameBelow f g n) : (g.node n).branches = (f.node n).branches :=
  (Node.content_eq_iff.mp h.self).2.1

/-- what is below a branch is below the node -/
theorem branch (h : SameBelow f g n) (hf : f.Linked) {b : NodeId}
    (hb : b ∈ (f.node n).branches) : SameBelow f g b := by
  intro k m hk
  have hp : (f.node b).parent = some n := (hf.mem_branches_iff n b).mp hb
  have hup : f.ancestor? (k + 1) m = some n := ancestor?_succ_eq_some_iff.mpr ⟨b, hk, hp⟩
  exact h (k + 1) m hup

/-! ## listings -/

theorem preorder_eq (hf : f.Linked) (h : SameBelow f g n) (k d : Nat) :
    g.preorder k d n = f.preorder k d n := by
  induction k generalizing n d with
  | zero => rfl
  | succ k ih =>
    rw [preorder, preorder, h.branches_eq]
    congr 1
    exact List.flatMap_congr fun b hb => ih (h.branch hf hb) (d + 1)

theorem postorder_eq (hf : f.Linked) (h : SameBelow f g n) (k : Nat) :
    g.postorder k n = f.postorder k n := by
  induction k generalizing n with
  | zero => rfl
  | succ k ih =>
    rw [postorder, postorder, h.branches_eq]
    congr 1
    exact List.flatMap_congr fun b hb => ih (h.branch hf hb)

theorem descend_eq (hf : f.Linked) (h : SameBelow f g n) (names : List String) :
    g.descend n names = f.descend n names := by
  induction names generalizing n with
  | nil => rfl
  | cons name rest ih =>
    have hsearch : (g.node n).branches.find? (fun b => (g.node b).name == name) =
        (f.node n).branches.find? (fun b => (f.node b).name == name) := by
      rw [h.branches_eq]
      refine List.find?_congr fun b hb => ?_
      rw [(h.branch hf hb).name_eq]
    rw [descend, descend, hsearch]
    cases hfound : (f.node n).branches.find? (fun b => (f.node b).name == name) with
    | none => rfl
    | some b => exact ih (h.branch hf (List.mem_of_find?_eq_some hfound))

theorem find_eq (hf : f.Linked) (h : SameBelow f g n) (path : String) :
    g.find n path = f.find n path := by
  rw [find, find]
  cases Path.segments path with
  | nil => rfl
  | cons name rest =>
    show (if name = (g.node n).name then g.descend n rest else none) =
      if name = (f.node n).name then f.descend n rest else none
    rw [h.name_eq, h.descend_eq hf]

/-! ## traversals -/

section
variable (hf : f.Linked) (hg : g.Linked) (hsize : g.size = f.size) (hpos : 0 < f.size)
include hf hg hsize hpos

theorem walk_eq (h : SameBelow f g n) : g.walk n = f.walk n := by
  rw [hg.walk_eq_preorder (hsize ▸ hpos), hf.walk_eq_preorder hpos, hsize, h.preorder_eq hf]

theorem count_eq (h : SameBelow f g n) : g.count n = f.count n := by
  rw [hg.count_eq_length_walk (hsize ▸ hpos), hf.count_eq_length_walk hpos,
    h.walk_eq hf hg hsize hpos]

theorem enumerate_eq (h : SameBelow f g n) : g.enumerate n = f.enumerate n := by
  have hpost := hg.enumerate_append_self (hsize ▸ hpos) n
  rw [hsize, h.postorder_eq hf, ← hf.enumerate_append_self hpos] at hpost
  exact List.append_cancel_right hpost

theorem dumpLines_eq (h : SameBelow f g n) (coloured : Bool) (indent : String) :
    g.dumpLines coloured indent n = f.dumpLines coloured indent n := by
  rw [dumpLines, dumpLines, h.walk_eq hf hg hsize hpos]
  refine List.map_congr_left fun v hv => ?_
  have hup := (hf.mem_walk_iff hpos).mp hv
  rw [dumpLine, dumpLine, ← Node.line_content coloured (g.node v.node), h _ _ hup,
    Node.line_content]

theorem dump_eq (h : SameBelow f g n) (coloured : Bool) (indent : String) :
    g.dump coloured indent n = f.dump coloured indent n := by
  rw [dump, dump, h.count_eq hf hg hsize hpos, h.dumpLines_eq hf hg hsize hpos]

end
end SameBelow
end Forest
end Arbor
