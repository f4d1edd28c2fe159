import Arbor.Forest.Dump
import Arbor.Proofs.Sessions

/-!
# Traversals by recursion on the branches

Traversals keep a stack and read one node at a time.  What they list can also be said by recursion:
a node and the listings of its branches from left to right.  The recursion ends, as every node is
deeper than the one it hangs from and no depth is greater than the number of nodes.

* `Linked.pre`, `Linked.post`  the two listings of a subtree by recursion;
* `Linked.preorder_eq_pre`, `Linked.postorder_eq_post`  enough levels are the whole recursion;
* `Reachable.traversals_recursive`  walks, enumerations and counts follow it after every run.
-/

namespace Arbor
namespace Forest.Linked

variable {f : Forest}

/-! ## depths grow downwards -/

section
variable (h : f.Linked)
include h

theorem depth_of_parent {b p : NodeId} (hp : (f.node b).parent = some p) :
    f.depth b = f.depth p + 1 := by
  rw [(h.root_eq_and_depth_eq_of_ancestor? (ancestor?_succ_of_parent hp 0)).2, Nat.add_comm]

theorem depth_le_size (n : NodeId) : f.depth n ≤ f.size :=
  Nat.le_of_lt_succ (h.lt_succ_size_of_ancestor? (h.ancestor?_depth n))

theorem room_lt_of_branch {b n : NodeId} (hb : b ∈ (f.node n).branches) :
    f.size - f.depth b < f.size - f.depth n := by
  have hdepth := h.depth_of_parent ((h.mem_branches_iff n b).mp hb)
  have hle := h.depth_le_size b
  omega

end

/-! ## the recursions -/

/-- a node, at a depth, and then the subtrees of its branches, one level deeper -/
def pre (h : f.Linked) (d : Nat) (n : NodeId) : List Visit :=
  ⟨d, n⟩ :: (f.node n).branches.attach.flatMap fun b => pre h (d + 1) b.1
termination_by f.size - f.depth n
decreasing_by exact h.room_lt_of_branch b.2

/-- the subtrees of the branches of a node, and then the node -/
def post (h : f.Linked) (n : NodeId) : List NodeId :=
  (f.node n).branches.attach.flatMap (fun b => post h b.1) ++ [n]
termination_by f.size - f.depth n
decreasing_by exact h.room_lt_of_branch b.2

variable (h : f.Linked)
include h

theorem pre_eq (d : Nat) (n : NodeId) :
    h.pre d n = ⟨d, n⟩ :: (f.node n).branches.flatMap (h.pre (d + 1)) := by
  rw [pre, List.flatMap_subtype fun _ _ => rfl, List.unattach_attach]

theorem post_eq (n : NodeId) : h.post n = (f.node n).branches.flatMap h.post ++ [n] := by
  rw [post, List.flatMap_subtype fun _ _ => rfl, List.unattach_attach]

/-! ## stacks and recursions -/

theorem preorder_eq_pre (d : Nat) (n : NodeId) : f.preorder (f.size + 1) d n = h.pre d n := by
  induction d, n using pre.induct h with
  | case1 d n ih =>
    rw [h.preorder_unfold, h.pre_eq]
    congr 1
    exact List.flatMap_congr fun b hb => ih ⟨b, hb⟩

theorem postorder_eq_post (n : NodeId) : f.postorder (f.size + 1) n = h.post n := by
  induction n using post.induct h with
  | case1 n ih =>
    rw [h.postorder_unfold, h.post_eq]
    congr 1
    exact List.flatMap_congr fun b hb => ih ⟨b, hb⟩

theorem walk_eq_pre (hpos : 0 < f.size) (n : NodeId) : f.walk n = h.pre 0 n := by
  rw [h.walk_eq_preorder hpos, h.preorder_eq_pre]

theorem enumerate_append_self_eq_post (hpos : 0 < f.size) (n : NodeId) :
    f.enumerate n ++ [n] = h.post n := by
  rw [h.enumerate_append_self hpos, h.postorder_eq_post]

/-- a walk meets the start and what an enumeration lists -/
theorem length_walk (hpos : 0 < f.size) (n : NodeId) :
    (f.walk n).length = (f.enumerate n).length + 1 := by
  have hperm := (h.map_walk_perm hpos n).length_eq
  rwa [List.length_map, List.length_append, List.length_singleton] at hperm

theorem nodup_enumerate (hpos : 0 < f.size) (n : NodeId) : (f.enumerate n).Nodup := by
  refine (h.pairwise_enumerate hpos n).imp fun hne heq => hne 0 ?_
  rw [heq]
  rfl

/-- strictly below a node is what its enumeration lists once -/
theorem count_enumerate_eq_one_iff (hpos : 0 < f.size) {n m : NodeId} :
    (f.enumerate n).count m = 1 ↔ ∃ k, f.ancestor? (k + 1) m = some n := by
  rw [← h.mem_enumerate_iff hpos]
  constructor
  · intro hone
    exact List.count_pos_iff.mp (by rw [hone]; exact Nat.one_pos)
  · exact List.count_eq_one_of_mem (h.nodup_enumerate hpos n)

end Forest.Linked

namespace Session

/-- After every run an enumeration of a living node is its listing by recursion, each node after the
listings of its branches, without the node itself; a walk is the listing with each node before
those, at its depth; and a count is one more than the counts of the branches together.  So a count
is the length of the walk, which a dump has a line for each visit of, and one more than that of the
enumeration, where each node strictly below stands once. -/
theorem Reachable.traversals_recursive {s : Session} (h : s.Reachable) {n : NodeId}
    (hn : s.Alive n) :
    (∀ m, h.linked.post m = (s.forest.node m).branches.flatMap h.linked.post ++ [m]) ∧
      (∀ d m, h.linked.pre d m =
        ⟨d, m⟩ :: (s.forest.node m).branches.flatMap (h.linked.pre (d + 1))) ∧
      s.forest.enumerate n = (h.linked.post n).dropLast ∧
      s.forest.walk n = h.linked.pre 0 n ∧
      s.forest.count n = 1 + ((s.forest.node n).branches.map s.forest.count).sum ∧
      s.forest.count n = (s.forest.walk n).length ∧
      s.forest.count n = (s.forest.enumerate n).length + 1 ∧
      (∀ coloured indent, s.forest.dump coloured indent n =
        "Tree (" ++ naturalText (s.forest.dumpLines coloured indent n).length ++ " nodes)\n" ++
          String.join (s.forest.dumpLines coloured indent n)) ∧
      ∀ m, (s.forest.enumerate n).count m = 1 ↔ ∃ k, s.forest.ancestor? (k + 1) m = some n := by
  have hl := h.linked
  have hpos := h.pos_size_of_alive hn
  have hcount := hl.count_eq_length_walk hpos n
  refine ⟨hl.post_eq, hl.pre_eq, ?_, hl.walk_eq_pre hpos n, hl.count_eq hpos n, hcount, ?_,
    fun coloured indent => ?_, fun m => hl.count_enumerate_eq_one_iff hpos⟩
  · rw [← hl.enumerate_append_self_eq_post hpos, List.dropLast_concat]
  · rw [hcount, hl.length_walk hpos]
  · rw [Forest.dump, hcount, Forest.dumpLines, List.length_map]

/-- a root with two branches, the first of which has two branches of its own -/
def trellis : Session := (start.run [.create "root", .fan 0 "rail" 2, .fan 1 "vine" 2]).2

theorem reachable_trellis : trellis.Reachable := ⟨_, rfl⟩

theorem traversals_recursive_trellis :
    (trellis.Reachable ∧ trellis.Alive 0) ∧
      reachable_trellis.linked.post 0 = [3, 4, 1, 2, 0] ∧
      reachable_trellis.linked.pre 0 0 = [⟨0, 0⟩, ⟨1, 1⟩, ⟨2, 3⟩, ⟨2, 4⟩, ⟨1, 2⟩] ∧
      trellis.forest.count 0 = 1 + (3 + 1) ∧
      trellis.forest.count 0 = (trellis.forest.enumerate 0).length + 1 ∧
      (trellis.forest.enumerate 0).count 4 = 1 := by
  have hlive : trellis.Alive 0 := .anchored (.inl (by decide +kernel))
  obtain ⟨hpost, hpre, henumerate, hwalk, hcount, -, hlength, -, honce⟩ :=
    Reachable.traversals_recursive reachable_trellis hlive
  have hlisted : trellis.forest.enumerate 0 = [3, 4, 1, 2] := by decide +kernel
  have hbranches : (trellis.forest.node 0).branches.map trellis.forest.count = [3, 1] := by
    decide +kernel
  refine ⟨⟨reachable_trellis, hlive⟩, ?_, ?_, ?_, hlength, (honce 4).mpr ⟨1, by decide +kernel⟩⟩
  · have hne : reachable_trellis.linked.post 0 ≠ [] := by
      rw [hpost]
      exact List.append_ne_nil_of_right_ne_nil _ (List.cons_ne_nil 0 [])
    have hlast : (reachable_trellis.linked.post 0).getLast hne = 0 := by
      simp only [hpost 0, List.getLast_append_singleton]
    rw [← List.dropLast_append_getLast hne, ← henumerate, hlisted, hlast]
    rfl
  · rw [← hwalk]
    decide +kernel
  · rw [hcount, hbranches]
    rfl

end Session
end Arbor
