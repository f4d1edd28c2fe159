import Arbor.Proofs.Recursions
import Mathlib.Data.List.Infix

/-!
# Subtrees as blocks of a listing

A listing goes through the branches of a node one after the other and finishes with one before it
turns to the next.  So what it lists of a subtree stands in one block, and the block is the listing
of that subtree for itself, as many levels deeper as its top is below the start.

* `Linked.map_deeper_walk_infix`, `Linked.enumerate_append_self_infix`  the blocks of the two
                              traversals;
* `Forest.dumpLine_deeper`    a line of a dump, some levels deeper;
* `Linked.dumpLines_infix`    the block of a dump;
* `Reachable.listings_contiguous`  all three after every run.
-/

namespace Arbor

/-- one of several parts that a list is put together from -/
theorem infix_flatMap_of_mem {α β : Type} {g : β → List α} {bs : List β} {b : β} (hb : b ∈ bs) :
    g b <:+: bs.flatMap g := List.infix_of_mem_flatten (List.mem_map_of_mem hb)

namespace Forest

/-! ## traversals -/

namespace Linked

variable {f : Forest} (h : f.Linked) (hpos : 0 < f.size) {d : Nat} {n m : NodeId}
include h hpos

/-- By induction on the number of links up to the start: the walk of the branch that leads to the
node is a part of the walk, one level deeper. -/
theorem map_deeper_walk_infix (hm : f.ancestor? d m = some n) :
    (f.walk m).map (Visit.deeper d) <:+: f.walk n := by
  induction d generalizing n with
  | zero =>
    cases hm
    rw [Visit.map_deeper_zero]
  | succ d ih =>
    obtain ⟨b, hup, hb⟩ := ancestor?_succ_eq_some_iff.mp hm
    have hbranch := (ih hup).map (Visit.deeper 1)
    rw [Visit.map_deeper_deeper] at hbranch
    have hpart : (f.walk b).map (Visit.deeper 1) <:+:
        (f.node n).branches.flatMap fun c => (f.walk c).map (Visit.deeper 1) :=
      infix_flatMap_of_mem (g := fun c => (f.walk c).map (Visit.deeper 1))
        ((h.mem_branches_iff n b).mpr hb)
    rw [h.walk_eq hpos n]
    exact List.infix_cons (hbranch.trans hpart)

theorem enumerate_append_self_infix (hm : f.ancestor? d m = some n) :
    f.enumerate m ++ [m] <:+: f.enumerate n ++ [n] := by
  induction d generalizing n with
  | zero =>
    cases hm
    exact List.infix_rfl
  | succ d ih =>
    obtain ⟨b, hup, hb⟩ := ancestor?_succ_eq_some_iff.mp hm
    have hpart : f.enumerate b ++ [b] <:+:
        (f.node n).branches.flatMap fun c => f.enumerate c ++ [c] :=
      infix_flatMap_of_mem (g := fun c => f.enumerate c ++ [c]) ((h.mem_branches_iff n b).mpr hb)
    rw [h.enumerate_eq hpos n]
    exact ((ih hup).trans hpart).trans (List.prefix_append _ [n]).isInfix

end Linked

/-! ## dumps -/

/-- each level more is one indent more, in front of the others -/
theorem dumpLine_deeper (f : Forest) (coloured : Bool) (indent : String) (d : Nat) (v : Visit) :
    f.dumpLine coloured indent (v.deeper d) =
      String.join (List.replicate d indent) ++ f.dumpLine coloured indent v := by
  have hlevels : (v.deeper d).depth + 1 = d + (v.depth + 1) := by
    show v.depth + d + 1 = _
    omega
  rw [dumpLine, dumpLine, hlevels, List.replicate_add, String.join_append]
  simp only [String.append_assoc]
  rfl

theorem exists_dumpLine_eq (f : Forest) (coloured : Bool) (indent : String) (n : NodeId) :
    ∀ line ∈ f.dumpLines coloured indent n, ∃ body, line = body ++ "\n" := by
  intro line hline
  obtain ⟨v, _, rfl⟩ := List.mem_map.mp hline
  exact ⟨_, rfl⟩

namespace Linked

variable {f : Forest} (h : f.Linked) (hpos : 0 < f.size) {d : Nat} {n m : NodeId}
include h hpos

theorem dumpLines_infix (coloured : Bool) (indent : String) (hm : f.ancestor? d m = some n) :
    (f.dumpLines coloured indent m).map (String.join (List.replicate d indent) ++ ·) <:+:
      f.dumpLines coloured indent n := by
  have hblock := (h.map_deeper_walk_infix hpos hm).map (f.dumpLine coloured indent)
  have hlines : ((f.walk m).map (Visit.deeper d)).map (f.dumpLine coloured indent) =
      (f.dumpLines coloured indent m).map (String.join (List.replicate d indent) ++ ·) := by
    rw [dumpLines, List.map_map, List.map_map]
    exact List.map_congr_left fun v _ => f.dumpLine_deeper coloured indent d v
  rwa [hlines] at hblock

/-- a dump has one line for each node that its header counts -/
theorem dump_eq (coloured : Bool) (indent : String) (n : NodeId) :
    f.dump coloured indent n =
      "Tree (" ++ naturalText (f.dumpLines coloured indent n).length ++ " nodes)\n" ++
        String.join (f.dumpLines coloured indent n) := by
  rw [dump, h.count_eq_length_walk hpos, dumpLines, List.length_map]

end Linked
end Forest

namespace Session

/-- After every run, when so many parent links lead from a node up to a living one, the walk of the
lower node stands in one block in the walk of the upper one, as many levels deeper; so does its
enumeration, the node itself included; and so do the lines of its dump, each after as many further
indents.  These are the lines after the header, one for each node and each ended by a line break. -/
theorem Reachable.listings_contiguous {s : Session} (h : s.Reachable) {n m : NodeId} {d : Nat}
    (hn : s.Alive n) (hm : s.forest.ancestor? d m = some n) :
    (s.forest.walk m).map (Visit.deeper d) <:+: s.forest.walk n ∧
    s.forest.enumerate m ++ [m] <:+: s.forest.enumerate n ++ [n] ∧
    ∀ coloured indent,
      (s.forest.dumpLines coloured indent m).map (String.join (List.replicate d indent) ++ ·) <:+:
        s.forest.dumpLines coloured indent n ∧
      ∀ a, s.forest.dump coloured indent a =
          "Tree (" ++ naturalText (s.forest.dumpLines coloured indent a).length ++ " nodes)\n" ++
            String.join (s.forest.dumpLines coloured indent a) ∧
        ∀ line ∈ s.forest.dumpLines coloured indent a, ∃ body, line = body ++ "\n" := by
  have hl := h.linked
  have hpos := h.pos_size_of_alive hn
  exact ⟨hl.map_deeper_walk_infix hpos hm, hl.enumerate_append_self_infix hpos hm,
    fun coloured indent => ⟨hl.dumpLines_infix hpos coloured indent hm, fun a =>
      ⟨hl.dump_eq hpos coloured indent a, s.forest.exists_dumpLine_eq coloured indent a⟩⟩⟩

/-- the first rail with its two vines, seen from the root -/
theorem listings_contiguous_trellis :
    (trellis.Reachable ∧ trellis.Alive 0 ∧ trellis.forest.ancestor? 1 1 = some 0) ∧
      [⟨1, 1⟩, ⟨2, 3⟩, ⟨2, 4⟩] <:+: trellis.forest.walk 0 ∧
      [3, 4, 1] <:+: trellis.forest.enumerate 0 ++ [0] ∧
      ["..rail0\n", "...vine0\n", "...vine1\n"] <:+: trellis.forest.dumpLines false "." 0 ∧
      trellis.forest.dump false "." 0 =
        "Tree (" ++ naturalText (trellis.forest.dumpLines false "." 0).length ++ " nodes)\n" ++
          String.join (trellis.forest.dumpLines false "." 0) := by
  have hlive : trellis.Alive 0 := .anchored (.inl (by decide +kernel))
  have hup : trellis.forest.ancestor? 1 1 = some 0 := by decide +kernel
  obtain ⟨hwalk, henumerate, hdump⟩ := Reachable.listings_contiguous reachable_trellis hlive hup
  obtain ⟨hlines, htexts⟩ := hdump false "."
  have hblock : (trellis.forest.walk 1).map (Visit.deeper 1) = [⟨1, 1⟩, ⟨2, 3⟩, ⟨2, 4⟩] := by
    decide +kernel
  have hlisted : trellis.forest.enumerate 1 ++ [1] = [3, 4, 1] := by decide +kernel
  have hindented : (trellis.forest.dumpLines false "." 1).map
      (String.join (List.replicate 1 ".") ++ ·) = ["..rail0\n", "...vine0\n", "...vine1\n"] := by
    decide +kernel
  rw [hblock] at hwalk
  rw [hlisted] at henumerate
  rw [hindented] at hlines
  exact ⟨⟨reachable_trellis, hlive, hup⟩, hwalk, henumerate, hlines,
    (htexts 0).1⟩

end Session
end Arbor
