import Arbor.Proofs.Quotations
import Arbor.Proofs.Sessions

/-!
# Descriptions that say which node

A description quotes the name of a node and tells the number of its branches.  Wherever it starts it
can be read to its end, whatever the name holds, so two descriptions in one line can be told apart as
well.  This does not depend on which characters are printable.

* `Node.LooksLike`               the same name, and as many branches;
* `Node.describe_append_inj`     a description can be read off what starts with it;
* `Node.describe_eq_iff`, `Node.describe_pair_eq_iff`  one description, and two in one line;
* `Session.step_remove_miss`, `Session.step_replace_miss`  the line of a miss;
* `Session.descriptions_unambiguous`  the descriptions of any nodes, and the lines of any misses.
-/

namespace Arbor

/-! ## nodes -/

namespace Node

/-- what a description tells of a node -/
def LooksLike (x y : Node) : Prop := x.name = y.name ∧ x.branches.length = y.branches.length

theorem toList_describe (printable : Char → Bool) (x : Node) (rest : List Char) :
    (x.describe printable).toList ++ rest = "Tree(".toList ++
      (Quoted.encode printable x.name.toList ++ (", branches=".toList ++
        ((naturalText x.branches.length).toList ++ ')' :: rest))) := by
  simp only [describe, quoted, String.toList_append, String.toList_ofList, List.append_assoc]
  rfl

/-- a description can be read off what starts with it -/
theorem describe_append_inj (printable : Char → Bool) {x y : Node} {r s : List Char}
    (h : (x.describe printable).toList ++ r = (y.describe printable).toList ++ s) :
    x.LooksLike y ∧ r = s := by
  have hdigits : ∀ n : Nat, ∀ c ∈ (naturalText n).toList, c ≠ ')' := by
    rintro n c hc rfl
    cases isDigit_of_mem_naturalText hc
  rw [toList_describe, toList_describe] at h
  obtain ⟨hname, htail⟩ := Quoted.encode_append_inj printable (List.append_cancel_left h)
  obtain ⟨hnumber, hrest⟩ :=
    append_inj_of_not_mem (hdigits _) (hdigits _) (List.append_cancel_left htail)
  exact ⟨⟨String.toList_inj.mp hname, naturalText_inj.mp (String.toList_inj.mp hnumber)⟩, hrest⟩

theorem LooksLike.describe_eq {x y : Node} (h : x.LooksLike y) (printable : Char → Bool) :
    x.describe printable = y.describe printable := by
  rw [describe, describe, h.1, h.2]

theorem describe_eq_iff (printable : Char → Bool) {x y : Node} :
    x.describe printable = y.describe printable ↔ x.LooksLike y := by
  refine ⟨fun h => ?_, fun h => h.describe_eq printable⟩
  have hlist := congrArg (·.toList ++ []) h
  exact (describe_append_inj printable hlist).1

/-- two descriptions in one line, with the same words before and between them -/
theorem describe_pair_eq_iff (printable : Char → Bool) (front middle : String)
    {x y x' y' : Node} :
    front ++ x.describe printable ++ middle ++ y.describe printable =
        front ++ x'.describe printable ++ middle ++ y'.describe printable ↔
      x.LooksLike x' ∧ y.LooksLike y' := by
  constructor
  · intro h
    have hlist := congrArg String.toList h
    simp only [String.toList_append, List.append_assoc] at hlist
    obtain ⟨hx, hrest⟩ := describe_append_inj printable (List.append_cancel_left hlist)
    have hlast := String.toList_inj.mp (List.append_cancel_left hrest)
    exact ⟨hx, (describe_eq_iff printable).mp hlast⟩
  · rintro ⟨hx, hy⟩
    rw [hx.describe_eq printable, hy.describe_eq printable]

end Node

/-! ## misses -/

namespace Session

variable {s : Session} {p b : NodeId}

/-- the line for a node that is to be removed where it is no branch -/
theorem step_remove_miss (hp : s.held.has p = true) (hb : s.held.has b = true)
    (hmiss : b ∉ (s.forest.node p).branches) :
    (s.step (.edit (.remove p (.node b)))).1 = ⟨.ok .nothing,
      s.thresholds.record .core debugLevel fun _ =>
        (Notice.nothingToRemove (.node b) p).text isPrintable s.forest⟩ := by
  have hedit : s.forest.edit (.remove p (.node b)) =
      .ok ⟨.nothing, s.forest, [.nothingToRemove (.node b) p]⟩ := by
    show Except.ok ((s.forest.removeBranch p (.node b)).map Answer.ofNode?) = _
    rw [Forest.removeBranch, Forest.branch?, if_neg hmiss]
    rfl
  have hheld : ∀ n ∈ (Edit.remove p (.node b)).nodes, s.held.has n = true := by
    intro n hn
    rcases List.mem_cons.mp hn with rfl | hn
    · exact hp
    · exact List.mem_singleton.mp hn ▸ hb
  rw [step_edit hheld hedit]
  exact congrArg (Reply.mk _) (List.flatMap_singleton _ _)

/-- the line for a node that is to be replaced where it is no branch; the new value does not matter -/
theorem step_replace_miss {new : Value} (hp : s.held.has p = true) (hb : s.held.has b = true)
    (hnew : ∀ n ∈ new.nodes, s.held.has n = true) (hmiss : b ∉ (s.forest.node p).branches) :
    (s.step (.edit (.replace p (.node b) new))).1 = ⟨.ok .nothing,
      s.thresholds.record .core debugLevel fun _ =>
        (Notice.nothingToReplace (.node b) p).text isPrintable s.forest⟩ := by
  have hedit : s.forest.edit (.replace p (.node b) new) =
      .ok ⟨.nothing, s.forest, [.nothingToReplace (.node b) p]⟩ := by
    show (s.forest.replaceBranch p (.node b) new >>= fun change =>
      Except.ok (change.map Answer.ofNode?)) = _
    rw [Forest.replaceBranch, Forest.branch?, if_neg hmiss]
    rfl
  have hheld : ∀ n ∈ (Edit.replace p (.node b) new).nodes, s.held.has n = true := by
    intro n hn
    rcases List.mem_cons.mp hn with rfl | hn
    · exact hp
    · rcases List.mem_append.mp hn with hn | hn
      · exact List.mem_singleton.mp hn ▸ hb
      · exact hnew n hn
  rw [step_edit hheld hedit]
  exact congrArg (Reply.mk _) (List.flatMap_singleton _ _)

/-- Whichever characters are taken for printable, two nodes have the same description exactly if they
have the same name and equally many branches, and the lines of two misses of the same kind, in the
same forest or in two, are the same exactly if both nodes of one have this in common with those of
the other.  These are the lines that a session logs when a node is to be removed or replaced where it
is no branch, if the threshold of its log lets them through. -/
theorem descriptions_unambiguous :
    (∀ (printable : Char → Bool) (x y : Node),
      x.describe printable = y.describe printable ↔
        x.name = y.name ∧ x.branches.length = y.branches.length) ∧
    (∀ (printable : Char → Bool) (f g : Forest) (a b c d : NodeId),
      (Notice.nothingToRemove (.node a) b).text printable f =
          (Notice.nothingToRemove (.node c) d).text printable g ↔
        (f.node a).LooksLike (g.node c) ∧ (f.node b).LooksLike (g.node d)) ∧
    (∀ (printable : Char → Bool) (f g : Forest) (a b c d : NodeId),
      (Notice.nothingToReplace (.node a) b).text printable f =
          (Notice.nothingToReplace (.node c) d).text printable g ↔
        (f.node a).LooksLike (g.node c) ∧ (f.node b).LooksLike (g.node d)) ∧
    (∀ (s : Session) (a b : NodeId), s.held.has a = true → s.held.has b = true →
      a ∉ (s.forest.node b).branches →
      (s.step (.edit (.remove b (.node a)))).1.log = if s.thresholds.core ≤ 10 then
        [⟨.core, 10, (Notice.nothingToRemove (.node a) b).text isPrintable s.forest⟩] else []) ∧
    ∀ (s : Session) (a b : NodeId) (new : Value), s.held.has a = true → s.held.has b = true →
      (∀ n ∈ new.nodes, s.held.has n = true) → a ∉ (s.forest.node b).branches →
      (s.step (.edit (.replace b (.node a) new))).1.log = if s.thresholds.core ≤ 10 then
        [⟨.core, 10, (Notice.nothingToReplace (.node a) b).text isPrintable s.forest⟩] else [] := by
  refine ⟨fun printable x y => Node.describe_eq_iff printable,
    fun printable f g a b c d => Node.describe_pair_eq_iff printable "remove_branch: " _,
    fun printable f g a b c d => Node.describe_pair_eq_iff printable "replace_branch: " _,
    fun s a b ha hb hmiss => ?_, fun s a b new ha hb hnew hmiss => ?_⟩
  · rw [step_remove_miss hb ha hmiss]
    rfl
  · rw [step_replace_miss hb ha hnew hmiss]
    rfl

/-- two nodes that stand apart, one of which is named after both marks and the other after a line -/
def gossip : Session :=
  (start.run [.create "\x27 and \x22", .create "Tree(\x27\x27) is not a branch of\n"]).2

/-- Both misses are logged, and the lines differ when the nodes change places. -/
theorem descriptions_unambiguous_gossip :
    (gossip.held.has 0 = true ∧ gossip.held.has 1 = true ∧
        1 ∉ (gossip.forest.node 0).branches ∧ 0 ∉ (gossip.forest.node 1).branches) ∧
      (gossip.step (.edit (.remove 0 (.node 1)))).1.log = [⟨.core, 10,
        "remove_branch: Tree(\x22Tree(\x27\x27) is not a branch of\\n\x22, branches=0)" ++
          " is not a branch of Tree(\x27\\\x27 and \x22\x27, branches=0)"⟩] ∧
      (gossip.step (.edit (.replace 1 (.node 0) .absent))).1.log = [⟨.core, 10,
        "replace_branch: Tree(\x27\\\x27 and \x22\x27, branches=0)" ++
          " is not a branch of Tree(\x22Tree(\x27\x27) is not a branch of\\n\x22, branches=0)"⟩] ∧
      ∀ printable,
        (Notice.nothingToRemove (.node 0) 1).text printable gossip.forest ≠
          (Notice.nothingToRemove (.node 1) 0).text printable gossip.forest := by
  have hheld : gossip.held.has 0 = true ∧ gossip.held.has 1 = true := by decide +kernel
  have hapart : 1 ∉ (gossip.forest.node 0).branches ∧ 0 ∉ (gossip.forest.node 1).branches := by
    decide +kernel
  obtain ⟨-, hlines, -, hremove, hreplace⟩ := descriptions_unambiguous
  refine ⟨⟨hheld.1, hheld.2, hapart⟩, ?_, ?_, fun printable hsame => ?_⟩
  · rw [hremove gossip 1 0 hheld.2 hheld.1 hapart.1]
    decide +kernel
  · rw [hreplace gossip 0 1 .absent hheld.1 hheld.2 (fun n hn => absurd hn List.not_mem_nil)
      hapart.2]
    decide +kernel
  · have hname := ((hlines printable _ _ 0 1 1 0).mp hsame).1.1
    exact absurd hname (by decide +kernel)

end Session
end Arbor
