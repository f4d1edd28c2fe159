import Arbor.Proofs.Frames
import Arbor.Proofs.Paths
import Arbor.Proofs.Recursions

/-!
# What an attachment does to the rest of the tree

To attach a root writes two links.  Whoever asks for roots, depths or paths below the new branch, or
for counts, walks or enumerations above it, gets another answer from then on; nobody else does.  To
detach the branch again takes the answers back.

* `Spliced`                 two lists that differ in one part;
* `Forest.Graftable`        a root that may become a branch of a node;
* `Graftable.lineage_attach_of_below`  the ways up from the new branch go on with that of its parent;
* `Graftable.walk_attach_of_above`, `Graftable.enumerate_attach_of_above`  where its listings are
                            put in above it;
* `Graftable.detach_attach`  parting it again leaves the forest as it was;
* `Reachable.attach_answers`  all of it after every run.
-/

namespace Arbor

/-! ## lists that differ in one part -/

/-- the second list has `new` in one place where the first one has `old` -/
def Spliced {α : Type} (old new xs ys : List α) : Prop :=
  ∃ before after, xs = before ++ old ++ after ∧ ys = before ++ new ++ after

namespace Spliced

variable {α β : Type} {old new xs ys : List α}

theorem whole (old new : List α) : Spliced old new old new :=
  ⟨[], [], (List.append_nil _).symm, (List.append_nil _).symm⟩

theorem append_left (front : List α) (h : Spliced old new xs ys) :
    Spliced old new (front ++ xs) (front ++ ys) := by
  obtain ⟨before, after, rfl, rfl⟩ := h
  exact ⟨front ++ before, after, by simp only [List.append_assoc], by simp only [List.append_assoc]⟩

theorem append_right (h : Spliced old new xs ys) (back : List α) :
    Spliced old new (xs ++ back) (ys ++ back) := by
  obtain ⟨before, after, rfl, rfl⟩ := h
  exact ⟨before, after ++ back, List.append_assoc _ _ _, List.append_assoc _ _ _⟩

theorem map (g : α → β) (h : Spliced old new xs ys) :
    Spliced (old.map g) (new.map g) (xs.map g) (ys.map g) := by
  obtain ⟨before, after, rfl, rfl⟩ := h
  exact ⟨before.map g, after.map g, by simp only [List.map_append], by simp only [List.map_append]⟩

/-- a listing that changes in one of several parts -/
theorem flatMap {φ ψ : β → List α} {bs : List β} {c : β} (hnodup : bs.Nodup) (hc : c ∈ bs)
    (hothers : ∀ b ∈ bs, b ≠ c → ψ b = φ b) (h : Spliced old new (φ c) (ψ c)) :
    Spliced old new (bs.flatMap φ) (bs.flatMap ψ) := by
  obtain ⟨front, back, rfl⟩ := List.append_of_mem hc
  rw [List.nodup_middle, List.nodup_cons, List.mem_append, not_or] at hnodup
  obtain ⟨⟨hfront, hback⟩, -⟩ := hnodup
  have hsame : ∀ part : List β, c ∉ part → (∀ b ∈ part, b ∈ front ++ c :: back) →
      part.flatMap ψ = part.flatMap φ := fun part hout hsub =>
    List.flatMap_congr fun b hb => hothers b (hsub b hb) fun heq => hout (heq ▸ hb)
  rw [List.flatMap_append, List.flatMap_append, List.flatMap_cons, List.flatMap_cons,
    hsame front hfront fun b hb => List.mem_append_left _ hb,
    hsame back hback fun b hb => List.mem_append_right _ (List.mem_cons_of_mem c hb)]
  exact (h.append_right _).append_left _

theorem length_add (h : Spliced old new xs ys) :
    ys.length + old.length = xs.length + new.length := by
  obtain ⟨before, after, rfl, rfl⟩ := h
  simp only [List.length_append]
  omega

end Spliced

namespace Forest

/-- a root `b` that may become a branch of `p` -/
structure Graftable (f : Forest) (p b : NodeId) : Prop where
  linked : f.Linked
  lt_size_parent : p < f.size
  lt_size_branch : b < f.size
  root : (f.node b).parent = none
  not_above : ∀ k, f.ancestor? k p ≠ some b

namespace Graftable

variable {f : Forest} {p b : NodeId} (h : f.Graftable p b)
include h

theorem attachable_eq : f.attachable p (.node b) = .ok b :=
  attachable_eq_ok_iff.mpr ⟨rfl, h.root, h.linked.under_beq_eq_false_iff.mpr h.not_above⟩

theorem linked_attach : (f.attach p b).Linked :=
  h.linked.attach h.lt_size_parent h.lt_size_branch h.root h.not_above

theorem pos_size : 0 < f.size := Nat.zero_lt_of_lt h.lt_size_parent

theorem pos_size_attach : 0 < (f.attach p b).size := by
  rw [size_attach]
  exact h.pos_size

/-! ## the new link -/

theorem parent_attach_self : ((f.attach p b).node b).parent = some p := by
  rw [node_attach h.lt_size_parent h.lt_size_branch]
  exact if_pos rfl

theorem parent_attach_of_ne {m : NodeId} (hm : m ≠ b) :
    ((f.attach p b).node m).parent = (f.node m).parent := by
  rw [node_attach h.lt_size_parent h.lt_size_branch]
  exact if_neg hm

theorem parent_attach_of_parent {m q : NodeId} (hm : (f.node m).parent = some q) :
    ((f.attach p b).node m).parent = some q := by
  refine (h.parent_attach_of_ne ?_).trans hm
  rintro rfl
  rw [h.root] at hm
  cases hm

theorem branches_attach_self : ((f.attach p b).node p).branches = (f.node p).branches ++ [b] := by
  rw [node_attach h.lt_size_parent h.lt_size_branch]
  exact if_pos rfl

theorem branches_attach_of_ne {m : NodeId} (hm : m ≠ p) :
    ((f.attach p b).node m).branches = (f.node m).branches := by
  rw [node_attach h.lt_size_parent h.lt_size_branch]
  exact if_neg hm

theorem name_attach (m : NodeId) : ((f.attach p b).node m).name = (f.node m).name := by
  rw [node_attach h.lt_size_parent h.lt_size_branch]

/-! ## ways up -/

theorem ancestor?_attach_of_not_below {m : NodeId} (hm : ∀ k, f.ancestor? k m ≠ some b) (k : Nat) :
    (f.attach p b).ancestor? k m = f.ancestor? k m :=
  ancestor?_eq_of_not_below
    (fun _ hout => h.parent_attach_of_ne fun heq => hout 0 (congrArg some heq)) hm k

theorem lineage_attach_of_not_below {m : NodeId} (hm : ∀ k, f.ancestor? k m ≠ some b) :
    (f.attach p b).lineage m = f.lineage m := by
  apply List.ext_getElem?
  intro i
  rw [h.linked_attach.getElem?_lineage, h.linked.getElem?_lineage]
  exact h.ancestor?_attach_of_not_below hm i

/-- the way up from below the new branch goes on with that of its parent -/
theorem lineage_attach_of_below {k : Nat} {m : NodeId} (hm : f.ancestor? k m = some b) :
    (f.attach p b).lineage m = f.lineage m ++ f.lineage p := by
  induction k generalizing m with
  | zero =>
    cases hm
    rw [h.linked_attach.lineage_of_parent h.parent_attach_self,
      h.lineage_attach_of_not_below h.not_above, h.linked.lineage_of_root h.root,
      List.singleton_append]
  | succ k ih =>
    obtain ⟨q, hq, hup⟩ := exists_parent_of_ancestor?_succ hm
    rw [h.linked_attach.lineage_of_parent (h.parent_attach_of_parent hq),
      h.linked.lineage_of_parent hq, ih hup, List.cons_append]

theorem root_attach_of_below {k : Nat} {m : NodeId} (hm : f.ancestor? k m = some b) :
    (f.attach p b).root m = f.root p := by
  have hlast := h.linked_attach.getLast?_lineage m
  rw [h.lineage_attach_of_below hm, List.getLast?_append, h.linked.getLast?_lineage,
    Option.some_or] at hlast
  exact (Option.some.inj hlast).symm

theorem depth_attach_of_below {k : Nat} {m : NodeId} (hm : f.ancestor? k m = some b) :
    (f.attach p b).depth m = f.depth m + (f.depth p + 1) := by
  have hlength := h.linked_attach.length_lineage m
  rw [h.lineage_attach_of_below hm, List.length_append, h.linked.length_lineage,
    h.linked.length_lineage] at hlength
  omega

theorem path_attach_of_below {k : Nat} {m : NodeId} (hm : f.ancestor? k m = some b) :
    (f.attach p b).path m = f.path p ++ "/" ++ f.path m := by
  have hne : ∀ n, (f.lineage n).reverse.map (fun x => (f.node x).name) ≠ [] := by
    intro n hnil
    have hlength := h.linked.length_lineage n
    rw [List.reverse_eq_nil_iff.mp (List.map_eq_nil_iff.mp hnil)] at hlength
    cases hlength
  rw [path, h.lineage_attach_of_below hm, List.reverse_append, List.map_append]
  simp only [h.name_attach]
  exact Path.join_append (hne p) (hne m)

theorem root_attach_of_not_below {m : NodeId} (hm : ∀ k, f.ancestor? k m ≠ some b) :
    (f.attach p b).root m = f.root m := by
  rw [Forest.root, h.lineage_attach_of_not_below hm]
  rfl

theorem depth_attach_of_not_below {m : NodeId} (hm : ∀ k, f.ancestor? k m ≠ some b) :
    (f.attach p b).depth m = f.depth m := by
  rw [depth, h.lineage_attach_of_not_below hm]
  rfl

theorem path_attach_of_not_below {m : NodeId} (hm : ∀ k, f.ancestor? k m ≠ some b) :
    (f.attach p b).path m = f.path m := by
  rw [path, h.lineage_attach_of_not_below hm]
  simp only [h.name_attach]
  rfl

/-! ## listings that do not lead through the parent -/

theorem sameBelow_attach {a : NodeId} (ha : ∀ k, f.ancestor? k p ≠ some a) :
    SameBelow f (f.attach p b) a := by
  intro k m hk
  have hm : m ≠ p := fun heq => ha k (heq ▸ hk)
  rw [node_attach h.lt_size_parent h.lt_size_branch]
  exact Node.content_eq_iff.mpr ⟨rfl, if_neg hm, rfl, rfl⟩

theorem walk_attach_of_not_above {a : NodeId} (ha : ∀ k, f.ancestor? k p ≠ some a) :
    (f.attach p b).walk a = f.walk a :=
  (h.sameBelow_attach ha).walk_eq h.linked h.linked_attach (size_attach f p b) h.pos_size

theorem enumerate_attach_of_not_above {a : NodeId} (ha : ∀ k, f.ancestor? k p ≠ some a) :
    (f.attach p b).enumerate a = f.enumerate a :=
  (h.sameBelow_attach ha).enumerate_eq h.linked h.linked_attach (size_attach f p b) h.pos_size

theorem count_attach_of_not_above {a : NodeId} (ha : ∀ k, f.ancestor? k p ≠ some a) :
    (f.attach p b).count a = f.count a :=
  (h.sameBelow_attach ha).count_eq h.linked h.linked_attach (size_attach f p b) h.pos_size

/-! ## listings that lead through the parent -/

theorem not_above_of_mem {c : NodeId} (hc : c ∈ (f.node p).branches) (k : Nat) :
    f.ancestor? k p ≠ some c :=
  h.linked.ancestor?_ne_of_parent ((h.linked.mem_branches_iff p c).mp hc) k

/-- only one branch of a node above the parent leads to it -/
theorem not_above_of_ne {k : Nat} {a c d : NodeId} (hup : f.ancestor? k p = some c)
    (hc : (f.node c).parent = some a) (hd : d ∈ (f.node a).branches) (hne : d ≠ c) (j : Nat) :
    f.ancestor? j p ≠ some d := fun hj =>
  hne (h.linked.branch_unique hj hup ((h.linked.mem_branches_iff a d).mp hd) hc)

theorem branches_attach_of_above {k : Nat} {a : NodeId} (ha : f.ancestor? (k + 1) p = some a) :
    ((f.attach p b).node a).branches = (f.node a).branches :=
  h.branches_attach_of_ne (h.linked.ne_of_ancestor?_succ ha)

theorem walk_attach_self :
    (f.attach p b).walk p = f.walk p ++ (f.walk b).map (Visit.deeper 1) := by
  have hsame : ∀ c ∈ (f.node p).branches, (f.attach p b).walk c = f.walk c := fun c hc =>
    h.walk_attach_of_not_above (h.not_above_of_mem hc)
  rw [h.linked_attach.walk_eq h.pos_size_attach, h.linked.walk_eq h.pos_size p,
    h.branches_attach_self, List.flatMap_append, List.flatMap_congr fun c hc => by rw [hsame c hc],
    List.flatMap_singleton, h.walk_attach_of_not_above h.not_above]
  rfl

/-- The walk of the new branch comes after that of its parent.  By induction on the number of links
up to the start: one branch of the start leads to the parent, and the others walk as before. -/
theorem walk_attach_of_above {k : Nat} {a : NodeId} (ha : f.ancestor? k p = some a) :
    Spliced ((f.walk p).map (Visit.deeper k))
      ((f.walk p).map (Visit.deeper k) ++ (f.walk b).map (Visit.deeper (k + 1)))
      (f.walk a) ((f.attach p b).walk a) := by
  have hf := h.linked
  induction k generalizing a with
  | zero =>
    cases ha
    rw [h.walk_attach_self, Visit.map_deeper_zero]
    exact Spliced.whole _ _
  | succ k ih =>
    obtain ⟨c, hup, hc⟩ := ancestor?_succ_eq_some_iff.mp ha
    have hbelow := (ih hup).map (Visit.deeper 1)
    rw [List.map_append, Visit.map_deeper_deeper, Visit.map_deeper_deeper] at hbelow
    have hothers : ∀ d ∈ (f.node a).branches, d ≠ c →
        ((f.attach p b).walk d).map (Visit.deeper 1) = (f.walk d).map (Visit.deeper 1) :=
      fun d hd hne => by
        rw [h.walk_attach_of_not_above (h.not_above_of_ne hup hc hd hne)]
    have hbranches := Spliced.flatMap (hf.nodup_branches a) ((hf.mem_branches_iff a c).mpr hc)
      hothers hbelow
    rw [h.linked_attach.walk_eq h.pos_size_attach, hf.walk_eq h.pos_size a,
      h.branches_attach_of_above ha]
    exact hbranches.append_left [⟨0, a⟩]

theorem enumerate_attach_self :
    (f.attach p b).enumerate p = f.enumerate p ++ (f.enumerate b ++ [b]) := by
  have hsame : ∀ c ∈ (f.node p).branches, (f.attach p b).enumerate c = f.enumerate c :=
    fun c hc => h.enumerate_attach_of_not_above (h.not_above_of_mem hc)
  rw [h.linked_attach.enumerate_eq h.pos_size_attach, h.linked.enumerate_eq h.pos_size p,
    h.branches_attach_self, List.flatMap_append, List.flatMap_congr fun c hc => by rw [hsame c hc],
    List.flatMap_singleton, h.enumerate_attach_of_not_above h.not_above]

/-- what is put in before the parent in the listing of a branch is put in there above it -/
theorem enumerate_attach_of_branch {k : Nat} {a c : NodeId} {listed : List NodeId}
    (hup : f.ancestor? k p = some c) (hc : (f.node c).parent = some a)
    (hbranch : Spliced [p] listed (f.enumerate c ++ [c]) ((f.attach p b).enumerate c ++ [c])) :
    Spliced [p] listed (f.enumerate a) ((f.attach p b).enumerate a) := by
  have hf := h.linked
  have ha : f.ancestor? (k + 1) p = some a := ancestor?_succ_eq_some_iff.mpr ⟨c, hup, hc⟩
  rw [h.linked_attach.enumerate_eq h.pos_size_attach, hf.enumerate_eq h.pos_size a,
    h.branches_attach_of_above ha]
  refine Spliced.flatMap (hf.nodup_branches a) ((hf.mem_branches_iff a c).mpr hc)
    (fun d hd hne => ?_) hbranch
  rw [h.enumerate_attach_of_not_above (h.not_above_of_ne hup hc hd hne)]

theorem enumerate_append_self_attach {k : Nat} {a : NodeId} (ha : f.ancestor? k p = some a) :
    Spliced [p] (f.enumerate b ++ [b] ++ [p]) (f.enumerate a ++ [a])
      ((f.attach p b).enumerate a ++ [a]) := by
  induction k generalizing a with
  | zero =>
    cases ha
    rw [h.enumerate_attach_self, List.append_assoc (f.enumerate p)]
    exact (Spliced.whole _ _).append_left (f.enumerate p)
  | succ k ih =>
    obtain ⟨c, hup, hc⟩ := ancestor?_succ_eq_some_iff.mp ha
    exact (h.enumerate_attach_of_branch hup hc (ih hup)).append_right [a]

/-- the enumeration of the new branch, and then the branch itself, comes before its parent -/
theorem enumerate_attach_of_above {k : Nat} {a : NodeId} (ha : f.ancestor? (k + 1) p = some a) :
    Spliced [p] (f.enumerate b ++ [b] ++ [p]) (f.enumerate a) ((f.attach p b).enumerate a) := by
  obtain ⟨c, hup, hc⟩ := ancestor?_succ_eq_some_iff.mp ha
  exact h.enumerate_attach_of_branch hup hc (h.enumerate_append_self_attach hup)

theorem count_attach_of_above {k : Nat} {a : NodeId} (ha : f.ancestor? k p = some a) :
    (f.attach p b).count a = f.count a + f.count b := by
  have hlength := (h.walk_attach_of_above ha).length_add
  simp only [List.length_append, List.length_map] at hlength
  rw [h.linked_attach.count_eq_length_walk h.pos_size_attach,
    h.linked.count_eq_length_walk h.pos_size, h.linked.count_eq_length_walk h.pos_size]
  omega

/-! ## parting again -/

theorem detach_attach : (f.attach p b).detach p b = f := by
  have hout : b ∉ (f.node p).branches := h.linked.not_mem_branches_of_root h.root p
  refine ext_node (by rw [size_detach, size_attach]) fun m => ?_
  rw [node_detach (by rw [size_attach]; exact h.lt_size_parent)
    (by rw [size_attach]; exact h.lt_size_branch)]
  have hparent : (if m = b then none else ((f.attach p b).node m).parent) = (f.node m).parent := by
    split
    · rename_i hm
      rw [hm, h.root]
    · rename_i hm
      exact h.parent_attach_of_ne hm
  have hbranches : (if m = p then ((f.attach p b).node m).branches.erase b
      else ((f.attach p b).node m).branches) = (f.node m).branches := by
    split
    · rename_i hm
      rw [hm, h.branches_attach_self, List.erase_append_right _ hout, List.erase_cons_head,
        List.append_nil]
    · rename_i hm
      exact h.branches_attach_of_ne hm
  rw [hparent, hbranches, node_attach h.lt_size_parent h.lt_size_branch]

theorem removeBranch_attach :
    (f.attach p b).removeBranch p (.node b) = .silent (some b) f := by
  rw [h.linked_attach.removeBranch_of_parent h.parent_attach_self, h.detach_attach]

end Graftable

theorem Linked.graftable_of_addBranch {f : Forest} (h : f.Linked) {p b : NodeId} {c : Change NodeId}
    (hp : p < f.size) (hb : b < f.size) (hc : f.addBranch p (.node b) = .ok c) :
    f.Graftable p b ∧ c = .silent b (f.attach p b) := by
  obtain ⟨b', hattach, rfl⟩ := addBranch_eq_ok_iff.mp hc
  have hvalue : ∀ n ∈ (Value.node b).nodes, n < f.size := fun n hn => List.mem_singleton.mp hn ▸ hb
  obtain ⟨-, hroot, hfree⟩ := h.attach_of_attachable hvalue hattach
  cases (attachable_eq_ok_iff.mp hattach).1
  exact ⟨⟨h, hp, hb, hroot, hfree⟩, rfl⟩

end Forest

namespace Session
namespace Reachable

variable {s : Session} (h : s.Reachable) {p b : NodeId}
include h

/-! ## steps that attach or detach -/

/-- nobody dies of an attachment -/
theorem settle_attach (hgraft : s.forest.Graftable p b) (hp : s.Alive p) (hb : s.Alive b) :
    { s with forest := s.forest.attach p b }.settle =
      { s with forest := s.forest.attach p b } := by
  refine h.settle_eq_of_links hgraft.linked_attach (Forest.size_attach _ p b)
    (fun c q hq => .inl (hgraft.parent_attach_of_parent hq)) fun m hm => ?_
  have hmp : m ≠ p := fun heq => hm (heq ▸ hp)
  have hmb : m ≠ b := fun heq => hm (heq ▸ hb)
  rw [Forest.node_attach hgraft.lt_size_parent hgraft.lt_size_branch, if_neg hmp, if_neg hmb]

theorem step_add (hgraft : s.forest.Graftable p b) (hp : s.held.has p = true)
    (hb : s.held.has b = true) :
    s.step (.edit (.add p (.node b))) =
      (⟨.ok (.node b), []⟩, { s with forest := s.forest.attach p b }) := by
  have hheld : ∀ n ∈ (Edit.add p (.node b)).nodes, s.held.has n = true :=
    List.forall_mem_cons.mpr ⟨hp, fun n hn => List.mem_singleton.mp hn ▸ hb⟩
  refine h.step_edit_of_frame hheld (Forest.edit_add hgraft.attachable_eq) fun m hm => ?_
  simp only [Edit.nodes, Value.nodes, List.mem_cons, List.not_mem_nil, or_false, not_or] at hm
  show (s.forest.attach p b).node m = _
  rw [Forest.node_attach hgraft.lt_size_parent hgraft.lt_size_branch, if_neg hm.1,
    if_neg hm.2]

theorem step_remove (hparent : (s.forest.node b).parent = some p) (hp : s.held.has p = true)
    (hb : s.held.has b = true) :
    s.step (.edit (.remove p (.node b))) =
      (⟨.ok (.node b), []⟩, { s with forest := s.forest.detach p b }) := by
  have hheld : ∀ n ∈ (Edit.remove p (.node b)).nodes, s.held.has n = true :=
    List.forall_mem_cons.mpr ⟨hp, fun n hn => List.mem_singleton.mp hn ▸ hb⟩
  obtain ⟨hbs, hps⟩ := h.linked.lt_size_of_parent hparent
  refine h.step_edit_of_frame hheld (h.linked.edit_remove hparent) fun m hm => ?_
  simp only [Edit.nodes, Value.nodes, List.mem_cons, List.not_mem_nil, or_false, not_or] at hm
  show (s.forest.detach p b).node m = _
  rw [Forest.node_detach hps hbs, if_neg hm.1, if_neg hm.2]

theorem step_remove_attach (hgraft : s.forest.Graftable p b) (hp : s.held.has p = true)
    (hb : s.held.has b = true) :
    { s with forest := s.forest.attach p b }.step (.edit (.remove p (.node b))) =
      (⟨.ok (.node b), []⟩, s) := by
  have hafter : { s with forest := s.forest.attach p b }.Reachable := by
    have hreach := h.after_step (.edit (.add p (.node b)))
    rwa [h.step_add hgraft hp hb] at hreach
  rw [hafter.step_remove hgraft.parent_attach_self hp hb]
  show (_, Session.mk ((s.forest.attach p b).detach p b) s.held s.saved s.thresholds) = _
  rw [hgraft.detach_attach]

end Reachable

/-- After every run an accepted branch takes its subtree under the root of its new parent: depths
grow by the depth of the branch and paths go on behind that of the parent.  At the parent and above
it a count grows by that of the branch, a walk meets its subtree behind that of the parent, and an
enumeration lists its subtree before the parent.  Everybody else gets the same answers as before,
and so does everybody when the branch is removed again. -/
theorem Reachable.attach_answers {s : Session} (h : s.Reachable) {p b : NodeId} {c : Change NodeId}
    (hp : s.Alive p) (hb : s.Alive b) (hc : s.forest.addBranch p (.node b) = .ok c) :
    (∀ m, (∃ k, s.forest.ancestor? k m = some b) →
      c.forest.root m = s.forest.root p ∧
      c.forest.depth m = s.forest.depth m + (s.forest.depth p + 1) ∧
      c.forest.path m = s.forest.path p ++ "/" ++ s.forest.path m) ∧
    (∀ m, (∀ k, s.forest.ancestor? k m ≠ some b) →
      c.forest.root m = s.forest.root m ∧ c.forest.depth m = s.forest.depth m ∧
      c.forest.path m = s.forest.path m) ∧
    (∀ k a, s.forest.ancestor? k p = some a → s.forest.depth p = k + s.forest.depth a ∧
      c.forest.count a = s.forest.count a + s.forest.count b ∧
      (∃ before after,
        s.forest.walk a = before ++ (s.forest.walk p).map (Visit.deeper k) ++ after ∧
        c.forest.walk a = before ++ ((s.forest.walk p).map (Visit.deeper k) ++
          (s.forest.walk b).map (Visit.deeper (k + 1))) ++ after) ∧
      (a = p → c.forest.enumerate a = s.forest.enumerate a ++ (s.forest.enumerate b ++ [b])) ∧
      (a ≠ p → ∃ before after, s.forest.enumerate a = before ++ [p] ++ after ∧
        c.forest.enumerate a = before ++ (s.forest.enumerate b ++ [b] ++ [p]) ++ after)) ∧
    (∀ a, (∀ k, s.forest.ancestor? k p ≠ some a) →
      c.forest.count a = s.forest.count a ∧ c.forest.walk a = s.forest.walk a ∧
      c.forest.enumerate a = s.forest.enumerate a) ∧
    c.forest.removeBranch p (.node b) = .silent (some b) s.forest ∧
    ∃ after, after = { s with forest := c.forest } ∧ after.settle = after ∧
      (s.held.has p = true → s.held.has b = true →
        s.step (.edit (.add p (.node b))) = (⟨.ok (.node b), []⟩, after) ∧
        after.step (.edit (.remove p (.node b))) = (⟨.ok (.node b), []⟩, s)) := by
  obtain ⟨hgraft, rfl⟩ :=
    h.linked.graftable_of_addBranch (h.lt_size_of_alive hp) (h.lt_size_of_alive hb) hc
  refine ⟨fun m ⟨k, hk⟩ => ?_, fun m hm => ?_, fun k a hk => ?_, fun a ha => ?_,
    hgraft.removeBranch_attach, _, rfl, h.settle_attach hgraft hp hb,
    fun hp hb => ⟨h.step_add hgraft hp hb, h.step_remove_attach hgraft hp hb⟩⟩
  · exact ⟨hgraft.root_attach_of_below hk, hgraft.depth_attach_of_below hk,
      hgraft.path_attach_of_below hk⟩
  · exact ⟨hgraft.root_attach_of_not_below hm, hgraft.depth_attach_of_not_below hm,
      hgraft.path_attach_of_not_below hm⟩
  · have hdepth := (h.linked.root_eq_and_depth_eq_of_ancestor? hk).2
    refine ⟨hdepth, hgraft.count_attach_of_above hk, hgraft.walk_attach_of_above hk, ?_,
      fun hap => ?_⟩
    · rintro rfl
      exact hgraft.enumerate_attach_self
    · cases k with
      | zero => exact absurd (Option.some.inj hk).symm hap
      | succ k => exact hgraft.enumerate_attach_of_above hk
  · exact ⟨hgraft.count_attach_of_not_above ha, hgraft.walk_attach_of_not_above ha,
      hgraft.enumerate_attach_of_not_above ha⟩

/-- a wall with two trellises, and a vine that hangs from nothing yet -/
def arbour : Session :=
  (start.run [.create "wall", .fan 0 "trellis" 2, .create "vine", .fan 3 "shoot" 1]).2

theorem reachable_arbour : arbour.Reachable := ⟨_, rfl⟩

/-- the vine goes up the first trellis, before the second one -/
theorem attach_answers_arbour :
    (arbour.Reachable ∧ arbour.Alive 1 ∧ arbour.Alive 3) ∧
      ∃ c, arbour.forest.addBranch 1 (.node 3) = .ok c ∧
        c.forest.root 4 = 0 ∧ c.forest.depth 4 = 3 ∧
        c.forest.path 4 = "wall/trellis0/vine/shoot0" ∧
        c.forest.count 0 = 3 + 2 ∧
        (∃ before after, arbour.forest.walk 0 = before ++ [⟨1, 1⟩] ++ after ∧
          c.forest.walk 0 = before ++ [⟨1, 1⟩, ⟨2, 3⟩, ⟨3, 4⟩] ++ after) ∧
        c.forest.enumerate 1 = [4, 3] ∧
        (∃ before after, arbour.forest.enumerate 0 = before ++ [1] ++ after ∧
          c.forest.enumerate 0 = before ++ [4, 3, 1] ++ after) ∧
        ∃ after, arbour.step (.edit (.add 1 (.node 3))) = (⟨.ok (.node 3), []⟩, after) ∧
          after.step (.edit (.remove 1 (.node 3))) = (⟨.ok (.node 3), []⟩, arbour) := by
  have htrellis : arbour.Alive 1 := .anchored (.inl (by decide +kernel))
  have hvine : arbour.Alive 3 := .anchored (.inl (by decide +kernel))
  have hadd : arbour.forest.addBranch 1 (.node 3) = .ok (.silent 3 (arbour.forest.attach 1 3)) :=
    Forest.addBranch_eq_ok_iff.mpr ⟨3, Forest.attachable_eq_ok_iff.mpr
      ⟨rfl, by decide +kernel, by decide +kernel⟩, rfl⟩
  obtain ⟨hbelow, -, habove, -, -, after, -, -, hsteps⟩ :=
    Reachable.attach_answers reachable_arbour htrellis hvine hadd
  obtain ⟨hroot, hdepth, hpath⟩ := hbelow 4 ⟨1, by decide +kernel⟩
  obtain ⟨-, -, -, hself, -⟩ := habove 0 1 rfl
  obtain ⟨-, hcount, hwalk, -, henumerate⟩ := habove 1 0 (by decide +kernel)
  have hcounts : arbour.forest.count 0 = 3 ∧ arbour.forest.count 3 = 2 := by decide +kernel
  have hlistings : arbour.forest.walk 1 = [⟨0, 1⟩] ∧ arbour.forest.walk 3 = [⟨0, 3⟩, ⟨1, 4⟩] ∧
      arbour.forest.enumerate 3 = [4] := by decide +kernel
  rw [hlistings.1, hlistings.2.1] at hwalk
  rw [hlistings.2.2] at henumerate
  refine ⟨⟨reachable_arbour, htrellis, hvine⟩, _, hadd, ?_, ?_, ?_, ?_, hwalk, ?_,
    henumerate (by decide), after, hsteps (by decide +kernel) (by decide +kernel)⟩
  · rw [hroot]
    decide +kernel
  · rw [hdepth]
    decide +kernel
  · rw [hpath]
    decide +kernel
  · rw [hcount, hcounts.1, hcounts.2]
  · rw [hself rfl]
    decide +kernel

end Session
end Arbor
