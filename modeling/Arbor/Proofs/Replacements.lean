import Arbor.Proofs.Attachments

/-!
# Replacing a branch and taking it back

A replacement is a removal and an addition, but for the place of the new branch.  So the old branch
may come back just as it may be added to its former parent after it was removed: it is a root then,
and no way up from the parent leads to it.

* `Forest.Replaceable`       a branch and a root that may take its place;
* `Replaceable.node_attach_detach`  the replacement and the removal with the addition after it;
* `Replaceable.back`         the branch may take its place again;
* `Replaceable.substitute_substitute`  and if it does, the forest is what it was;
* `Reachable.replace_undone`  all of it after every run.
-/

namespace Arbor
namespace Forest

/-! ## replacing an entry of a list -/

theorem replace_replace {bs : List NodeId} {old new : NodeId} (hold : old ∈ bs) (hnew : new ∉ bs) :
    (bs.replace old new).replace new old = bs := by
  obtain ⟨before, after, rfl, hreplace⟩ := replace_eq_of_mem hold new
  have hbefore : new ∉ before := fun hm => hnew (List.mem_append_left _ hm)
  rw [hreplace, List.replace_append_right hbefore, List.replace_cons_self]

/-! ## branches that may be replaced -/

/-- a branch `old` of `p` and a root `new` that may become one -/
structure Replaceable (f : Forest) (p old new : NodeId) : Prop extends f.Graftable p new where
  branch : (f.node old).parent = some p

namespace Replaceable

variable {f : Forest} {p old new : NodeId} (h : f.Replaceable p old new)
include h

theorem lt_size_old : old < f.size := (h.linked.lt_size_of_parent h.branch).1

theorem ne : new ≠ old := by
  rintro rfl
  have hroot := h.root
  rw [h.branch] at hroot
  cases hroot

theorem old_ne_parent : old ≠ p := fun heq =>
  h.linked.ancestor?_ne_of_parent h.branch 0 (congrArg some heq.symm)

theorem new_ne_parent : new ≠ p := fun heq => h.not_above 0 (congrArg some heq.symm)

theorem node_substitute (m : NodeId) :
    (f.substitute p old new).node m =
      { f.node m with
        parent := if m = old then none else if m = new then some p else (f.node m).parent
        branches := if m = p then (f.node m).branches.replace old new else (f.node m).branches } :=
  Forest.node_substitute h.lt_size_parent h.lt_size_old h.lt_size_branch m

theorem linked_substitute : (f.substitute p old new).Linked :=
  h.linked.substitute h.branch h.lt_size_branch h.root h.not_above

/-! ## removing and adding -/

theorem ancestor?_of_detach {k : Nat} {n a : NodeId} (ha : (f.detach p old).ancestor? k n = some a) :
    f.ancestor? k n = some a := by
  refine ancestor?_of_parent_le (fun c q hq => ?_) ha
  rw [node_detach h.lt_size_parent h.lt_size_old] at hq
  replace hq : (if c = old then none else (f.node c).parent) = some q := hq
  split at hq
  · cases hq
  · exact hq

theorem graftable_detach : (f.detach p old).Graftable p new where
  linked := h.linked.detach h.branch
  lt_size_parent := by rw [size_detach]; exact h.lt_size_parent
  lt_size_branch := by rw [size_detach]; exact h.lt_size_branch
  root := by
    rw [node_detach h.lt_size_parent h.lt_size_old]
    exact (if_neg h.ne).trans h.root
  not_above k hk := h.not_above k (h.ancestor?_of_detach hk)

/-- removing and adding differs from replacing in the place of the new branch only -/
theorem node_attach_detach (m : NodeId) :
    ((f.detach p old).attach p new).node m =
      { (f.substitute p old new).node m with
        branches := if m = p then (f.node p).branches.erase old ++ [new]
          else ((f.substitute p old new).node m).branches } := by
  have hgraft := h.graftable_detach
  rw [node_attach hgraft.lt_size_parent hgraft.lt_size_branch,
    node_detach h.lt_size_parent h.lt_size_old, h.node_substitute]
  have hparent : (if m = new then some p else if m = old then none else (f.node m).parent) =
      if m = old then none else if m = new then some p else (f.node m).parent := by
    by_cases hm : m = new
    · rw [if_pos hm, if_neg (hm ▸ h.ne), if_pos hm]
    · rw [if_neg hm, if_neg hm]
  simp only [hparent]
  by_cases hm : m = p
  · simp only [hm, if_true]
  · simp only [hm, if_false]

theorem parent_attach_detach (m : NodeId) :
    (((f.detach p old).attach p new).node m).parent =
      ((f.substitute p old new).node m).parent := by
  rw [h.node_attach_detach]

/-! ## replacing back -/

/-- no new way up leads to the old branch, which has lost its own -/
theorem back : (f.substitute p old new).Replaceable p new old where
  linked := h.linked_substitute
  lt_size_parent := by rw [size_substitute]; exact h.lt_size_parent
  lt_size_branch := by rw [size_substitute]; exact h.lt_size_old
  root := by
    rw [h.node_substitute]
    exact if_pos rfl
  not_above k hk := by
    have hgraft := h.graftable_detach
    have hlast : ((f.detach p old).attach p new).ancestor? k p = some old :=
      ancestor?_of_parent_le (fun c q hq => (h.parent_attach_detach c).trans hq) hk
    rw [hgraft.ancestor?_attach_of_not_below hgraft.not_above] at hlast
    exact h.linked.ancestor?_ne_of_parent h.branch k (h.ancestor?_of_detach hlast)
  branch := by
    rw [h.node_substitute]
    exact (if_neg h.ne).trans (if_pos rfl)

theorem substitute_substitute : (f.substitute p old new).substitute p new old = f := by
  have hmem : old ∈ (f.node p).branches := (h.linked.mem_branches_iff p old).mpr h.branch
  have hout : new ∉ (f.node p).branches := h.linked.not_mem_branches_of_root h.root p
  refine ext_node (by rw [size_substitute, size_substitute]) fun m => ?_
  rw [h.back.node_substitute, h.node_substitute]
  have hparent : (if m = new then none else if m = old then some p
      else if m = old then none else if m = new then some p else (f.node m).parent) =
      (f.node m).parent := by
    by_cases hm : m = new
    · rw [if_pos hm, hm, h.root]
    · rw [if_neg hm, if_neg hm]
      by_cases hm : m = old
      · rw [if_pos hm, hm, h.branch]
      · rw [if_neg hm, if_neg hm]
  simp only [hparent]
  by_cases hm : m = p
  · simp only [hm, if_true, replace_replace hmem hout]
  · simp only [hm, if_false]

theorem replaceBranch_substitute :
    (f.substitute p old new).replaceBranch p (.node new) (.node old) =
      .ok (.silent (some new) f) := by
  rw [h.linked_substitute.replaceBranch_of_parent h.back.branch h.back.attachable_eq,
    h.substitute_substitute]

/-! ## the branches of the parent -/

/-- The new branch stands where the old one stood, or last if it is added after a removal. -/
theorem exists_branches : ∃ before after,
    (f.node p).branches = before ++ old :: after ∧
      ((f.substitute p old new).node p).branches = before ++ new :: after ∧
      (∀ m, ((f.detach p old).attach p new).node m = { (f.substitute p old new).node m with
        branches := if m = p then before ++ after ++ [new]
          else ((f.substitute p old new).node m).branches }) ∧
      (after = [] → (f.detach p old).attach p new = f.substitute p old new) := by
  have hmem := (h.linked.mem_branches_iff p old).mpr h.branch
  obtain ⟨before, after, hbranches, hreplace⟩ := replace_eq_of_mem hmem new
  have honce : old ∉ before := by
    have hnodup := h.linked.nodup_branches p
    rw [hbranches, List.nodup_middle, List.nodup_cons, List.mem_append, not_or] at hnodup
    exact hnodup.1.1
  have herase : (f.node p).branches.erase old = before ++ after := by
    rw [hbranches, List.erase_append_right _ honce, List.erase_cons_head]
  have hafter : ((f.substitute p old new).node p).branches = before ++ new :: after := by
    rw [h.node_substitute, ← hreplace]
    exact if_pos rfl
  have hnode := h.node_attach_detach
  rw [herase] at hnode
  refine ⟨before, after, hbranches, hafter, hnode, fun hlast => ?_⟩
  refine ext_node (by rw [size_attach, size_detach, size_substitute]) fun m => ?_
  rw [hnode]
  by_cases hm : m = p
  · rw [if_pos hm, hm, hlast, List.append_nil, ← hlast, ← hafter]
  · rw [if_neg hm]

end Replaceable

theorem Linked.replaceable_of_replaceBranch {f : Forest} (h : f.Linked) {p old new : NodeId}
    {c : Change (Option NodeId)} (hp : p < f.size) (hnew : new < f.size)
    (hc : f.replaceBranch p (.node old) (.node new) = .ok c) (hold : c.result = some old) :
    f.Replaceable p old new ∧ c = .silent (some old) (f.substitute p old new) := by
  rcases replaceBranch_cases hc with ⟨hnone, -⟩ | ⟨b, n, hb, hn, rfl⟩
  · rw [hold] at hnone
    cases hnone
  · have hvalue : ∀ m ∈ (Value.node new).nodes, m < f.size := fun m hm =>
      List.mem_singleton.mp hm ▸ hnew
    obtain ⟨-, hroot, hfree⟩ := h.attach_of_attachable hvalue hn
    obtain ⟨hvalue, hbranch⟩ := branch?_eq_some_iff.mp hb
    cases hvalue
    cases (attachable_eq_ok_iff.mp hn).1
    exact ⟨⟨⟨h, hp, hnew, hroot, hfree⟩, (h.mem_branches_iff p old).mp hbranch⟩, rfl⟩

end Forest

namespace Session
namespace Reachable

variable {s : Session} (h : s.Reachable) {p old new : NodeId}
  (hreplace : s.forest.Replaceable p old new) (hp : s.held.has p = true)
  (hold : s.held.has old = true) (hnew : s.held.has new = true)
include h hreplace hp hold hnew

theorem step_replace :
    s.step (.edit (.replace p (.node old) (.node new))) =
      (⟨.ok (.node old), []⟩, { s with forest := s.forest.substitute p old new }) := by
  have hheld : ∀ n ∈ (Edit.replace p (.node old) (.node new)).nodes, s.held.has n = true :=
    List.forall_mem_cons.mpr ⟨hp, List.forall_mem_cons.mpr
      ⟨hold, fun n hn => List.mem_singleton.mp hn ▸ hnew⟩⟩
  refine h.step_edit_of_frame hheld
    (h.linked.edit_replace hreplace.branch hreplace.attachable_eq) fun m hm => ?_
  simp only [Edit.nodes, Value.nodes, List.singleton_append, List.mem_cons, List.not_mem_nil,
    or_false, not_or] at hm
  show (s.forest.substitute p old new).node m = _
  rw [hreplace.node_substitute, if_neg hm.1, if_neg hm.2.1, if_neg hm.2.2]

theorem step_replace_back :
    { s with forest := s.forest.substitute p old new }.step
        (.edit (.replace p (.node new) (.node old))) = (⟨.ok (.node new), []⟩, s) := by
  have hafter : { s with forest := s.forest.substitute p old new }.Reachable := by
    have hreach := h.after_step (.edit (.replace p (.node old) (.node new)))
    rwa [h.step_replace hreplace hp hold hnew] at hreach
  rw [hafter.step_replace hreplace.back hp hnew hold]
  show (_, Session.mk ((s.forest.substitute p old new).substitute p new old) s.held s.saved
    s.thresholds) = _
  rw [hreplace.substitute_substitute]

theorem run_remove_add :
    s.run [.edit (.remove p (.node old)), .edit (.add p (.node new))] =
      ([⟨.ok (.node old), []⟩, ⟨.ok (.node new), []⟩],
        { s with forest := (s.forest.detach p old).attach p new }) := by
  have hremove := h.step_remove hreplace.branch hp hold
  have hafter : { s with forest := s.forest.detach p old }.Reachable := by
    have hreach := h.after_step (.edit (.remove p (.node old)))
    rwa [hremove] at hreach
  have hadd := hafter.step_add hreplace.graftable_detach hp hnew
  rw [Session.run, hremove]
  show (_ :: (Session.run _ [.edit (.add p (.node new))]).1,
    (Session.run _ [.edit (.add p (.node new))]).2) = _
  rw [Session.run, hadd]
  rfl

end Reachable

/-- After every run a replacement that gives back the old branch puts the new one in its place and
makes the old one a root, and it changes nothing else.  Replacing the other way is always accepted
then and restores the forest.  Removing the old branch and adding the new one is accepted as well
and differs in that the new one stands last. -/
theorem Reachable.replace_undone {s : Session} (h : s.Reachable) {p old new : NodeId}
    {c : Change (Option NodeId)} (hp : s.Alive p) (hnew : s.Alive new)
    (hc : s.forest.replaceBranch p (.node old) (.node new) = .ok c) (hold : c.result = some old) :
    ((c.forest.node new).parent = some p ∧ (c.forest.node old).parent = none ∧
      (∀ m, m ≠ old → m ≠ new → (c.forest.node m).parent = (s.forest.node m).parent) ∧
      (∀ m, m ≠ p → (c.forest.node m).branches = (s.forest.node m).branches) ∧
      (c.forest.node old).branches = (s.forest.node old).branches ∧
      (c.forest.node new).branches = (s.forest.node new).branches ∧
      ∀ m, (c.forest.node m).name = (s.forest.node m).name ∧
        (c.forest.node m).attributes = (s.forest.node m).attributes ∧
        (c.forest.node m).tags = (s.forest.node m).tags) ∧
    c.forest.replaceBranch p (.node new) (.node old) = .ok (.silent (some new) s.forest) ∧
    ∃ before after removed added,
      (s.forest.node p).branches = before ++ old :: after ∧
      (c.forest.node p).branches = before ++ new :: after ∧
      s.forest.removeBranch p (.node old) = .silent (some old) removed ∧
      removed.addBranch p (.node new) = .ok (.silent new added) ∧
      (∀ m, added.node m = { c.forest.node m with
        branches := if m = p then before ++ after ++ [new] else (c.forest.node m).branches }) ∧
      (after = [] → added = c.forest) ∧
      (s.held.has p = true → s.held.has old = true → s.held.has new = true →
        s.step (.edit (.replace p (.node old) (.node new))) =
          (⟨.ok (.node old), []⟩, { s with forest := c.forest }) ∧
        { s with forest := c.forest }.step (.edit (.replace p (.node new) (.node old))) =
          (⟨.ok (.node new), []⟩, s) ∧
        s.run [.edit (.remove p (.node old)), .edit (.add p (.node new))] =
          ([⟨.ok (.node old), []⟩, ⟨.ok (.node new), []⟩], { s with forest := added })) := by
  obtain ⟨hreplace, hchange⟩ := h.linked.replaceable_of_replaceBranch (h.lt_size_of_alive hp)
    (h.lt_size_of_alive hnew) hc hold
  have hforest : c.forest = s.forest.substitute p old new := congrArg Change.forest hchange
  have hnode := hreplace.node_substitute
  have hbranches : ∀ m, m ≠ p →
      ((s.forest.substitute p old new).node m).branches = (s.forest.node m).branches := by
    intro m hm
    rw [hnode]
    exact if_neg hm
  obtain ⟨before, after, hbefore, hafter, hadded, hlast⟩ := hreplace.exists_branches
  rw [hforest]
  refine ⟨⟨hreplace.back.branch, hreplace.back.root, fun m hmo hmn => ?_, hbranches,
      hbranches old hreplace.old_ne_parent, hbranches new hreplace.new_ne_parent, fun m => ?_⟩,
    hreplace.replaceBranch_substitute, before, after, s.forest.detach p old, _, hbefore, hafter,
    h.linked.removeBranch_of_parent hreplace.branch,
    Forest.addBranch_eq_ok_iff.mpr ⟨new, hreplace.graftable_detach.attachable_eq, rfl⟩, hadded,
    hlast, fun hp hold hnew => ⟨h.step_replace hreplace hp hold hnew,
      h.step_replace_back hreplace hp hold hnew, h.run_remove_add hreplace hp hold hnew⟩⟩
  · rw [hnode]
    exact (if_neg hmo).trans (if_neg hmn)
  · rw [hnode]
    exact ⟨rfl, rfl, rfl⟩

/-- a shelf with three books, and a vase that stands nowhere yet -/
def shelf : Session := (start.run [.create "shelf", .fan 0 "book" 3, .create "vase"]).2

theorem reachable_shelf : shelf.Reachable := ⟨_, rfl⟩

/-- the vase in the place of the second book, and behind the third one -/
theorem replace_undone_shelf :
    (shelf.Reachable ∧ shelf.Alive 0 ∧ shelf.Alive 4) ∧
      ∃ c, shelf.forest.replaceBranch 0 (.node 2) (.node 4) = .ok c ∧ c.result = some 2 ∧
        (shelf.forest.node 0).branches = [1, 2, 3] ∧ (c.forest.node 0).branches = [1, 4, 3] ∧
        (c.forest.node 4).parent = some 0 ∧ (c.forest.node 2).parent = none ∧
        shelf.step (.edit (.replace 0 (.node 2) (.node 4))) =
          (⟨.ok (.node 2), []⟩, { shelf with forest := c.forest }) ∧
        { shelf with forest := c.forest }.step (.edit (.replace 0 (.node 4) (.node 2))) =
          (⟨.ok (.node 4), []⟩, shelf) ∧
        ∃ added, shelf.run [.edit (.remove 0 (.node 2)), .edit (.add 0 (.node 4))] =
            ([⟨.ok (.node 2), []⟩, ⟨.ok (.node 4), []⟩], { shelf with forest := added }) ∧
          (added.node 0).branches = [1, 3, 4] := by
  have hshelf : shelf.Alive 0 := .anchored (.inl (by decide +kernel))
  have hvase : shelf.Alive 4 := .anchored (.inl (by decide +kernel))
  have hheld : shelf.held.has 0 = true ∧ shelf.held.has 2 = true ∧ shelf.held.has 4 = true := by
    decide +kernel
  have hbooks : (shelf.forest.node 0).branches = [1, 2, 3] := by decide +kernel
  have hreplace : shelf.forest.replaceBranch 0 (.node 2) (.node 4) =
      .ok (.silent (some 2) (shelf.forest.substitute 0 2 4)) :=
    reachable_shelf.linked.replaceBranch_of_parent (by decide +kernel)
      (Forest.attachable_eq_ok_iff.mpr ⟨rfl, by decide +kernel, by decide +kernel⟩)
  obtain ⟨⟨hnew, hold, -⟩, -, before, after, -, added, hbefore, hafter, -, -, hadded, -, hsteps⟩ :=
    Reachable.replace_undone reachable_shelf hshelf hvase hreplace rfl
  obtain ⟨hstep, hback, hrun⟩ := hsteps hheld.1 hheld.2.1 hheld.2.2
  have hsplit : [1] ++ 2 :: [3] = before ++ 2 :: after := hbooks.symm.trans hbefore
  obtain ⟨rfl, -, rfl⟩ :=
    (List.append_cons_inj_of_notMem (by decide) (by decide)).mp hsplit
  refine ⟨⟨reachable_shelf, hshelf, hvase⟩, _, hreplace, rfl, hbooks, hafter, hnew, hold, hstep,
    hback, added, hrun, ?_⟩
  rw [hadded]
  rfl

end Session
end Arbor
