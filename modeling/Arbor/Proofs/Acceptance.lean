import Arbor.Proofs.Subtrees

/-!
# Which branches are accepted

The check before an attachment climbs from the receiver.  What it must keep out lies the other way:
the receiver must not stand in the subtree of its new branch.  For a root to be attached both come
to the same.

* `Linked.under_eq_iff`            climbing to a node, and standing in its subtree;
* `Forest.attachable_eq_error_iff`  every refusal with its cause;
* `Forest.replaceBranch_eq_error_iff`  a replacement is refused as the attachment would be;
* `Reachable.accepts_exactly`      what is accepted and refused after every run.
-/

namespace Arbor
namespace Forest

/-! ## refusals -/

theorem attachable_eq_error_iff {f : Forest} {p : NodeId} {v : Value} {e : Fault} :
    f.attachable p v = .error e ↔
      (∃ b q, v = .node b ∧ (f.node b).parent = some q ∧
        e = .alreadyAttached (f.node b).name (f.node q).name) ∨
      (∃ b, v = .node b ∧ (f.node b).parent = none ∧ f.under (· == b) p = true ∧
        e = .ownSubtree (f.node b).name) ∨
      v = .absent ∧ e = .missingBranch ∨
      (∀ b, v ≠ .node b) ∧ v ≠ .absent ∧ e = .notANode v.kindName := by
  constructor
  · intro he
    cases v with
    | node b =>
      rcases attachable_node_cases f p b with ⟨q, hq, ha⟩ | ⟨hroot, hunder, ha⟩ | ⟨_, _, ha⟩
      · rw [ha] at he
        cases he
        exact Or.inl ⟨b, q, rfl, hq, rfl⟩
      · rw [ha] at he
        cases he
        exact Or.inr (Or.inl ⟨b, rfl, hroot, hunder, rfl⟩)
      · rw [ha] at he
        cases he
    | absent =>
      cases he
      exact Or.inr (Or.inr (Or.inl ⟨rfl, rfl⟩))
    | _ =>
      cases he
      exact Or.inr (Or.inr (Or.inr ⟨fun b hb => (by cases hb), fun hv => (by cases hv), rfl⟩))
  · rintro (⟨b, q, rfl, hq, rfl⟩ | ⟨b, rfl, hroot, hunder, rfl⟩ | ⟨rfl, rfl⟩ | ⟨hnode, hsome, rfl⟩)
    · rw [attachable, hq]
    · rw [attachable, hroot]
      exact if_pos hunder
    · rfl
    · cases v with
      | node b => exact absurd rfl (hnode b)
      | absent => exact absurd rfl hsome
      | _ => rfl

theorem addBranch_eq_error_iff {f : Forest} {p : NodeId} {v : Value} {e : Fault} :
    f.addBranch p v = .error e ↔ f.attachable p v = .error e := by
  rw [addBranch]
  cases f.attachable p v with
  | ok b => exact ⟨fun he => (by cases he), fun he => (by cases he)⟩
  | error x => exact ⟨fun he => (by cases he; rfl), fun he => (by cases he; rfl)⟩

/-- a replacement that has something to do is refused as the attachment would be -/
theorem replaceBranch_eq_error_iff {f : Forest} {p : NodeId} {old new : Value} {e : Fault} :
    f.replaceBranch p old new = .error e ↔
      (∃ b ∈ (f.node p).branches, old = .node b) ∧ new ≠ old ∧ f.addBranch p new = .error e := by
  rw [replaceBranch, addBranch_eq_error_iff]
  cases hb : f.branch? p old with
  | none =>
    constructor
    · intro he
      cases he
    · rintro ⟨⟨b, hmem, rfl⟩, _⟩
      rw [branch?_eq_some_iff.mpr ⟨rfl, hmem⟩] at hb
      cases hb
  | some b =>
    obtain ⟨rfl, hmem⟩ := branch?_eq_some_iff.mp hb
    show (if new = .node b then _ else _ : Except Fault (Change (Option NodeId))) = .error e ↔ _
    by_cases hnew : new = .node b
    · rw [if_pos hnew]
      exact ⟨fun he => (by cases he), fun he => absurd hnew he.2.1⟩
    · rw [if_neg hnew]
      cases ha : f.attachable p new with
      | ok n => exact ⟨fun he => (by cases he), fun he => (by cases he.2.2)⟩
      | error x =>
        constructor
        · intro he
          cases he
          exact ⟨⟨b, hmem, rfl⟩, hnew, rfl⟩
        · rintro ⟨_, _, he⟩
          cases he
          rfl

/-! ## climbing and standing below -/

namespace Linked

variable {f : Forest} (h : f.Linked)
include h

theorem under_eq_iff {p b : NodeId} (hpos : 0 < f.size) :
    f.under (· == b) p = true ↔ p ∈ (f.walk b).map Visit.node := by
  rw [h.under_beq_iff, h.mem_map_walk_iff hpos]

/-- a root has in its subtree what it is the root of -/
theorem mem_walk_of_root_iff {p b : NodeId} (hpos : 0 < f.size) (hroot : (f.node b).parent = none) :
    p ∈ (f.walk b).map Visit.node ↔ f.root p = b := by
  rw [h.mem_map_walk_iff hpos]
  constructor
  · rintro ⟨k, hk⟩
    exact (h.root_eq_of_ancestor? hk hroot).1
  · rintro rfl
    exact ⟨f.depth p, h.ancestor?_depth p⟩

theorem addBranch_ok_iff {p : NodeId} {v : Value} (hpos : 0 < f.size) :
    (∃ c, f.addBranch p v = .ok c) ↔
      ∃ b, v = .node b ∧ (f.node b).parent = none ∧ p ∉ (f.walk b).map Visit.node := by
  constructor
  · rintro ⟨c, hc⟩
    obtain ⟨b, hb, _⟩ := addBranch_eq_ok_iff.mp hc
    obtain ⟨rfl, hroot, hunder⟩ := attachable_eq_ok_iff.mp hb
    refine ⟨b, rfl, hroot, fun hmem => ?_⟩
    rw [(h.under_eq_iff hpos).mpr hmem] at hunder
    cases hunder
  · rintro ⟨b, rfl, hroot, hmem⟩
    have hunder : f.under (· == b) p = false := by
      rw [← Bool.not_eq_true, h.under_eq_iff hpos]
      exact hmem
    exact ⟨_, addBranch_eq_ok_iff.mpr ⟨b, attachable_eq_ok_iff.mpr ⟨rfl, hroot, hunder⟩, rfl⟩⟩

end Linked
end Forest

namespace Session

/-- After every run a branch is accepted exactly if it is a root with the receiver outside its
subtree, and a replacement is refused exactly as the attachment of the new branch would be.  Having
a living parent is the first cause for a refusal of a node; a parent that died is none. -/
theorem Reachable.accepts_exactly {s : Session} (h : s.Reachable) {p : NodeId} (hp : s.Alive p) :
    (∀ v, (∃ c, s.forest.addBranch p v = .ok c) ↔
      ∃ b, v = .node b ∧ (s.forest.node b).parent = none ∧
        p ∉ (s.forest.walk b).map Visit.node) ∧
    (∀ b, (s.forest.node b).parent = none →
      (p ∈ (s.forest.walk b).map Visit.node ↔ s.forest.root p = b)) ∧
    (∀ old new e, s.forest.replaceBranch p old new = .error e ↔
      (∃ b ∈ (s.forest.node p).branches, old = .node b) ∧ new ≠ old ∧
        s.forest.addBranch p new = .error e) ∧
    (∀ v name, s.forest.addBranch p v = .error (.ownSubtree name) ↔
      ∃ b, v = .node b ∧ (s.forest.node b).parent = none ∧ p ∈ (s.forest.walk b).map Visit.node ∧
        name = (s.forest.node b).name) ∧
    (∀ v name parentName, s.forest.addBranch p v = .error (.alreadyAttached name parentName) ↔
      ∃ b q, v = .node b ∧ (s.forest.node b).parent = some q ∧ s.Alive q ∧
        name = (s.forest.node b).name ∧ parentName = (s.forest.node q).name) ∧
    (∀ name, (Fault.ownSubtree name).message =
      some ("\x27" ++ name ++ "\x27 cannot be a branch of its own subtree")) ∧
    (∀ name parentName, (Fault.alreadyAttached name parentName).message =
      some ("\x27" ++ name ++ "\x27 is already a branch of \x27" ++ parentName ++ "\x27")) ∧
    (∀ c done, s.attempt c = .ok done → done.session.forest = s.forest →
      ∀ b q, (s.forest.node b).parent = some q → ¬ (s.step c).2.Alive q →
        ((s.step c).2.forest.node b).parent = none) := by
  have hl := h.linked
  have hpos := h.pos_size_of_alive hp
  refine ⟨fun v => hl.addBranch_ok_iff hpos, fun b hroot => hl.mem_walk_of_root_iff hpos hroot,
    fun old new e => Forest.replaceBranch_eq_error_iff, fun v name => ?_,
    fun v name parentName => ?_, fun _ => rfl, fun _ _ => rfl, fun c done hdone hforest b q hq hdead => ?_⟩
  · rw [Forest.addBranch_eq_error_iff, Forest.attachable_eq_error_iff]
    constructor
    · rintro (⟨b, q, _, _, he⟩ | ⟨b, hv, hroot, hunder, he⟩ | ⟨_, he⟩ | ⟨_, _, he⟩)
      · cases he
      · cases he
        exact ⟨b, hv, hroot, (hl.under_eq_iff hpos).mp hunder, rfl⟩
      · cases he
      · cases he
    · rintro ⟨b, hv, hroot, hmem, rfl⟩
      exact Or.inr (Or.inl ⟨b, hv, hroot, (hl.under_eq_iff hpos).mpr hmem, rfl⟩)
  · rw [Forest.addBranch_eq_error_iff, Forest.attachable_eq_error_iff]
    constructor
    · rintro (⟨b, q, hv, hq, he⟩ | ⟨b, _, _, _, he⟩ | ⟨_, he⟩ | ⟨_, _, he⟩)
      · cases he
        exact ⟨b, q, hv, hq, (h.alive_of_parent hq).2, rfl, rfl⟩
      · cases he
      · cases he
      · cases he
    · rintro ⟨b, q, hv, hq, _, rfl, rfl⟩
      exact Or.inl ⟨b, q, hv, hq, rfl⟩
  · have hwell := h.wellFormed.attempt hdone
    have hstep : (s.step c).2 = done.session.settle := by
      rw [step, hdone]
    rw [hstep] at hdead ⊢
    refine hwell.parent_settle b fun q' hq' hlive => hdead ?_
    rw [hforest, hq] at hq'
    cases hq'
    exact hwell.alive_settle_iff.mpr hlive

/-- The lower of the orphans refuses the root above it, is itself refused because it has a parent,
and has none any more once that parent died. -/
theorem accepts_exactly_orphaned :
    (orphaned.Reachable ∧ orphaned.Alive 2) ∧
      orphaned.forest.addBranch 2 (.node 1) = .error (.ownSubtree "stem") ∧
      orphaned.forest.addBranch 2 (.node 2) = .error (.alreadyAttached "leaf" "stem") ∧
      ((orphaned.step (.drop 1)).2.forest.node 2).parent = none := by
  have hall := Reachable.accepts_exactly reachable_orphaned alive_orphaned.2
  obtain ⟨-, -, -, hown, hattached, -, -, hdied⟩ := hall
  have hheld : (Command.drop 1).nodes.all orphaned.held.has = true := by decide +kernel
  have hdrop : orphaned.attempt (.drop 1) =
      .ok (.silent .nothing { orphaned with held := orphaned.held.set 1 false }) := if_pos hheld
  have hdead : ¬ (orphaned.step (.drop 1)).2.Alive 1 := by
    rw [← (reachable_orphaned.wellFormed.step (.drop 1)).1.has_living_iff]
    decide +kernel
  refine ⟨⟨reachable_orphaned, alive_orphaned.2⟩, (hown _ _).mpr ⟨1, rfl, ?_, ?_, ?_⟩,
    (hattached _ _ _).mpr ⟨2, 1, rfl, ?_, alive_orphaned.1, ?_, ?_⟩,
    hdied _ _ hdrop rfl 2 1 ?_ hdead⟩ <;> decide +kernel

end Session
end Arbor
