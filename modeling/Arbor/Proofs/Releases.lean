import Arbor.Proofs.Acceptance
import Arbor.Proofs.Recursions

/-!
# What a destruction releases

A destruction lists the subtree, parts its top from the parent and then takes everything but their
names from the listed nodes.  No way up from another node leads through the subtree, so all others
keep what they have, and they keep their lives.

* `Linked.ancestor?_destroy`        ways up outside the subtree stay;
* `Session.destruction`             destroying a node and letting go of what dies of it;
* `Reachable.destroy_releases`      the reply and every node afterwards, after every run.
-/

namespace Arbor
namespace Forest.Linked

variable {f : Forest} (h : f.Linked)
include h

theorem node_destroy_of_not_below {n m : NodeId} (hn : n < f.size)
    (hout : ∀ j, f.ancestor? j m ≠ some n) : (f.destroy n).forest.node m =
      { f.node m with branches := (f.node m).branches.erase n } :=
  ((h.node_destroy hn m).resolve_left fun ⟨⟨j, hj⟩, _⟩ => hout j hj).2

theorem ancestor?_destroy {n m : NodeId} (hn : n < f.size) (hout : ∀ j, f.ancestor? j m ≠ some n)
    (k : Nat) : (f.destroy n).forest.ancestor? k m = f.ancestor? k m :=
  ancestor?_eq_of_not_below (fun m hm => by rw [h.node_destroy_of_not_below hn hm]) hout k

/-- a node without links goes below any other node -/
theorem addBranch_ok_iff_of_bare {p b : NodeId} (hpos : 0 < f.size)
    (hroot : (f.node b).parent = none) (hbare : (f.node b).branches = []) :
    (∃ c, f.addBranch p (.node b) = .ok c) ↔ p ≠ b := by
  have hwalk : (f.walk b).map Visit.node = [b] := by
    rw [h.walk_eq hpos, hbare]
    rfl
  rw [h.addBranch_ok_iff hpos]
  constructor
  · rintro ⟨c, hc, -, hout⟩ rfl
    cases hc
    rw [hwalk] at hout
    exact hout List.mem_cons_self
  · intro hne
    refine ⟨b, rfl, hroot, ?_⟩
    rw [hwalk]
    exact fun hp => hne (List.mem_singleton.mp hp)

end Forest.Linked

namespace Session

/-- the session when a node was destroyed, before it lets go of what dies of it -/
def destroyed (s : Session) (n : NodeId) : Session :=
  { s with forest := (s.forest.destroy n).forest }

/-- the reply to a destruction and the session afterwards, whether the node is held or not -/
def destruction (s : Session) (n : NodeId) : Reply × Session :=
  let change := (s.forest.destroy n).map Answer.number
  (⟨.ok change.result, (s.adopt change).log⟩, (s.destroyed n).settle)

theorem step_destroy {s : Session} {n : NodeId} (hheld : s.held.has n = true) :
    s.step (.edit (.destroy n)) = s.destruction n :=
  step_edit (fun _ hm => List.mem_singleton.mp hm ▸ hheld) rfl

namespace Reachable

variable {s : Session} (h : s.Reachable) {n : NodeId} (hn : s.Alive n)
include h hn

theorem wellFormed_destroyed : (s.destroyed n).WellFormed := by
  have hsize := h.lt_size_of_alive hn
  exact h.wellFormed.perform (c := .edit (.destroy n))
    (fun m hm => List.mem_singleton.mp hm ▸ hsize) rfl

/-! ## the nodes of the subtree -/

section
variable {m : NodeId} (hm : ∃ k, s.forest.ancestor? k m = some n)
include hm

theorem node_destroyed_of_below :
    (s.destroyed n).forest.node m = (s.forest.node m).released :=
  ((h.linked.node_destroy (h.lt_size_of_alive hn) m).resolve_right fun ⟨hout, _⟩ =>
    hm.elim hout).2

theorem node_settle_destroyed_of_below :
    (s.destroyed n).settle.forest.node m = (s.forest.node m).released := by
  show ((s.destroyed n).forest.settle _).node m = _
  rw [Forest.node_settle, h.node_destroyed_of_below hn hm]
  split <;> rfl

/-- a released node lives on if something other than its parent keeps it -/
theorem alive_destroyed_of_below : (s.destroyed n).Alive m ↔ s.Anchored m := by
  rw [alive_iff (h.wellFormed_destroyed hn).linked]
  constructor
  · rintro ⟨k, a, hk, ha⟩
    cases k with
    | zero =>
      cases hk
      exact ha
    | succ k =>
      obtain ⟨p, hp, _⟩ := Forest.exists_parent_of_ancestor?_succ hk
      rw [h.node_destroyed_of_below hn hm] at hp
      cases hp
  · intro ha
    exact ⟨0, m, rfl, ha⟩

end

/-! ## the other nodes -/

section
variable {m : NodeId} (hm : ∀ k, s.forest.ancestor? k m ≠ some n)
include hm

theorem node_destroyed_of_not_below : (s.destroyed n).forest.node m =
    { s.forest.node m with branches := (s.forest.node m).branches.erase n } :=
  h.linked.node_destroy_of_not_below (h.lt_size_of_alive hn) hm

theorem alive_destroyed_of_not_below : (s.destroyed n).Alive m ↔ s.Alive m := by
  rw [alive_iff (h.wellFormed_destroyed hn).linked, alive_iff h.linked]
  refine exists_congr fun k => exists_congr fun a => and_congr_left' ?_
  rw [← h.linked.ancestor?_destroy (h.lt_size_of_alive hn) hm k]
  rfl

theorem node_settle_destroyed_of_not_below : (s.destroyed n).settle.forest.node m =
    { s.forest.node m with branches := (s.forest.node m).branches.erase n } := by
  have hwell := h.wellFormed_destroyed hn
  show ((s.destroyed n).forest.settle (s.destroyed n).living).node m = _
  rw [Forest.node_settle]
  by_cases hlive : s.Alive m
  · have hmark := hwell.has_living_iff.mpr ((h.alive_destroyed_of_not_below hn hm).mpr hlive)
    -- its parent stands outside the subtree as well, and so it lives on too
    have hparent : (s.forest.node m).parent.filter (s.destroyed n).living.has =
        (s.forest.node m).parent := by
      cases hp : (s.forest.node m).parent with
      | none => rfl
      | some p =>
        have hout : ∀ k, s.forest.ancestor? k p ≠ some n := fun k hk =>
          hm (k + 1) (by rwa [Forest.ancestor?_succ_of_parent hp])
        have hp' := (h.alive_destroyed_of_not_below hn hout).mpr (h.alive_of_parent hp).2
        rw [Option.filter_some, if_pos (hwell.has_living_iff.mpr hp')]
    rw [if_pos hmark, h.node_destroyed_of_not_below hn hm]
    show Node.mk _ ((s.forest.node m).parent.filter _) _ _ _ = _
    rw [hparent]
  · have hmark : ¬ (s.destroyed n).living.has m = true := fun hmark =>
      hlive ((h.alive_destroyed_of_not_below hn hm).mp (hwell.has_living_iff.mp hmark))
    rw [if_neg hmark, h.node_destroyed_of_not_below hn hm, h.remains_of_dead hlive]
    rfl

end

/-! ## the reply -/

theorem reply_destruction :
    (s.destruction n).1 = ⟨.ok (.number (s.forest.count n)),
      s.thresholds.record .core debugLevel fun _ =>
        "destroy: released " ++ naturalText (s.forest.count n) ++ " nodes under \x27" ++
          (s.forest.node n).name ++ "\x27"⟩ := by
  have hl := h.linked
  have hpos := h.pos_size_of_alive hn
  have hnumber : (s.forest.enumerate n).length + 1 = s.forest.count n := by
    rw [hl.count_eq_length_walk hpos, hl.length_walk hpos]
  have hname : ((s.forest.destroy n).forest.node n).name = (s.forest.node n).name := by
    show ((s.destroyed n).forest.node n).name = _
    rw [h.node_destroyed_of_below hn ⟨0, rfl⟩]
    rfl
  have hchange : (s.forest.destroy n).map Answer.number = _ := Except.ok.inj (hl.edit_destroy n)
  show Reply.mk (.ok ((s.forest.destroy n).map Answer.number).result)
    (s.adopt ((s.forest.destroy n).map Answer.number)).log = _
  rw [hchange, hnumber, ← hname]
  exact congrArg (Reply.mk _) (List.flatMap_singleton _ _)

end Reachable

/-- Destroying a living node answers the number of nodes in its subtree and logs that number and
nothing else.  The nodes of the subtree keep their names only, and the former parent lists its other
branches as before; all other nodes stay as they are, and so do the lives outside the subtree.  A
released node that something else keeps can be put below any other node again. -/
theorem Reachable.destroy_releases {s : Session} (h : s.Reachable) {n : NodeId} (hn : s.Alive n) :
    ∃ after, s.destruction n =
        (⟨.ok (.number (s.forest.count n)),
          if s.thresholds.core ≤ 10 then
            [⟨.core, 10, "destroy: released " ++ naturalText (s.forest.count n) ++
              " nodes under \x27" ++ (s.forest.node n).name ++ "\x27"⟩]
          else []⟩, after) ∧
      (s.held.has n = true → s.step (.edit (.destroy n)) = s.destruction n) ∧
      (∀ m, (∃ k, s.forest.ancestor? k m = some n) →
        after.forest.node m = ⟨(s.forest.node m).name, none, [], [], []⟩ ∧
        (after.Alive m ↔ s.Anchored m)) ∧
      (∀ p, (s.forest.node n).parent = some p →
        after.forest.node p = { s.forest.node p with
          branches := (s.forest.node p).branches.filter (· ≠ n) }) ∧
      (∀ m, (∀ k, s.forest.ancestor? k m ≠ some n) →
        (after.Alive m ↔ s.Alive m) ∧
        ((s.forest.node n).parent ≠ some m → after.forest.node m = s.forest.node m)) ∧
      ∀ m p, (∃ k, s.forest.ancestor? k m = some n) → after.Alive m → after.Alive p →
        ((∃ c, after.forest.addBranch p (.node m) = .ok c) ↔ p ≠ m) := by
  have hl := h.linked
  have hwell := h.wellFormed_destroyed hn
  have hreply : s.destruction n = ((s.destruction n).1, (s.destroyed n).settle) := rfl
  refine ⟨(s.destroyed n).settle, ?_, step_destroy, fun m hm => ?_, fun p hp => ?_, fun m hm => ?_,
    fun m p hm _ hp => ?_⟩
  · rw [hreply, h.reply_destruction hn]
    rfl
  · rw [hwell.alive_settle_iff]
    exact ⟨h.node_settle_destroyed_of_below hn hm, h.alive_destroyed_of_below hn hm⟩
  · have hout := hl.ancestor?_ne_of_parent hp
    have hfilter : (s.forest.node p).branches.erase n = (s.forest.node p).branches.filter (· ≠ n) := by
      rw [(hl.nodup_branches p).erase_eq_filter]
      exact List.filter_congr fun b _ => by rw [Bool.eq_iff_iff, bne_iff_ne, decide_eq_true_iff]
    rw [h.node_settle_destroyed_of_not_below hn hout, hfilter]
  · refine ⟨hwell.alive_settle_iff.trans (h.alive_destroyed_of_not_below hn hm), fun hp => ?_⟩
    have hother : n ∉ (s.forest.node m).branches := fun hb =>
      hp ((hl.mem_branches_iff m n).mp hb)
    rw [h.node_settle_destroyed_of_not_below hn hm, List.erase_of_not_mem hother]
  · have hnode := h.node_settle_destroyed_of_below hn hm
    have hpos := Nat.zero_lt_of_lt (hwell.settle.lt_size_of_alive hp)
    exact hwell.settle.linked.addBranch_ok_iff_of_bare hpos (by rw [hnode]; rfl) (by rw [hnode]; rfl)

/-- a garden with two beds, the first of which has a herb that is held and one that is not -/
def border : Session :=
  (start.run [.create "garden", .fan 0 "bed" 2, .fan 1 "herb" 2,
    .edit (.setAttribute 1 "soil" (.text "sand")), .edit (.tag 3 "mint"), .drop 4]).2

theorem reachable_border : border.Reachable := ⟨_, rfl⟩

/-- With the first bed the herb dies that is not held; the other herb can go to the other bed. -/
theorem destroy_releases_border :
    (border.Reachable ∧ border.Alive 1) ∧
      ∃ after, border.step (.edit (.destroy 1)) =
          (⟨.ok (.number 3), [⟨.core, 10, "destroy: released 3 nodes under \x27bed0\x27"⟩]⟩, after) ∧
        after.forest.node 0 = ⟨"garden", none, [2], [], []⟩ ∧
        after.forest.node 1 = ⟨"bed0", none, [], [], []⟩ ∧
        after.forest.node 2 = border.forest.node 2 ∧
        after.Alive 3 ∧ ¬ after.Alive 4 ∧
        ∃ c, after.forest.addBranch 2 (.node 3) = .ok c := by
  have hlive : border.Alive 1 := .anchored (.inl (by decide +kernel))
  have hwalk : (border.forest.walk 1).map Visit.node = [1, 3, 4] := by decide +kernel
  have hmeets : ∀ m, m ∈ [1, 3, 4] ↔ ∃ k, border.forest.ancestor? k m = some 1 := fun m => by
    rw [← hwalk]
    exact reachable_border.linked.mem_map_walk_iff (by decide +kernel)
  obtain ⟨after, hreply, hstep, hbelow, hparent, hother, hattach⟩ :=
    Reachable.destroy_releases reachable_border hlive
  have hcount : border.forest.count 1 = 3 := by decide +kernel
  have hname : (border.forest.node 1).name = "bed0" := by decide +kernel
  have hgarden : border.forest.node 0 = ⟨"garden", none, [1, 2], [], []⟩ := by decide +kernel
  have hbed : ∀ k, border.forest.ancestor? k 2 ≠ some 1 := fun k hk =>
    absurd ((hmeets 2).mpr ⟨k, hk⟩) (by decide)
  obtain ⟨hkept, hsame⟩ := hother 2 hbed
  obtain ⟨-, hherb⟩ := hbelow 3 ((hmeets 3).mp (by decide))
  replace hherb : after.Alive 3 := hherb.mpr (.inl (by decide +kernel))
  have hdead : ¬ border.Anchored 4 := by
    rw [← reachable_border.wellFormed.has_anchored_iff]
    decide +kernel
  refine ⟨⟨reachable_border, hlive⟩, after, ?_, ?_, ?_, hsame (by decide +kernel), hherb,
    fun h4 => hdead ((hbelow 4 ((hmeets 4).mp (by decide))).2.mp h4), ?_⟩
  · rw [hstep (by decide +kernel), hreply, hcount, hname]
    rfl
  · rw [hparent 0 (by decide +kernel), hgarden]
    rfl
  · rw [(hbelow 1 ((hmeets 1).mp (by decide))).1, hname]
  · have hplace : after.Alive 2 := hkept.mpr (.anchored (.inl (by decide +kernel)))
    exact (hattach 3 2 ((hmeets 3).mp (by decide)) hherb hplace).mpr (by decide)

end Session
end Arbor
