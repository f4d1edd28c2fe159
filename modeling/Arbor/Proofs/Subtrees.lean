import Arbor.Proofs.Sessions
import Mathlib.Algebra.BigOperators.Group.Finset.Basic

/-!
# Subtrees from above and from below

Walks and counts read the branches and nothing else, roots and depths read the parents and nothing
else.  In a linked forest they describe the same subtrees, and every node is in one tree only.

* `Forest.subtree`                    the nodes that a walk meets;
* `Linked.filter_walk_eq_singleton`  where a walk meets a node, and that it does so once;
* `Linked.sum_count_eq_card`         the trees of a set of nodes share no node and leave out none;
* `Reachable.walk_agrees_with_parents`  both after every run.
-/

namespace Arbor

/-- the nodes that a walk meets -/
def Forest.subtree (f : Forest) (n : NodeId) : Finset NodeId := ((f.walk n).map Visit.node).toFinset

namespace Forest.Linked

variable {f : Forest} (h : f.Linked)
include h

theorem filter_walk_eq_singleton (hpos : 0 < f.size) {n m : NodeId} {d : Nat}
    (hd : f.ancestor? d m = some n) : (f.walk n).filter (fun v => v.node = m) = [⟨d, m⟩] := by
  have hmem : (⟨d, m⟩ : Visit) ∈ f.walk n := (h.mem_walk_iff hpos).mpr hd
  obtain ⟨before, after, hsplit⟩ := List.append_of_mem hmem
  have hnodup := h.nodup_map_walk hpos n
  rw [hsplit, List.map_append, List.map_cons, List.nodup_middle, List.nodup_cons, List.mem_append]
    at hnodup
  have hnone : ∀ vs : List Visit, m ∉ vs.map Visit.node →
      vs.filter (fun v => v.node = m) = [] := by
    intro vs hm
    refine List.filter_eq_nil_iff.mpr fun v hv hvm => hm ?_
    rw [← of_decide_eq_true hvm]
    exact List.mem_map_of_mem hv
  have hself : ((⟨d, m⟩ : Visit) :: after).filter (fun v => v.node = m) =
      ⟨d, m⟩ :: after.filter (fun v => v.node = m) := List.filter_cons_of_pos (decide_eq_true rfl)
  rw [hsplit, List.filter_append, hself,
    hnone before fun hm => hnodup.1 (Or.inl hm), hnone after fun hm => hnodup.1 (Or.inr hm)]
  rfl

theorem mem_subtree_iff (hpos : 0 < f.size) {n m : NodeId} :
    m ∈ f.subtree n ↔ ∃ k, f.ancestor? k m = some n := by
  rw [subtree, List.mem_toFinset, h.mem_map_walk_iff hpos]

theorem card_subtree (hpos : 0 < f.size) (n : NodeId) : (f.subtree n).card = f.count n := by
  rw [subtree, List.toFinset_card_of_nodup (h.nodup_map_walk hpos n), List.length_map,
    h.count_eq_length_walk hpos]

/-- Each node of a set that is closed under parent links both ways is counted at its root. -/
theorem sum_count_eq_card (alive : Finset NodeId) (hsize : ∀ n ∈ alive, n < f.size)
    (hclosed : ∀ k m a, f.ancestor? k m = some a → (m ∈ alive ↔ a ∈ alive)) :
    ∑ r ∈ alive with (f.node r).parent = none, f.count r = alive.card := by
  have hpos : ∀ r ∈ alive, 0 < f.size := fun r hr => Nat.zero_lt_of_lt (hsize r hr)
  have hunion : (alive.filter fun r => (f.node r).parent = none).biUnion f.subtree = alive := by
    ext m
    rw [Finset.mem_biUnion]
    constructor
    · rintro ⟨r, hr, hm⟩
      obtain ⟨hr, _⟩ := Finset.mem_filter.mp hr
      obtain ⟨k, hk⟩ := (h.mem_subtree_iff (hpos r hr)).mp hm
      exact (hclosed k m r hk).mpr hr
    · intro hm
      have hroot := h.ancestor?_depth m
      have hr := (hclosed _ m _ hroot).mp hm
      exact ⟨f.root m, Finset.mem_filter.mpr ⟨hr, h.parent_root m⟩,
        (h.mem_subtree_iff (hpos m hm)).mpr ⟨_, hroot⟩⟩
  have hdisjoint : ((alive.filter fun r => (f.node r).parent = none : Finset NodeId) :
      Set NodeId).PairwiseDisjoint f.subtree := by
    intro r hr r' hr' hne
    obtain ⟨hr, hrp⟩ := Finset.mem_filter.mp hr
    obtain ⟨hr', hrp'⟩ := Finset.mem_filter.mp hr'
    refine Finset.disjoint_left.mpr fun m hm hm' => hne ?_
    obtain ⟨k, hk⟩ := (h.mem_subtree_iff (hpos r hr)).mp hm
    obtain ⟨k', hk'⟩ := (h.mem_subtree_iff (hpos r' hr')).mp hm'
    rw [← (h.root_eq_of_ancestor? hk hrp).1, (h.root_eq_of_ancestor? hk' hrp').1]
  calc ∑ r ∈ alive with (f.node r).parent = none, f.count r
      = ∑ r ∈ alive with (f.node r).parent = none, (f.subtree r).card :=
        Finset.sum_congr rfl fun r hr =>
          (h.card_subtree (hpos r (Finset.mem_filter.mp hr).1) r).symm
    _ = ((alive.filter fun r => (f.node r).parent = none).biUnion f.subtree).card :=
        (Finset.card_biUnion hdisjoint).symm
    _ = alive.card := by rw [hunion]

end Forest.Linked

namespace Session

/-- After every run a walk of a living node meets the living nodes that as many parent links lead
back from as the depth says, each once; every living node is met once on the walk of its root; and
the counts of the living roots add up to the number of living nodes. -/
theorem Reachable.walk_agrees_with_parents {s : Session} (h : s.Reachable) :
    (∀ n m d, s.Alive n →
        ((⟨d, m⟩ : Visit) ∈ s.forest.walk n ↔ s.forest.ancestor? d m = some n)) ∧
      (∀ n, s.Alive n → ((s.forest.walk n).map Visit.node).Nodup) ∧
      (∀ m, s.Alive m → (s.forest.walk (s.forest.root m)).filter (fun v => v.node = m) =
        [⟨s.forest.depth m, m⟩]) ∧
      ∃ alive : Finset NodeId, (∀ n, n ∈ alive ↔ s.Alive n) ∧
        ∑ r ∈ alive with (s.forest.node r).parent = none, s.forest.count r = alive.card := by
  have hl := h.linked
  refine ⟨fun n m d hn => hl.mem_walk_iff (h.pos_size_of_alive hn),
    fun n hn => hl.nodup_map_walk (h.pos_size_of_alive hn) n, fun m hm => ?_, ?_⟩
  · have hroot := hl.ancestor?_depth m
    exact hl.filter_walk_eq_singleton (h.pos_size_of_alive hm) hroot
  · classical
    have hmem : ∀ n, n ∈ (Finset.range s.forest.size).filter s.Alive ↔ s.Alive n := fun n => by
      rw [Finset.mem_filter, Finset.mem_range]
      exact ⟨fun hn => hn.2, fun hn => ⟨h.lt_size_of_alive hn, hn⟩⟩
    refine ⟨_, hmem, hl.sum_count_eq_card _ (fun n hn => h.lt_size_of_alive ((hmem n).mp hn)) ?_⟩
    intro k m a ha
    rw [hmem, hmem]
    exact h.alive_iff_of_ancestor? ha

/-- the orphaned node is a root now, and its walk meets both nodes -/
theorem walk_agrees_with_parents_orphaned :
    (orphaned.Reachable ∧ orphaned.Alive 1 ∧ orphaned.Alive 2) ∧
      ((⟨1, 2⟩ : Visit) ∈ orphaned.forest.walk 1 ↔ orphaned.forest.ancestor? 1 2 = some 1) ∧
      ((orphaned.forest.walk 1).map Visit.node).Nodup ∧
      (orphaned.forest.walk (orphaned.forest.root 2)).filter (fun v => v.node = 2) =
        [⟨orphaned.forest.depth 2, 2⟩] ∧
      ∃ alive : Finset NodeId, (∀ n, n ∈ alive ↔ orphaned.Alive n) ∧
        ∑ r ∈ alive with (orphaned.forest.node r).parent = none, orphaned.forest.count r =
          alive.card :=
  have hall := Reachable.walk_agrees_with_parents reachable_orphaned
  ⟨⟨reachable_orphaned, alive_orphaned⟩, hall.1 1 2 1 alive_orphaned.1,
    hall.2.1 1 alive_orphaned.1, hall.2.2.1 2 alive_orphaned.2, hall.2.2.2⟩

end Session
end Arbor
