import Arbor.Proofs.Frames
import Arbor.Proofs.Paths

/-!
# What survives when references are given up

Nodes die when the last thing that keeps them is given up: a handle is dropped, a label is forgotten
or stands for something else from then on, a walk or an iterator goes on.  What hangs from the dead and
is anchored itself lives on, with its whole subtree and without a parent.

* `Command.letsGo`            the commands that give up references and do nothing else to nodes;
* `Reachable.step_eq_settle`  such a step only lets go of the dead;
* `WellFormed.sameBelow_settle`  the subtrees of survivors are what they were;
* `Reachable.survivors`       who survives, and what became of the survivors.
-/

namespace Arbor

/-- commands that drop a handle, forget a label or save something else under a label, and those that
go on with a walk or an iterator -/
def Command.letsGo : Command → Bool
  | .drop _ | .forget _ | .list _ _ (some _) | .openWalk _ _ | .openIterator _ _ | .next _ _ => true
  | _ => false

theorem Marks.has_of_has_set_false {marks : Marks} {n m : NodeId}
    (h : (marks.set n false).has m = true) : marks.has m = true := by
  have hget : (marks.set n false)[m]? = if n = m then (if n < marks.size then some false else none)
      else marks[m]? := Array.getElem?_setIfInBounds
  rw [has, hget] at h
  split at h
  · split at h <;> cases h
  · exact h

namespace Forest

/-- chains follow parent links and nothing else -/
theorem chain_congr {f g : Forest} {k : Nat} {n : NodeId}
    (h : ∀ i ≤ k, g.ancestor? i n = f.ancestor? i n) : g.chain k n = f.chain k n := by
  have hclimb : g.climb k n = f.climb k n := by
    apply List.ext_getElem?
    intro i
    rw [getElem?_climb, getElem?_climb]
    split
    · exact h i ‹_›
    · rfl
  rw [chain, chain, hclimb]

/-- the dead keep their names, and so do the living -/
theorem name_settle (f : Forest) (living : Marks) (n : NodeId) :
    ((f.settle living).node n).name = (f.node n).name := by
  rw [node_settle]
  split <;> rfl

/-- and both keep their attributes, which can be read as long as a view of them is saved -/
theorem attributes_settle (f : Forest) (living : Marks) (n : NodeId) :
    ((f.settle living).node n).attributes = (f.node n).attributes := by
  rw [node_settle]
  split <;> rfl

end Forest

namespace Session

/-! ## giving up references -/

/-- where all that is anchored was alive before, no dead node comes back -/
theorem alive_of_anchored_alive {s t : Session} (hforest : t.forest = s.forest)
    (hanchored : ∀ a, t.Anchored a → s.Alive a) {n : NodeId} (hn : t.Alive n) : s.Alive n := by
  induction hn with
  | anchored ha => exact hanchored _ ha
  | branch _ hb ih =>
    rw [hforest] at hb
    exact Alive.branch ih hb

namespace WellFormed

variable {s : Session} (h : s.WellFormed)
include h

/-- what is below a living node lives -/
theorem alive_of_ancestor? {k : Nat} {n m : NodeId} (hn : s.Alive n)
    (hk : s.forest.ancestor? k m = some n) : s.Alive m := by
  obtain ⟨j, a, hj, ha⟩ := (alive_iff h.linked).mp hn
  have hup : s.forest.ancestor? (k + j) m = some a := by
    rw [Forest.ancestor?_add, hk]
    exact hj
  exact (alive_iff h.linked).mpr ⟨k + j, a, hup, ha⟩

/-- what a listing of a living node anchors lives already -/
theorem alive_of_mem_listing {n m : NodeId} (hn : s.Alive n) (listing : Listing)
    (hm : m ∈ (Saved.ofListing s.forest n listing).anchors) : s.Alive m := by
  cases listing with
  | branches => exact Alive.branch hn hm
  | enumeration =>
    have hpos : 0 < s.forest.size := Nat.zero_lt_of_lt (h.lt_size_of_alive hn)
    obtain ⟨k, hk⟩ := (h.linked.mem_enumerate_append_self_iff hpos).mp (List.mem_append_left [n] hm)
    exact h.alive_of_ancestor? hn hk
  | attributes => cases hm
  | tags => cases hm

omit h in
theorem alive_of_anchored_save {label : String} {saved : Saved}
    (hsaved : ∀ m ∈ saved.anchors, s.Alive m) {a : NodeId} (ha : (s.save label saved).Anchored a) :
    s.Alive a := by
  rcases ha with ha | ⟨entry, hentry, ha⟩
  · exact Alive.anchored (Or.inl ha)
  · rcases Dictionary.mem_put hentry with rfl | hold
    · exact hsaved a ha
    · exact Alive.anchored (Or.inr ⟨entry, hold, ha⟩)

theorem attempt_of_letsGo {c : Command} (hc : c.letsGo = true) {done : Performed}
    (hdone : s.attempt c = .ok done) :
    done.session.forest = s.forest ∧ ∀ a, done.session.Anchored a → s.Alive a := by
  rw [Session.attempt] at hdone
  split at hdone
  case isFalse => cases hdone
  case isTrue hheld =>
    have hlive : ∀ n ∈ c.nodes, s.Alive n := fun n hn =>
      Alive.anchored (Or.inl (List.all_eq_true.mp hheld n hn))
    cases c with
    | drop n =>
      cases hdone
      refine ⟨rfl, fun a ha => ?_⟩
      rcases ha with ha | ha
      · exact Alive.anchored (Or.inl (Marks.has_of_has_set_false ha))
      · exact Alive.anchored (Or.inr ha)
    | forget label =>
      cases hdone
      refine ⟨rfl, fun a ha => ?_⟩
      rcases ha with ha | ⟨entry, hentry, ha⟩
      · exact Alive.anchored (Or.inl ha)
      · exact Alive.anchored (Or.inr ⟨entry, (List.mem_filter.mp hentry).1, ha⟩)
    | list n listing label =>
      cases label with
      | none => cases hc
      | some label =>
        obtain ⟨answer, _, hsave⟩ := Except.bind_eq_ok_iff.mp hdone
        cases hsave
        exact ⟨rfl, fun a => alive_of_anchored_save fun m =>
          h.alive_of_mem_listing (hlive n List.mem_cons_self) listing⟩
    | openWalk n label =>
      cases hdone
      refine ⟨rfl, fun a => alive_of_anchored_save fun m hm => ?_⟩
      rw [Saved.mem_anchors_start hm]
      exact hlive n List.mem_cons_self
    | openIterator n label =>
      cases hdone
      refine ⟨rfl, fun a => alive_of_anchored_save fun m hm => ?_⟩
      exact Alive.branch (hlive n List.mem_cons_self) hm
    | next label count =>
      obtain ⟨saved, hlookup, hnext⟩ := Except.bind_eq_ok_iff.mp hdone
      obtain ⟨⟨answer, after⟩, hafter, hsave⟩ := Except.bind_eq_ok_iff.mp hnext
      cases hsave
      exact ⟨rfl, fun a => alive_of_anchored_save (alive_of_next hlookup hafter)⟩
    | _ => cases hc

/-! ## survivors of settling -/

theorem content_settle {n : NodeId} (hn : s.Alive n) :
    (s.settle.forest.node n).content = (s.forest.node n).content := by
  have hlive : s.living.has n = true := h.has_living_iff.mpr hn
  show ((s.forest.settle s.living).node n).content = _
  rw [Forest.node_settle, if_pos hlive]
  rfl

theorem sameBelow_settle {n : NodeId} (hn : s.Alive n) :
    Forest.SameBelow s.forest s.settle.forest n :=
  fun _ _ hk => h.content_settle (h.alive_of_ancestor? hn hk)

/-- a survivor keeps its parent exactly if that survives too -/
theorem parent_settle_of_alive {n : NodeId} (hn : s.Alive n) (p : NodeId) :
    (s.settle.forest.node n).parent = some p ↔ (s.forest.node n).parent = some p ∧ s.Alive p := by
  have hlive : s.living.has n = true := h.has_living_iff.mpr hn
  have hnode : (s.settle.forest.node n).parent =
      (s.forest.node n).parent.filter s.living.has := by
    show ((s.forest.settle s.living).node n).parent = _
    rw [Forest.node_settle, if_pos hlive]
  rw [hnode, Option.filter_eq_some_iff, h.has_living_iff]

/-- what lives and hangs from the dead is anchored itself -/
theorem anchored_of_dead_parent {n p : NodeId} (hn : s.Alive n)
    (hp : (s.forest.node n).parent = some p) (hdead : ¬ s.Alive p) : s.Anchored n := by
  cases hn with
  | anchored ha => exact ha
  | branch hq hb =>
    have hparent := (h.linked.mem_branches_iff _ n).mp hb
    rw [hp] at hparent
    cases hparent
    exact absurd hq hdead

/-- the observable state lists the living, found by climbing, and they are what anchors keep -/
theorem mem_state_iff {n : NodeId} : n ∈ s.state.map Prod.fst ↔ s.Alive n := by
  rw [← h.has_living_iff, state, List.map_map]
  have hfst : (Prod.fst ∘ fun n => (n, s.forest.node n)) = (id : NodeId → NodeId) := rfl
  rw [hfst, List.map_id, List.mem_filter, List.mem_range]
  constructor
  · rintro ⟨_, hlive⟩
    exact hlive
  · intro hlive
    exact ⟨h.lt_size_of_alive (h.has_living_iff.mp hlive), hlive⟩

end WellFormed

namespace Reachable

/-- a step that gives up references settles the same forest with fewer anchors -/
theorem step_eq_settle {s : Session} (h : s.Reachable) {c : Command} (hc : c.letsGo = true) :
    ∃ t : Session, t.WellFormed ∧ t.forest = s.forest ∧ (∀ n, t.Alive n → s.Alive n) ∧
      (s.step c).2 = t.settle := by
  rw [step]
  cases hdone : s.attempt c with
  | error e => exact ⟨s, h.wellFormed, rfl, fun n hn => hn, rfl⟩
  | ok done =>
    obtain ⟨hforest, hanchored⟩ := h.wellFormed.attempt_of_letsGo hc hdone
    exact ⟨done.session, h.wellFormed.attempt hdone, hforest,
      fun n => alive_of_anchored_alive hforest hanchored, rfl⟩

/-- the way up from a survivor is cut below the first of the dead -/
theorem chain_of_step {s : Session} (h : s.Reachable) {c : Command} (hc : c.letsGo = true)
    {n : NodeId} (hn : (s.step c).2.Alive n) :
    ∃ k top, s.forest.ancestor? k n = some top ∧
      (∀ i a, i ≤ k → s.forest.ancestor? i n = some a → (s.step c).2.Alive a) ∧
      (∀ p, (s.forest.node top).parent = some p → ¬ (s.step c).2.Alive p) ∧
      (s.step c).2.forest.root n = top ∧ (s.step c).2.forest.depth n = k ∧
      (s.step c).2.forest.path n =
        Path.join ((s.forest.chain k n).map fun x => (s.forest.node x).name) := by
  obtain ⟨t, ht, hforest, _, hstep⟩ := h.step_eq_settle hc
  have hafter := h.after_step c
  rw [hstep] at hn hafter ⊢
  rw [← hforest]
  have hl : t.settle.forest.Linked := hafter.linked
  have hup : ∀ {i a}, t.settle.forest.ancestor? i n = some a → t.forest.ancestor? i n = some a :=
    Forest.ancestor?_of_parent_le fun b p hp => (Forest.parent_of_settle hp).1
  have htop := hl.ancestor?_depth n
  have hlive : t.settle.Alive (t.settle.forest.root n) := (hafter.alive_iff_of_ancestor? htop).mp hn
  -- the first links of both ways up are the same
  have hboth : ∀ i a, i ≤ t.settle.forest.depth n → t.forest.ancestor? i n = some a →
      t.settle.forest.ancestor? i n = some a := by
    intro i a hi ha
    obtain ⟨b, hb, _⟩ := Forest.exists_ancestor?_of_le hi htop
    rw [hb, ← ha, hup hb]
  refine ⟨t.settle.forest.depth n, t.settle.forest.root n, hup htop, fun i a hi ha => ?_,
    fun p hp hpa => ?_, rfl, rfl, ?_⟩
  · exact (hafter.alive_iff_of_ancestor? (hboth i a hi ha)).mp hn
  · have hlink := (ht.parent_settle_of_alive (ht.alive_settle_iff.mp hlive) p).mpr
      ⟨hp, ht.alive_settle_iff.mp hpa⟩
    rw [hl.parent_root] at hlink
    cases hlink
  · have hchain : t.settle.forest.chain (t.settle.forest.depth n) n =
        t.forest.chain (t.settle.forest.depth n) n :=
      Forest.chain_congr fun i hi => by
        obtain ⟨b, hb, _⟩ := Forest.exists_ancestor?_of_le hi htop
        rw [hb, hup hb]
    rw [hl.path_eq_join_chain, hchain]
    congr 1
    exact List.map_congr_left fun x _ => Forest.name_settle t.forest t.living x

/-- After a step that only gives up references the living nodes are those that anchors keep by
branches.  A survivor is the node it was, with the subtree it had, and so it answers as before; only
a parent that died is its parent no longer, and then it is anchored itself.  Its way up ends at the
topmost node that survived on the unbroken chain above it. -/
theorem survivors {s : Session} (h : s.Reachable) {c : Command} (hc : c.letsGo = true) :
    (∀ n, n ∈ (s.step c).2.state.map Prod.fst ↔ (s.step c).2.Alive n) ∧
    ∀ n, (s.step c).2.Alive n →
      s.Alive n ∧
      ((s.step c).2.forest.node n).name = (s.forest.node n).name ∧
      ((s.step c).2.forest.node n).branches = (s.forest.node n).branches ∧
      ((s.step c).2.forest.node n).attributes = (s.forest.node n).attributes ∧
      ((s.step c).2.forest.node n).tags = (s.forest.node n).tags ∧
      (∀ p, ((s.step c).2.forest.node n).parent = some p ↔
        (s.forest.node n).parent = some p ∧ (s.step c).2.Alive p) ∧
      (∀ p, (s.forest.node n).parent = some p → ¬ (s.step c).2.Alive p →
        (s.step c).2.Anchored n) ∧
      (s.step c).2.forest.count n = s.forest.count n ∧
      (s.step c).2.forest.enumerate n = s.forest.enumerate n ∧
      (s.step c).2.forest.walk n = s.forest.walk n ∧
      (∀ path, (s.step c).2.forest.find n path = s.forest.find n path) ∧
      (∀ coloured indent,
        (s.step c).2.forest.dump coloured indent n = s.forest.dump coloured indent n) ∧
      ∃ k top, s.forest.ancestor? k n = some top ∧
        (∀ i a, i ≤ k → s.forest.ancestor? i n = some a → (s.step c).2.Alive a) ∧
        (∀ p, (s.forest.node top).parent = some p → ¬ (s.step c).2.Alive p) ∧
        (s.step c).2.forest.root n = top ∧ (s.step c).2.forest.depth n = k ∧
        (s.step c).2.forest.path n =
          Path.join ((s.forest.chain k n).map fun x => (s.forest.node x).name) := by
  refine ⟨fun n => (h.after_step c).wellFormed.mem_state_iff, fun n hn => ?_⟩
  have hchain := h.chain_of_step hc hn
  obtain ⟨t, ht, hforest, hback, hstep⟩ := h.step_eq_settle hc
  rw [hstep] at hn hchain ⊢
  rw [← hforest] at hchain ⊢
  have hlive : t.Alive n := ht.alive_settle_iff.mp hn
  have hbelow := ht.sameBelow_settle hlive
  obtain ⟨hname, hbranches, hattributes, htags⟩ := Node.content_eq_iff.mp (ht.content_settle hlive)
  have hl := ht.linked
  have hs := ht.settle.linked
  have hsize : t.settle.forest.size = t.forest.size := Forest.size_settle t.forest t.living
  have hpos : 0 < t.forest.size := Nat.zero_lt_of_lt (ht.lt_size_of_alive hlive)
  refine ⟨hback n hlive, hname, hbranches, hattributes, htags, fun p => ?_, fun p hp hdead => ?_,
    hbelow.count_eq hl hs hsize hpos, hbelow.enumerate_eq hl hs hsize hpos,
    hbelow.walk_eq hl hs hsize hpos, hbelow.find_eq hl, hbelow.dump_eq hl hs hsize hpos, hchain⟩
  · rw [ht.parent_settle_of_alive hlive, ht.alive_settle_iff]
  · exact ht.anchored_of_dead_parent hlive hp fun hpa => hdead (ht.alive_settle_iff.mpr hpa)

end Reachable

/-- A chain of four nodes, of which the lowest is in a saved list and the third is held; nothing but
its handle keeps the uppermost. -/
def severed : Session :=
  (start.run [.create "root", .create "stem", .create "leaf", .create "bud",
    .edit (.add 0 (.node 1)), .edit (.add 1 (.node 2)), .edit (.add 2 (.node 3)),
    .list 2 .branches (some "kept"), .drop 1, .drop 3]).2

theorem reachable_severed : severed.Reachable := ⟨_, rfl⟩

/-- When the uppermost goes, the second goes with it; the third is a root then, and the lowest is
found one step below it as before. -/
theorem survivors_severed :
    (severed.Reachable ∧ (Command.drop 0).letsGo = true ∧ (severed.step (.drop 0)).2.Alive 2 ∧
        ¬ (severed.step (.drop 0)).2.Alive 1) ∧
      ((severed.step (.drop 0)).2.forest.node 2).parent = none ∧
      ((severed.step (.drop 0)).2.forest.node 2).branches = [3] ∧
      (severed.step (.drop 0)).2.Anchored 2 ∧
      (severed.step (.drop 0)).2.forest.find 2 "leaf/bud" = some 3 ∧
      (severed.step (.drop 0)).2.forest.dump false "  " 2 = severed.forest.dump false "  " 2 := by
  have hall := Reachable.survivors reachable_severed (c := .drop 0) rfl
  have hlive : (severed.step (.drop 0)).2.Alive 2 := (hall.1 2).mp (by decide +kernel)
  have hdead : ¬ (severed.step (.drop 0)).2.Alive 1 := fun h1 => by
    have hstate := (hall.1 1).mpr h1
    revert hstate
    decide +kernel
  obtain ⟨-, -, hbranches, -, -, hparent, hanchored, -, -, -, hfind, hdump, -⟩ := hall.2 2 hlive
  have hup : (severed.forest.node 2).parent = some 1 := by decide +kernel
  refine ⟨⟨reachable_severed, rfl, hlive, hdead⟩, ?_, ?_, hanchored 1 hup hdead, ?_, hdump _ _⟩
  · cases hp : ((severed.step (.drop 0)).2.forest.node 2).parent with
    | none => rfl
    | some p =>
      obtain ⟨hold, hpa⟩ := (hparent p).mp hp
      rw [hup] at hold
      cases hold
      exact absurd hpa hdead
  · rw [hbranches]
    decide +kernel
  · rw [hfind]
    decide +kernel

/-- a root with a leaf, and a walk of the root of which no item has been asked for -/
def strolled : Session :=
  (start.run [.create "root", .create "leaf", .edit (.add 0 (.node 1)), .openWalk 0 "walk"]).2

theorem reachable_strolled : strolled.Reachable := ⟨_, rfl⟩

/-- When the handle of the root is dropped the root stays, although it is not below any node that is
held or listed: the walk refers to it.  So it is the parent of the leaf as before, and dies when the
walk has ended. -/
theorem strolled_root_survives :
    (strolled.Reachable ∧ (Command.drop 0).letsGo = true) ∧
      0 ∈ (strolled.step (.drop 0)).2.state.map Prod.fst ∧
      (∀ a, ((strolled.step (.drop 0)).2.held.has a = true ∨
          ∃ entry ∈ (strolled.step (.drop 0)).2.saved, ∃ ns, entry.2 = .nodes ns ∧ a ∈ ns) →
        ∀ k, (strolled.step (.drop 0)).2.forest.ancestor? k 0 ≠ some a) ∧
      ((strolled.step (.drop 0)).2.forest.node 1).parent = some 0 ∧
      ((strolled.run [.drop 0, .next "walk" 3]).2.forest.node 1).parent = none := by
  have hroot : ((strolled.step (.drop 0)).2.forest.node 0).parent = none := by decide +kernel
  have hdropped : (strolled.step (.drop 0)).2.held.has 0 = false := by decide +kernel
  have hsaved : (strolled.step (.drop 0)).2.saved = [("walk", .walk 0 (.start 0))] := by
    decide +kernel
  refine ⟨⟨reachable_strolled, rfl⟩, by decide +kernel, fun a ha k hk => ?_, by decide +kernel,
    by decide +kernel⟩
  -- nothing is above the root, so it would have to be held or listed itself
  cases k with
  | succ k =>
    obtain ⟨p, hp, _⟩ := Forest.exists_parent_of_ancestor?_succ hk
    rw [hroot] at hp
    cases hp
  | zero =>
    cases hk
    rcases ha with ha | ⟨entry, hentry, ns, hns, _⟩
    · rw [hdropped] at ha
      cases ha
    · rw [hsaved, List.mem_singleton] at hentry
      rw [hentry] at hns
      cases hns

end Session
end Arbor
