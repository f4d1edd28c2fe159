import Arbor.Proofs.Interleavings
import Mathlib.Data.List.Flatten

/-!
# Walks through a forest that is pruned

While branches are only taken away, a walk meets less and less of what it would have met when it was
opened, and nothing else.

* `Forest.PrunedFrom`       every node has some of the branches that it had, in their order;
* `Walk.follow_sublist`     a walk through pruned forests leaves out visits and adds none;
* `Command.attaches`        the commands that attach nodes;
* `WellFormed.prunedFrom_step`  every other command prunes at most;
* `Reachable.pruned_walk_lists_sublist`  which nodes a walk still lists.
-/

namespace Arbor
namespace Forest

/-! ## pruned forests -/

/-- in the second forest every node has some of the branches that it has in the first one -/
def PrunedFrom (f g : Forest) : Prop := ∀ p, (g.node p).branches.Sublist (f.node p).branches

namespace PrunedFrom

theorem refl (f : Forest) : PrunedFrom f f := fun _ => List.Sublist.refl _

theorem trans {f g k : Forest} (hfg : PrunedFrom f g) (hgk : PrunedFrom g k) : PrunedFrom f k :=
  fun p => (hgk p).trans (hfg p)

theorem settle (f : Forest) (living : Marks) : PrunedFrom f (f.settle living) := by
  intro p
  rw [node_settle]
  split
  · exact List.Sublist.refl _
  · exact List.nil_sublist _

theorem plant (f : Forest) (name : String) : PrunedFrom f (f.plant name) := by
  intro p
  rw [(links_plant f name p).2]

theorem update {f : Forest} {n : NodeId} (hn : n < f.size) {change : Node → Node}
    (hchange : ∀ node, (change node).branches = node.branches) : PrunedFrom f (f.update n change) := by
  intro p
  rw [node_update hn]
  split
  · rw [hchange]
  · exact List.Sublist.refl _

theorem detach {f : Forest} (h : f.Linked) {p b : NodeId} (hp : (f.node b).parent = some p) :
    PrunedFrom f (f.detach p b) := by
  obtain ⟨hbs, hps⟩ := h.lt_size_of_parent hp
  intro q
  rw [node_detach hps hbs]
  show (if q = p then (f.node q).branches.erase b else (f.node q).branches).Sublist _
  split
  · exact List.erase_sublist
  · exact List.Sublist.refl _

theorem destroy {f : Forest} (h : f.Linked) {n : NodeId} (hn : n < f.size) :
    PrunedFrom f (f.destroy n).forest := by
  intro p
  rcases h.node_destroy hn p with ⟨_, hp⟩ | ⟨_, hp⟩
  · rw [hp]
    exact List.nil_sublist _
  · rw [hp]
    exact List.erase_sublist

end PrunedFrom
end Forest

/-! ## walks through pruned forests -/

namespace Walk

theorem pending_sublist {f g : Forest} (h : f.PrunedFrom g) (w : Walk) :
    (w.pending g).Sublist (w.pending f) := by
  rw [pending, pending]
  cases w.last with
  | none => exact List.Sublist.refl _
  | some v => exact ((h v.node).map _).append (List.Sublist.refl _)

/-- what a walk through pruned forests gives is left over from what was pending -/
theorem follow_sublist {f : Forest} (h : f.Linked) {forests : List Forest}
    (hpruned : ∀ g ∈ forests, f.PrunedFrom g) (w : Walk) :
    (w.follow forests).1.Sublist
      ((w.pending f).flatMap fun v => f.preorder (f.size + 1) v.depth v.node) := by
  induction forests generalizing w with
  | nil => exact List.nil_sublist _
  | cons g rest ih =>
    have hrest : ∀ k ∈ rest, f.PrunedFrom k := fun k hk => hpruned k (List.mem_cons_of_mem g hk)
    have hless := (pending_sublist (hpruned g List.mem_cons_self) w).flatMap
      fun v => f.preorder (f.size + 1) v.depth v.node
    refine List.Sublist.trans ?_ hless
    cases hw : w.pending g with
    | nil =>
      rw [follow_cons_of_pending_nil hw]
      exact List.nil_sublist _
    | cons v waiting =>
      have hnext := ih hrest ⟨some v, waiting⟩
      have hpending : pending f ⟨some v, waiting⟩ =
          (f.node v.node).branches.map (⟨v.depth + 1, ·⟩) ++ waiting := rfl
      rw [hpending, List.flatMap_append, List.flatMap_map] at hnext
      rw [follow_cons_of_pending_cons hw, List.flatMap_cons, h.preorder_unfold]
      exact hnext.cons_cons v

theorem follow_start_sublist {f : Forest} (h : f.Linked) (hpos : 0 < f.size)
    {forests : List Forest} (hpruned : ∀ g ∈ forests, f.PrunedFrom g) (n : NodeId) :
    ((start n).follow forests).1.Sublist (f.walk n) := by
  have hsublist := follow_sublist h hpruned (start n)
  have hpending : (start n).pending f = [⟨0, n⟩] := rfl
  rwa [hpending, List.flatMap_singleton, ← h.walk_eq_preorder hpos] at hsublist

theorem getElem?_reads_eq_some_iff {forests : List Forest} {visits : List Visit} {i : Nat}
    {branches : List NodeId} :
    (reads forests visits)[i]? = some branches ↔
      ∃ v f, visits[i]? = some v ∧ forests[i + 1]? = some f ∧
        branches = (f.node v.node).branches := by
  rw [reads, List.getElem?_zipWith, List.getElem?_tail]
  cases visits[i]? with
  | none =>
    refine iff_of_false (Option.some_ne_none branches).symm ?_
    rintro ⟨v, f, hv, _⟩
    cases hv
  | some v =>
    cases forests[i + 1]? with
    | none =>
      refine iff_of_false (Option.some_ne_none branches).symm ?_
      rintro ⟨_, f, _, hf, _⟩
      cases hf
    | some f =>
      constructor
      · intro he
        cases he
        exact ⟨v, f, rfl, rfl, rfl⟩
      · rintro ⟨_, _, hv, hf, rfl⟩
        cases hv
        cases hf
        rfl

/-- While nothing but pruning happens, a node other than the start is visited exactly if its parent
is, and was then seen to have it as a branch still. -/
theorem mem_follow_start_iff {f : Forest} (h : f.Linked) {forests : List Forest}
    (hpruned : ∀ g ∈ forests, f.PrunedFrom g) {n m p : NodeId}
    (hend : ((start n).follow forests).1.length < forests.length) (hm : m ≠ n)
    (hp : (f.node m).parent = some p) :
    m ∈ ((start n).follow forests).1.map Visit.node ↔
      ∃ (i : Nat) (v : Visit) (branches : List NodeId),
        ((start n).follow forests).1[i]? = some v ∧ v.node = p ∧
        (reads forests ((start n).follow forests).1)[i]? = some branches ∧ m ∈ branches := by
  obtain ⟨o, htops, hvisits, hfamilies⟩ := occurrences_of_follow hend
  have hmem : m ∈ ((start n).follow forests).1.map Visit.node ↔
      m ∈ (reads forests ((start n).follow forests).1).flatten := by
    rw [← hfamilies, ← hvisits, (o.map_visits_perm 0).mem_iff, htops, List.mem_append,
      List.mem_singleton]
    exact ⟨fun hor => hor.resolve_left hm, Or.inr⟩
  rw [hmem, List.mem_flatten]
  constructor
  · rintro ⟨branches, hbranches, hin⟩
    obtain ⟨i, hi⟩ := List.mem_iff_getElem?.mp hbranches
    obtain ⟨v, g, hv, hg, rfl⟩ := getElem?_reads_eq_some_iff.mp hi
    -- a branch that is left was a branch from the start, so its parent is known
    have hbranch := (hpruned g (List.mem_of_getElem? hg) v.node).subset hin
    have hparent := (h.mem_branches_iff v.node m).mp hbranch
    rw [hp, Option.some.injEq] at hparent
    exact ⟨i, v, _, hv, hparent.symm, hi, hin⟩
  · rintro ⟨i, v, branches, _, _, hi, hin⟩
    exact ⟨branches, List.mem_of_getElem? hi, hin⟩

end Walk

/-! ## commands that prune at most -/

/-- whether the command makes nodes branches of others -/
def Command.attaches : Command → Bool
  | .chain _ _ | .fan _ _ _ | .edit (.add _ _) | .edit (.replace _ _ _) => true
  | _ => false

theorem Command.eq_of_mem_requests {label : String} {f g : Forest} {c : Command}
    (h : g ∈ c.requests label f) : g = f := by
  cases c with
  | next l k =>
    rw [requests] at h
    split at h
    · exact List.eq_of_mem_replicate h
    · cases h
  | _ => cases h

theorem Forest.PrunedFrom.edit {f : Forest} (h : f.Linked) {e : Edit} {c : Change Answer}
    (he : ∀ n ∈ e.nodes, n < f.size) (hkind : (Command.edit e).attaches = false)
    (hc : f.edit e = .ok c) : f.PrunedFrom c.forest := by
  have hedited := h.edited he hc
  generalize c.forest = g at hedited ⊢
  cases hedited with
  | attached | kept | substituted => cases hkind
  | missed => exact refl f
  | detached hp => exact detach h hp
  | set _ => exact update (he _ List.mem_cons_self) fun _ => rfl
  | unset => exact update (he _ List.mem_cons_self) fun _ => rfl
  | tagged => exact update (he _ List.mem_cons_self) fun _ => rfl
  | destroyed => exact destroy h (he _ List.mem_cons_self)

namespace Session

namespace WellFormed

variable {s : Session} (h : s.WellFormed)
include h

theorem prunedFrom_attempt {c : Command} (hkind : c.attaches = false) {done : Performed}
    (hdone : s.attempt c = .ok done) : s.forest.PrunedFrom done.session.forest := by
  by_cases hforest : c.changesForest = true
  · rw [Session.attempt] at hdone
    split at hdone
    case isFalse => cases hdone
    case isTrue hheld =>
      have hnodes : ∀ n ∈ c.nodes, n < s.forest.size := fun n hn =>
        h.lt_size_of_held (List.all_eq_true.mp hheld n hn)
      cases c with
      | create name =>
        cases hdone
        exact Forest.PrunedFrom.plant s.forest name
      | edit e =>
        obtain ⟨change, hchange, hadopt⟩ := Except.bind_eq_ok_iff.mp hdone
        cases hadopt
        exact Forest.PrunedFrom.edit h.linked hnodes hkind hchange
      | chain stem count => cases hkind
      | fan n stem count => cases hkind
      | _ => cases hforest
  · rw [forest_of_attempt (Bool.eq_false_iff.mpr hforest) hdone]
    exact Forest.PrunedFrom.refl s.forest

theorem prunedFrom_step {c : Command} (hkind : c.attaches = false) :
    s.forest.PrunedFrom (s.step c).2.forest := by
  rw [Session.step]
  cases hdone : s.attempt c with
  | error e => exact Forest.PrunedFrom.settle s.forest s.living
  | ok done =>
    exact (h.prunedFrom_attempt hkind hdone).trans
      (Forest.PrunedFrom.settle done.session.forest done.session.living)

end WellFormed

namespace Reachable

/-- the requests of a run that attaches nothing meet pruned forests -/
theorem prunedFrom_of_mem_requests {s : Session} (h : s.Reachable) {label : String}
    {commands : List Command} (hprune : ∀ c ∈ commands, c.attaches = false) {g : Forest}
    (hg : g ∈ s.requests label commands) : s.forest.PrunedFrom g := by
  induction commands generalizing s with
  | nil => cases hg
  | cons c rest ih =>
    rw [requests] at hg
    rcases List.mem_append.mp hg with hg | hg
    · rw [Command.eq_of_mem_requests hg]
      exact Forest.PrunedFrom.refl s.forest
    · have hrest : ∀ d ∈ rest, d.attaches = false := fun d hd =>
        hprune d (List.mem_cons_of_mem c hd)
      exact (h.wellFormed.prunedFrom_step (hprune c List.mem_cons_self)).trans
        (ih (h.after_step c) hrest hg)

/-- While nothing is attached, whatever is removed or destroyed between its items, a walk lists some
of the visits that it would have made when it was opened, in their order.  So it visits no node
twice and has ended before there are more requests than nodes below its start.  When it has ended, a
node other than the start was visited exactly if its parent was visited and had it as a branch still
when the item after the parent was asked for. -/
theorem pruned_walk_lists_sublist {s opened : Session} (h : s.Reachable) {n : NodeId}
    (hn : s.held.has n = true) {label : String} (hopened : (s.step (.openWalk n label)).2 = opened)
    {commands : List Command} (hkeep : ∀ c ∈ commands, c.rebinds label = false)
    (hprune : ∀ c ∈ commands, c.attaches = false) :
    (opened.given label commands).Sublist (opened.forest.walk n) ∧
    ((opened.given label commands).map Visit.node).Nodup ∧
    (opened.given label commands).length ≤ opened.forest.count n ∧
    (opened.forest.count n < (opened.requests label commands).length →
      opened.exhausts label commands = true) ∧
    (opened.exhausts label commands = true →
      ∀ m p, m ≠ n → (opened.forest.node m).parent = some p →
        (m ∈ (opened.given label commands).map Visit.node ↔
          ∃ (i : Nat) (v : Visit) (branches : List NodeId),
            (opened.given label commands)[i]? = some v ∧ v.node = p ∧
            (opened.reads label commands)[i]? = some branches ∧ m ∈ branches)) := by
  have hw : opened.saved.get? label = some (.walk n (.start n)) :=
    hopened ▸ saved_step_openWalk hn label
  have hreachable : opened.Reachable := hopened ▸ h.after_step _
  have hpruned : ∀ g ∈ opened.requests label commands, opened.forest.PrunedFrom g :=
    fun g hg => hreachable.prunedFrom_of_mem_requests hprune hg
  have hl := hreachable.linked
  have hpos : 0 < opened.forest.size := by
    rw [← hopened, step_openWalk hn]
    show 0 < (s.forest.settle (s.save label (.walk n (.start n))).living).size
    rw [Forest.size_settle]
    exact Nat.zero_lt_of_lt (h.wellFormed.lt_size_of_held hn)
  obtain ⟨hgiven, hexhausts, _⟩ := follow_of_run hw hkeep
  have hsublist : (opened.given label commands).Sublist (opened.forest.walk n) :=
    hgiven ▸ Walk.follow_start_sublist hl hpos hpruned n
  have hlength : (opened.given label commands).length ≤ opened.forest.count n := by
    rw [hl.count_eq_length_walk hpos]
    exact hsublist.length_le
  refine ⟨hsublist, (hsublist.map Visit.node).nodup (hl.nodup_map_walk hpos n), hlength,
    fun hmany => hexhausts.mpr (Nat.lt_of_le_of_lt hlength hmany), fun hend m p hm hp => ?_⟩
  have hshort := hexhausts.mp hend
  rw [reads, hgiven]
  rw [hgiven] at hshort
  exact Walk.mem_follow_start_iff hl hpruned hshort hm hp

end Reachable

/-- a root with two branches, each of which has one branch itself -/
def hedge : Session :=
  (start.run [.create "root", .create "left", .create "right", .create "twig", .create "sprig",
    .edit (.add 0 (.node 1)), .edit (.add 0 (.node 2)), .edit (.add 1 (.node 3)),
    .edit (.add 2 (.node 4))]).2

theorem reachable_hedge : hedge.Reachable := ⟨_, rfl⟩

/-- After the left branch was visited the twig is cut off it, and the right branch, which waits for
its visit already, is destroyed. -/
def clipping : List Command :=
  [.next "walk" 2, .edit (.remove 1 (.node 3)), .edit (.destroy 2), .next "walk" 5]

/-- The right branch is visited all the same, and neither the twig nor the sprig. -/
theorem pruned_walk_lists_sublist_hedge :
    (hedge.Reachable ∧ hedge.held.has 0 = true ∧
        (∀ c ∈ clipping, c.rebinds "walk" = false) ∧ (∀ c ∈ clipping, c.attaches = false) ∧
        (hedge.step (.openWalk 0 "walk")).2.exhausts "walk" clipping = true) ∧
      [(⟨0, 0⟩ : Visit), ⟨1, 1⟩, ⟨1, 2⟩].Sublist
        ((hedge.step (.openWalk 0 "walk")).2.forest.walk 0) ∧
      ∃ (i : Nat) (v : Visit) (branches : List NodeId),
        ((hedge.step (.openWalk 0 "walk")).2.given "walk" clipping)[i]? = some v ∧ v.node = 0 ∧
        ((hedge.step (.openWalk 0 "walk")).2.reads "walk" clipping)[i]? = some branches ∧
        2 ∈ branches := by
  have hheld : hedge.held.has 0 = true := by decide +kernel
  have hkeep : ∀ c ∈ clipping, c.rebinds "walk" = false := by decide +kernel
  have hprune : ∀ c ∈ clipping, c.attaches = false := by decide +kernel
  have hend : (hedge.step (.openWalk 0 "walk")).2.exhausts "walk" clipping = true := by
    decide +kernel
  have hgiven : (hedge.step (.openWalk 0 "walk")).2.given "walk" clipping =
      [⟨0, 0⟩, ⟨1, 1⟩, ⟨1, 2⟩] := by decide +kernel
  have hparent : ((hedge.step (.openWalk 0 "walk")).2.forest.node 2).parent = some 0 := by
    decide +kernel
  obtain ⟨hsublist, -, -, -, hvisited⟩ :=
    Reachable.pruned_walk_lists_sublist reachable_hedge hheld rfl hkeep hprune
  refine ⟨⟨reachable_hedge, hheld, hkeep, hprune, hend⟩, hgiven ▸ hsublist,
    (hvisited hend 2 0 (by decide) hparent).mp ?_⟩
  rw [hgiven]
  decide

end Session
end Arbor
