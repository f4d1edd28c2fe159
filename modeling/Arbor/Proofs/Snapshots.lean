import Arbor.Proofs.Rewriting
import Arbor.Proofs.Sessions

/-!
# Going through a snapshot while the tree changes

An enumeration is a list of its own.  Whoever goes through it may detach, replace or destroy each
node when its turn comes: as a node is listed before all that it hangs from, its way up is still
what it was, and so its parent is there to be told.

* `Session.treatEach`             the turns of the listed nodes;
* `Session.Between`               what holds before, between and after the turns;
* `Reachable.snapshot_rewriting`  every turn works, and what the tree is afterwards.
-/

namespace Arbor

/-! ## what the edits of a turn do -/

namespace Forest.Linked

variable {f : Forest} (h : f.Linked)
include h

theorem edit_replace_of_bare {p n y : NodeId} (hp : (f.node n).parent = some p)
    (hroot : (f.node y).parent = none) (hbare : (f.node y).branches = []) (hpy : p ≠ y) :
    f.edit (.replace p (.node n) (.node y)) = .ok (.silent (.node n) (f.substitute p n y)) := by
  have hfree := h.under_beq_eq_false_iff.mpr (h.ancestor?_ne_of_no_branches hbare hpy)
  exact h.edit_replace hp (attachable_eq_ok_iff.mpr ⟨rfl, hroot, hfree⟩)

end Forest.Linked

/-! ## the turns -/

/-- The commands of a treatment.  The node is asked for its parent when its turn comes; a node
without parent leaves nobody to be told. -/
def Treatment.commands (f : Forest) (n : NodeId) : Treatment → Option (List Command)
  | .keep => some []
  | .detach => (f.node n).parent.map fun p => [.edit (.remove p (.node n))]
  | .replace name => (f.node n).parent.map fun p =>
    [.create name, .edit (.replace p (.node n) (.node f.size))]
  | .destroy => some [.edit (.destroy n)]

/-- What a treatment of a node answers when nothing goes wrong: the node, where it was detached or
replaced, and no line in a log but the one about a destruction. -/
def Treatment.Succeeds (thresholds : Thresholds) (n : NodeId) : Treatment → List Reply → Prop
  | .keep, replies => replies = []
  | .detach, replies => replies = [⟨.ok (.node n), []⟩]
  | .replace _, replies => ∃ y, replies = [⟨.ok (.node y), []⟩, ⟨.ok (.node n), []⟩]
  | .destroy, replies => ∃ k f, replies = [⟨.ok (.number k),
    thresholds.record .core debugLevel fun _ => (Notice.released k n).text isPrintable f⟩]

/-- the parent that a node has when its turn comes, and the replies to its commands -/
structure Turn where
  parent : Option NodeId
  replies : List Reply

namespace Session

/-- holds the nodes of a list as well, as does who goes through it -/
def takeUp (s : Session) (ns : List NodeId) : Session :=
  { s with held := ns.foldl (fun marks n => marks.set n true) s.held }

/-- the turns of the nodes of a list one after the other, if each has the parent that it needs -/
def treatEach (plan : Plan) : List NodeId → Session → Option (List Turn × Session)
  | [], s => some ([], s)
  | n :: rest, s => do
    let commands ← (plan n).commands s.forest n
    let (replies, next) := s.run commands
    let (turns, last) ← treatEach plan rest next
    return (⟨(s.forest.node n).parent, replies⟩ :: turns, last)

/-! ## before, between and after the turns -/

/-- A session on the way through the nodes below `r`: they are rewritten as far as the plan says,
and all that was held or saved before is so still, the listed nodes and the new ones too. -/
structure Between (s : Session) (r : NodeId) (plan : Plan) (new : NodeId → NodeId) (t : Session) :
    Prop where
  rewritten : s.forest.Rewritten plan new t.forest
  size_held : t.held.size = t.forest.size
  held : ∀ n, s.held.has n = true ∨ n ∈ s.forest.enumerate r ++ [r] ∨
    s.forest.size ≤ n ∧ n < t.forest.size → t.held.has n = true
  saved : t.saved = s.saved
  thresholds : t.thresholds = s.thresholds

namespace Between

variable {s t : Session} {r : NodeId} {plan : Plan} {new : NodeId → NodeId}

theorem start (h : s.Reachable) (hr : s.Alive r) (hplan : ∀ n, plan n = .keep) :
    Between s r plan new (s.takeUp (s.forest.enumerate r ++ [r])) where
  rewritten := .start h.linked hplan new
  size_held := (Marks.size_foldl_set _ _).trans h.wellFormed.size_held
  held n hn := by
    refine (Marks.has_foldl_set _ _ n).mpr ?_
    rcases hn with hold | hlisted | ⟨hle, hlt⟩
    · exact Or.inl hold
    · obtain ⟨k, hk⟩ := (h.linked.mem_enumerate_append_self_iff (h.pos_size_of_alive hr)).mp hlisted
      refine Or.inr ⟨hlisted, ?_⟩
      rw [h.wellFormed.size_held]
      exact h.linked.lt_size_of_below (h.lt_size_of_alive hr) hk
    · exact absurd hlt (Nat.not_lt_of_le hle)
  saved := rfl
  thresholds := rfl

theorem adopt (ht : Between s r plan new t) {plan' : Plan} {new' : NodeId → NodeId} {g : Forest}
    (hg : s.forest.Rewritten plan' new' g) (hsize : g.size = t.forest.size) :
    Between s r plan' new' { t with forest := g } where
  rewritten := hg
  size_held := ht.size_held.trans hsize.symm
  held n hn := ht.held n (by rwa [hsize] at hn)
  saved := ht.saved
  thresholds := ht.thresholds

/-- a new node is held from the beginning -/
theorem grow (ht : Between s r plan new t) (name : String) :
    Between s r plan new (t.grow (t.forest.plant name)) where
  rewritten := ht.rewritten.plant name
  size_held := by
    show (t.held ++ Array.replicate ((t.forest.plant name).size - t.held.size) true).size =
      (t.forest.plant name).size
    rw [Array.size_append, Array.size_replicate, ht.size_held, Forest.size_plant]
    omega
  held n hn := by
    replace hn : s.held.has n = true ∨ n ∈ s.forest.enumerate r ++ [r] ∨
      s.forest.size ≤ n ∧ n < (t.forest.plant name).size := hn
    refine (Marks.has_append_replicate t.held _ n).mpr ?_
    rw [Forest.size_plant] at hn ⊢
    rcases hn with hold | hlisted | ⟨hle, hlt⟩
    · exact Or.inl (ht.held n (Or.inl hold))
    · exact Or.inl (ht.held n (Or.inr (Or.inl hlisted)))
    · by_cases hnew : n < t.forest.size
      · exact Or.inl (ht.held n (Or.inr (Or.inr ⟨hle, hnew⟩)))
      · rw [ht.size_held, Nat.add_sub_cancel_left]
        exact Or.inr ⟨Nat.le_of_not_lt hnew, hlt⟩
  saved := ht.saved
  thresholds := ht.thresholds

section
variable (h : s.Reachable) (hr : s.Alive r) (hplan : ∀ n, n ∉ s.forest.enumerate r → plan n = .keep)
include h hr hplan

/-- nothing is wiped but what is listed -/
theorem mem_enumerate_of_wiped {m : NodeId} (hm : s.forest.Wiped plan m) :
    m ∈ s.forest.enumerate r := by
  have hpos := h.pos_size_of_alive hr
  obtain ⟨a, hup, ha⟩ := hm
  by_contra hout
  by_cases hal : a ∈ s.forest.enumerate r
  · obtain ⟨i, hi⟩ := hup.ancestor?
    obtain ⟨j, hj⟩ := (h.linked.mem_enumerate_iff hpos).mp hal
    refine hout ((h.linked.mem_enumerate_iff hpos).mpr ⟨i + j, ?_⟩)
    rw [Nat.add_assoc, Forest.ancestor?_add, hi]
    exact hj
  · rw [hplan a hal] at ha
    cases ha

variable (ht : Between s r plan new t)
include ht

/-- what is neither listed nor the start of the list stays as it is -/
theorem node_of_not_mem {m : NodeId} (hm : m < s.forest.size)
    (hout : m ∉ s.forest.enumerate r ++ [r]) : t.forest.node m = s.forest.node m := by
  have hpos := h.pos_size_of_alive hr
  have hlist : m ∉ s.forest.enumerate r := fun hin => hout (List.mem_append_left [r] hin)
  have hbranches : ∀ b ∈ (s.forest.node m).branches, plan b = .keep := by
    intro b hb
    have hp := (h.linked.mem_branches_iff m b).mp hb
    exact hplan b fun hin => hout ((h.linked.mem_enumerate_iff_of_parent hpos hp).mp hin)
  exact ht.rewritten.node_of_keep hm (fun hw => hlist (mem_enumerate_of_wiped h hr hplan hw))
    (hplan m hlist) hbranches

/-! ## nobody dies on the way -/

omit hr hplan in
theorem wellFormed : t.WellFormed where
  linked := ht.rewritten.linked
  size_held := ht.size_held
  anchors_lt entry hentry n hn := by
    rw [ht.saved] at hentry
    exact Nat.lt_of_lt_of_le (h.wellFormed.anchors_lt entry hentry n hn) ht.rewritten.size_le

theorem alive_of_alive {m : NodeId} (hm : s.Alive m) : t.Alive m := by
  induction hm with
  | anchored ha =>
    rcases ha with ha | ⟨entry, hentry, ha⟩
    · exact Alive.anchored (Or.inl (ht.held _ (Or.inl ha)))
    · exact Alive.anchored (Or.inr ⟨entry, ht.saved ▸ hentry, ha⟩)
  | @branch p b _ hb ih =>
    by_cases hin : b ∈ s.forest.enumerate r ++ [r]
    · exact Alive.anchored (Or.inl (ht.held b (Or.inr (Or.inl hin))))
    · have hp := (h.linked.mem_branches_iff p b).mp hb
      have hnode := ht.node_of_not_mem h hr hplan (h.linked.lt_size_of_parent hp).1 hin
      exact Alive.branch ih ((ht.rewritten.linked.mem_branches_iff p b).mpr (hnode ▸ hp))

theorem settle_eq : t.settle = t := by
  refine (ht.wellFormed h).settle_eq_of_remains fun m hm => ?_
  have hheld : ¬ t.held.has m = true := fun hheld => hm (Alive.anchored (Or.inl hheld))
  by_cases hlt : m < s.forest.size
  · have hout : m ∉ s.forest.enumerate r ++ [r] := fun hin =>
      hheld (ht.held m (Or.inr (Or.inl hin)))
    rw [ht.node_of_not_mem h hr hplan hlt hout]
    exact h.remains_of_dead fun hold => hm (ht.alive_of_alive h hr hplan hold)
  · have hge : t.forest.size ≤ m := by
      by_contra hlt'
      exact hheld (ht.held m (Or.inr (Or.inr ⟨Nat.le_of_not_lt hlt, Nat.lt_of_not_le hlt'⟩)))
    rw [Forest.node_of_size_le hge]
    rfl

/-- an edit is all that happens in its step -/
theorem step_edit_eq {e : Edit} {change : Change Answer} {u : Session}
    (hu : u.forest.edit e = .ok change) (hheld : ∀ n ∈ e.nodes, u.held.has n = true)
    (hafter : { u with forest := change.forest } = t) :
    u.step (.edit e) = (⟨.ok change.result, (u.adopt change).log⟩, t) := by
  rw [step_edit hheld hu, hafter, ht.settle_eq h hr hplan]

/-! ## one turn -/

section
variable {n p : NodeId} (hlisted : n ∈ s.forest.enumerate r) (hp : (s.forest.node n).parent = some p)
  (hn : s.forest.Untouched plan n)
include hlisted hp hn

omit hp hn h hr ht in
theorem update_of_not_mem (x : Treatment) (m : NodeId) (hm : m ∉ s.forest.enumerate r) :
    Function.update plan n x m = .keep := by
  have hmn : m ≠ n := by
    rintro rfl
    exact hm hlisted
  rw [Function.update_of_ne hmn]
  exact hplan m hm

omit hplan hn in
theorem held_of_listed : t.held.has n = true ∧ t.held.has p = true := by
  have hpl := (h.linked.mem_enumerate_iff_of_parent (h.pos_size_of_alive hr) hp).mp hlisted
  exact ⟨ht.held n (Or.inr (Or.inl (List.mem_append_left [r] hlisted))),
    ht.held p (Or.inr (Or.inl hpl))⟩

theorem run_detach :
    (t.run [.edit (.remove p (.node n))]).1 = [⟨.ok (.node n), []⟩] ∧
      Between s r (Function.update plan n .detach) new (t.run [.edit (.remove p (.node n))]).2 := by
  have hparent := ht.rewritten.parent_of_untouched h.linked hp hn
  have hafter := ht.adopt (ht.rewritten.detach h.linked hp hn) (Forest.size_detach t.forest p n)
  obtain ⟨hheldn, hheldp⟩ := ht.held_of_listed h hr hlisted hp
  have hheld : ∀ m ∈ (Edit.remove p (.node n)).nodes, t.held.has m = true := by
    intro m hm
    rcases List.mem_cons.mp hm with rfl | hm
    · exact hheldp
    · rwa [List.mem_singleton.mp hm]
  have hstep := hafter.step_edit_eq h hr (update_of_not_mem hplan hlisted .detach)
    (ht.rewritten.linked.edit_remove hparent) hheld rfl
  show [(t.step (.edit (.remove p (.node n)))).1] = _ ∧
    Between s r _ new (t.step (.edit (.remove p (.node n)))).2
  rw [hstep]
  exact ⟨rfl, hafter⟩

theorem run_destroy :
    Treatment.destroy.Succeeds s.thresholds n (t.run [.edit (.destroy n)]).1 ∧
      Between s r (Function.update plan n .destroy) new (t.run [.edit (.destroy n)]).2 := by
  have hafter := ht.adopt (ht.rewritten.destroy h.linked hp hn) (Forest.size_destroy t.forest n)
  have hheld : ∀ m ∈ (Edit.destroy n).nodes, t.held.has m = true := by
    intro m hm
    rw [List.mem_singleton.mp hm]
    exact (ht.held_of_listed h hr hlisted hp).1
  have hstep := hafter.step_edit_eq h hr (update_of_not_mem hplan hlisted .destroy)
    (ht.rewritten.linked.edit_destroy n) hheld rfl
  show Treatment.destroy.Succeeds s.thresholds n [(t.step (.edit (.destroy n))).1] ∧
    Between s r _ new (t.step (.edit (.destroy n))).2
  rw [hstep]
  refine ⟨⟨(t.forest.enumerate n).length + 1, (t.forest.destroy n).forest, ?_⟩, hafter⟩
  rw [← ht.thresholds, Session.adopt, List.flatMap_singleton]

theorem run_replace (name : String) :
    (t.run [.create name, .edit (.replace p (.node n) (.node t.forest.size))]).1 =
        [⟨.ok (.node t.forest.size), []⟩, ⟨.ok (.node n), []⟩] ∧
      Between s r (Function.update plan n (.replace name)) (Function.update new n t.forest.size)
        (t.run [.create name, .edit (.replace p (.node n) (.node t.forest.size))]).2 := by
  -- the new node stands alone at first
  have hgrow := ht.grow name
  have hcreate : t.step (.create name) =
      (⟨.ok (.node t.forest.size), []⟩, t.grow (t.forest.plant name)) :=
    Prod.ext rfl (hgrow.settle_eq h hr hplan)
  have hfresh : (t.forest.plant name).node t.forest.size = Node.fresh name :=
    Forest.node_plant_self t.forest name
  have hlow : s.forest.size ≤ t.forest.size := ht.rewritten.size_le
  have hlt : t.forest.size < (t.forest.plant name).size := by
    rw [Forest.size_plant]
    exact Nat.lt_succ_self _
  -- then it takes the place of the node
  have hparent := hgrow.rewritten.parent_of_untouched h.linked hp hn
  have hpy : p ≠ t.forest.size :=
    Nat.ne_of_lt (Nat.lt_of_lt_of_le (h.linked.lt_size_of_parent hp).2 hlow)
  have hedit := hgrow.rewritten.linked.edit_replace_of_bare hparent (y := t.forest.size)
    (congrArg Node.parent hfresh) (congrArg Node.branches hfresh) hpy
  have hafter := hgrow.adopt (hgrow.rewritten.substitute h.linked hp hn hlow hlt hfresh
    fun b other hb => Nat.ne_of_lt (ht.rewritten.newcomer b other hb).2.1)
    (Forest.size_substitute _ p n t.forest.size)
  obtain ⟨hheldn, hheldp⟩ := hgrow.held_of_listed h hr hlisted hp
  have hheld : ∀ m ∈ (Edit.replace p (.node n) (.node t.forest.size)).nodes,
      (t.grow (t.forest.plant name)).held.has m = true := by
    intro m hm
    rcases List.mem_cons.mp hm with rfl | hm
    · exact hheldp
    · rcases List.mem_cons.mp hm with rfl | hm
      · exact hheldn
      · rw [List.mem_singleton.mp hm]
        exact hgrow.held _ (Or.inr (Or.inr ⟨hlow, hlt⟩))
  have hstep := hafter.step_edit_eq h hr (update_of_not_mem hplan hlisted (.replace name)) hedit
    hheld rfl
  show [(t.step (.create name)).1, ((t.step (.create name)).2.step _).1] = _ ∧
    Between s r _ _ ((t.step (.create name)).2.step _).2
  rw [hcreate]
  show [_, ((t.grow (t.forest.plant name)).step _).1] = _ ∧
    Between s r _ _ ((t.grow (t.forest.plant name)).step _).2
  rw [hstep]
  exact ⟨rfl, hafter⟩

omit hp in
/-- The turn of a listed node that nothing above had its turn before: all that is needed is there,
every call succeeds, and the plan is carried out for one node more. -/
theorem turn (x : Treatment) :
    (t.forest.node n).parent = (s.forest.node n).parent ∧ ∃ commands new',
      x.commands t.forest n = some commands ∧ x.Succeeds s.thresholds n (t.run commands).1 ∧
        Between s r (Function.update plan n x) new' (t.run commands).2 := by
  obtain ⟨k, hk⟩ := (h.linked.mem_enumerate_iff (h.pos_size_of_alive hr)).mp hlisted
  obtain ⟨p, hp, _⟩ := Forest.exists_parent_of_ancestor?_succ hk
  have hparent := ht.rewritten.parent_of_untouched h.linked hp hn
  refine ⟨hparent.trans hp.symm, ?_⟩
  cases x with
  | keep =>
    have hsame : Function.update plan n .keep = plan := by
      rw [← hn.keep, Function.update_eq_self]
    refine ⟨[], new, rfl, rfl, ?_⟩
    rw [hsame]
    exact ht
  | detach =>
    obtain ⟨hreplies, hafter⟩ := ht.run_detach h hr hplan hlisted hp hn
    refine ⟨_, new, ?_, hreplies, hafter⟩
    rw [Treatment.commands, hparent]
    rfl
  | replace name =>
    obtain ⟨hreplies, hafter⟩ := ht.run_replace h hr hplan hlisted hp hn name
    refine ⟨_, _, ?_, ⟨t.forest.size, hreplies⟩, hafter⟩
    rw [Treatment.commands, hparent]
    rfl
  | destroy =>
    obtain ⟨hreplies, hafter⟩ := ht.run_destroy h hr hplan hlisted hp hn
    exact ⟨_, new, rfl, hreplies, hafter⟩

end
end

/-! ## all turns -/

/-- the turns of the nodes of a list, of which the first ones had theirs already -/
theorem turns (h : s.Reachable) (hr : s.Alive r) {done rest : List NodeId}
    (hlist : s.forest.enumerate r = done ++ rest) (ht : Between s r (plan.within done) new t) :
    ∃ turns after new', t.treatEach plan rest = some (turns, after) ∧
      List.Forall₂ (fun n turn => turn.parent = (s.forest.node n).parent ∧
        (plan n).Succeeds s.thresholds n turn.replies) rest turns ∧
      Between s r (plan.within (s.forest.enumerate r)) new' after := by
  induction rest generalizing done t new with
  | nil =>
    rw [List.append_nil] at hlist
    rw [hlist]
    exact ⟨[], t, new, rfl, List.Forall₂.nil, ht⟩
  | cons n rest ih =>
    have hlisted : n ∈ s.forest.enumerate r := by
      rw [hlist]
      exact List.mem_append_right done List.mem_cons_self
    have hplan : ∀ m, m ∉ s.forest.enumerate r → plan.within done m = .keep := by
      intro m hm
      rw [hlist] at hm
      exact plan.within_of_not_mem fun hin => hm (List.mem_append_left (n :: rest) hin)
    -- what had its turn before is not above
    have huntouched : s.forest.Untouched (plan.within done) n := by
      intro k a hk
      have hpair := h.linked.pairwise_enumerate (h.pos_size_of_alive hr) r
      rw [hlist] at hpair
      refine plan.within_of_not_mem fun hin => ?_
      exact (List.pairwise_append.mp hpair).2.2 a hin n List.mem_cons_self k hk
    obtain ⟨hparent, commands, new', hcommands, hsucceeds, hafter⟩ :=
      ht.turn h hr hplan hlisted huntouched (plan n)
    rw [← Plan.within_append_singleton] at hafter
    have hlist' : s.forest.enumerate r = (done ++ [n]) ++ rest := by
      rw [hlist, List.append_assoc]
      rfl
    obtain ⟨turns, after, new'', hrest, hall, hend⟩ := ih hlist' hafter
    refine ⟨⟨(t.forest.node n).parent, (t.run commands).1⟩ :: turns, after, new'', ?_,
      List.Forall₂.cons ⟨hparent, hsucceeds⟩ hall, hend⟩
    rw [treatEach, hcommands]
    show (treatEach plan rest (t.run commands).2).bind (fun done =>
      some (⟨(t.forest.node n).parent, (t.run commands).1⟩ :: done.1, done.2)) = _
    rw [hrest]
    rfl

end Between

/-- Whatever is planned for each node of a snapshot, every turn finds the parent that the node had
at first, and every call succeeds.  Afterwards, what goes with a destroyed node keeps its name only.
All other listed nodes and the start have their attributes and tags, and of their branches those
that were kept, in order, with the new nodes in the places of the replaced ones, which have them as
their parents; they keep their own parents unless they were treated themselves.  Nothing else
changes. -/
theorem Reachable.snapshot_rewriting {s : Session} (h : s.Reachable) {r : NodeId} (hr : s.Alive r)
    (plan : Plan) :
    ∃ turns after new,
      (s.takeUp (s.forest.enumerate r ++ [r])).treatEach plan (s.forest.enumerate r) =
        some (turns, after) ∧
      List.Forall₂ (fun n turn => turn.parent = (s.forest.node n).parent ∧
        (plan n).Succeeds s.thresholds n turn.replies) (s.forest.enumerate r) turns ∧
      (∀ m ∈ s.forest.enumerate r, s.forest.Wiped (plan.within (s.forest.enumerate r)) m →
        after.forest.node m = Node.fresh (s.forest.node m).name) ∧
      ¬ s.forest.Wiped (plan.within (s.forest.enumerate r)) r ∧
      (∀ m ∈ s.forest.enumerate r ++ [r], ¬ s.forest.Wiped (plan.within (s.forest.enumerate r)) m →
        (after.forest.node m).name = (s.forest.node m).name ∧
        (after.forest.node m).attributes = (s.forest.node m).attributes ∧
        (after.forest.node m).tags = (s.forest.node m).tags ∧
        (after.forest.node m).branches = plan.remainders new (s.forest.node m).branches) ∧
      (∀ m ∈ s.forest.enumerate r, ¬ s.forest.Wiped (plan.within (s.forest.enumerate r)) m →
        (after.forest.node m).parent =
          if plan m = .keep then (s.forest.node m).parent else none) ∧
      (after.forest.node r).parent = (s.forest.node r).parent ∧
      (∀ m < s.forest.size, m ∉ s.forest.enumerate r ++ [r] →
        after.forest.node m = s.forest.node m) ∧
      (∀ b ∈ s.forest.enumerate r, ∀ name, plan b = .replace name →
        s.forest.size ≤ new b ∧ (after.forest.node (new b)).content = Node.fresh name ∧
        ∀ p, (s.forest.node b).parent = some p →
          ¬ s.forest.Wiped (plan.within (s.forest.enumerate r)) p →
          (after.forest.node (new b)).parent = some p) ∧
      ∀ b ∈ s.forest.enumerate r, ∀ c ∈ s.forest.enumerate r, ∀ first second,
        plan b = .replace first → plan c = .replace second → new b = new c → b = c := by
  have hpos := h.pos_size_of_alive hr
  have hstart : Between s r (plan.within []) id (s.takeUp (s.forest.enumerate r ++ [r])) :=
    .start h hr fun n => plan.within_of_not_mem List.not_mem_nil
  obtain ⟨turns, after, new, hturns, hall, hend⟩ := hstart.turns h hr (List.nil_append _).symm
  have hplan : ∀ m, m ∉ s.forest.enumerate r → plan.within (s.forest.enumerate r) m = .keep :=
    fun m hm => plan.within_of_not_mem hm
  have hsize : ∀ m ∈ s.forest.enumerate r ++ [r], m < s.forest.size := fun m hm => by
    obtain ⟨k, hk⟩ := (h.linked.mem_enumerate_append_self_iff hpos).mp hm
    exact h.linked.lt_size_of_below (h.lt_size_of_alive hr) hk
  have hself := h.linked.not_mem_enumerate_self hpos r
  have hroot : ¬ s.forest.Wiped (plan.within (s.forest.enumerate r)) r := fun hw =>
    hself (Between.mem_enumerate_of_wiped h hr hplan hw)
  have hbranch : ∀ m ∈ s.forest.enumerate r ++ [r], ∀ b ∈ (s.forest.node m).branches,
      b ∈ s.forest.enumerate r := fun m hm b hb =>
    (h.linked.mem_enumerate_iff_of_parent hpos ((h.linked.mem_branches_iff m b).mp hb)).mpr hm
  have hreplace : ∀ b ∈ s.forest.enumerate r, ∀ name, plan b = .replace name →
      plan.within (s.forest.enumerate r) b = .replace name := fun b hb name hname => by
    rw [plan.within_of_mem hb, hname]
  refine ⟨turns, after, new, hturns, hall, fun m hm hw => ?_, hroot, fun m hm hnot => ?_,
    fun m hm hnot => ?_, ?_, fun m hm hout => hend.node_of_not_mem h hr hplan hm hout,
    fun b hb name hname => ?_, fun b hb c hc first second hfirst hsecond => ?_⟩
  · exact hend.rewritten.wiped m (hsize m (List.mem_append_left [r] hm)) hw
  · rw [hend.rewritten.spared m (hsize m hm) hnot]
    refine ⟨rfl, rfl, rfl, ?_⟩
    exact Plan.remainders_congr (fun b hb => plan.within_of_mem (hbranch m hm b hb)) fun _ _ => rfl
  · rw [hend.rewritten.spared m (hsize m (List.mem_append_left [r] hm)) hnot,
      plan.within_of_mem hm]
  · rw [hend.rewritten.spared r (h.lt_size_of_alive hr) hroot, if_pos (hplan r hself)]
  · obtain ⟨hlow, _, hcontent⟩ := hend.rewritten.newcomer b name (hreplace b hb name hname)
    exact ⟨hlow, hcontent, fun p hp hnot =>
      hend.rewritten.parent_newcomer h.linked hp hnot (hreplace b hb name hname)⟩
  · exact hend.rewritten.distinct b c first second (hreplace b hb first hfirst)
      (hreplace c hc second hsecond)

/-- A root with three branches, of which the first has two branches and the second has one.  Below
the root nothing is held. -/
def grove : Session :=
  (start.run [.create "root", .create "oak", .create "acorn", .create "leaf", .create "elm",
    .create "nest", .create "ash", .edit (.add 0 (.node 1)), .edit (.add 1 (.node 2)),
    .edit (.add 1 (.node 3)), .edit (.add 0 (.node 4)), .edit (.add 4 (.node 5)),
    .edit (.add 0 (.node 6)), .edit (.tag 1 "old"), .edit (.tag 5 "empty"), .drop 1, .drop 2,
    .drop 3, .drop 4, .drop 5, .drop 6]).2

theorem reachable_grove : grove.Reachable := ⟨_, rfl⟩

/-- the acorn gives way to a seed, the leaf falls, and the elm is destroyed -/
def lopping : Plan
  | 2 => .replace "seed"
  | 3 => .detach
  | 4 => .destroy
  | _ => .keep

/-- The nest goes with the elm, and the oak is left with the seed. -/
theorem snapshot_rewriting_grove :
    (grove.Reachable ∧ grove.Alive 0) ∧
      ∃ (turns : List Turn) (after : Session) (new : NodeId → NodeId),
        (grove.takeUp (grove.forest.enumerate 0 ++ [0])).treatEach lopping
          (grove.forest.enumerate 0) = some (turns, after) ∧
        turns.length = 6 ∧ after.forest.node 5 = Node.fresh "nest" ∧
        (after.forest.node 0).branches = [1, 6] ∧ (after.forest.node 1).branches = [new 2] ∧
        (after.forest.node 1).tags = ["old"] ∧ (after.forest.node 3).parent = none ∧
        (after.forest.node (new 2)).content = Node.fresh "seed" ∧
        (after.forest.node (new 2)).parent = some 1 := by
  have hlive : grove.Alive 0 := .anchored (.inl (by decide +kernel))
  have hlist : grove.forest.enumerate 0 = [2, 3, 1, 5, 4, 6] := by decide +kernel
  obtain ⟨turns, after, new, hturns, hall, hwiped, hroot, hspared, hparent, -, -, hnew, -⟩ :=
    Reachable.snapshot_rewriting reachable_grove hlive lopping
  refine ⟨⟨reachable_grove, hlive⟩, turns, after, new, hturns, ?_⟩
  rw [hlist] at hall hwiped hroot hspared hparent hnew
  have hnest : (grove.forest.node 5).parent = some 4 := by decide +kernel
  have hoak : (grove.forest.node 1).parent = some 0 := by decide +kernel
  have hgone : grove.forest.Wiped (lopping.within [2, 3, 1, 5, 4, 6]) 5 :=
    ⟨4, .up rfl hnest (.self 4), rfl⟩
  have hstands : ¬ grove.forest.Wiped (lopping.within [2, 3, 1, 5, 4, 6]) 1 := fun hw =>
    hroot ((Forest.wiped_iff_of_keep rfl hoak).mp hw)
  have hfallen : ¬ grove.forest.Wiped (lopping.within [2, 3, 1, 5, 4, 6]) 3 := by
    rintro ⟨a, hup, ha⟩
    cases hup with
    | self => cases ha
    | up hkeep => cases hkeep
  obtain ⟨-, -, -, htop⟩ := hspared 0 (by decide) hroot
  obtain ⟨-, -, htags, hbranches⟩ := hspared 1 (by decide) hstands
  obtain ⟨-, hseed, hplace⟩ := hnew 2 (by decide) "seed" rfl
  have hacorn : (grove.forest.node 2).parent = some 1 := by decide +kernel
  refine ⟨hall.length_eq.symm, ?_, ?_, ?_, ?_, hparent 3 (by decide) hfallen, hseed,
    hplace 1 hacorn hstands⟩
  · rw [hwiped 5 (by decide) hgone]
    decide +kernel
  · have hbefore : (grove.forest.node 0).branches = [1, 4, 6] := by decide +kernel
    rw [htop, hbefore]
    rfl
  · have hbefore : (grove.forest.node 1).branches = [2, 3] := by decide +kernel
    rw [hbranches, hbefore]
    rfl
  · rw [htags]
    decide +kernel

end Session
end Arbor
